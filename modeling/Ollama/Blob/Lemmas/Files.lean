import Ollama.Blob.Cache

/-!
# What is written to a file

A write that returns no error leaves a file that had the right size already, or what was read, with the right size and
digest. One that returns an error leaves an empty file.
-/

namespace Ollama.Blob

open Lib Utf8 Names

variable {sha : Bytes → Digest}

/-- The file of a `checkWriter`: what it has hashed, and what is left of the file it was opened on. -/
structure CheckWriter.Writing (f : Bytes) (w : CheckWriter) : Prop where
  length : w.h.length = w.n
  file : w.f = w.h ++ f.drop w.n

theorem writeAt_hashed {f h p : Bytes} {n : Nat} (hn : h.length = n) :
    writeAt (h ++ f.drop n) n p = (h ++ p) ++ f.drop (n + p.length) := by
  subst hn
  have hle : h.length - (h ++ f.drop h.length).length = 0 := by
    rw [List.length_append]
    omega
  rw [writeAt, hle, List.take_left, List.drop_append, List.drop_drop]
  simp

/-- A write that returns no error. -/
theorem write_eq_ok {d : Digest} {size : Int} {w w' : CheckWriter} {p f : Bytes} (h : w.write sha d size p = (w', none))
    (hw : w.Writing f) :
    w'.Writing f ∧ w'.h = w.h ++ p ∧ (w'.n : Int) ≤ size ∧ ((w'.n : Int) = size → sha w'.h = d) := by
  unfold CheckWriter.write at h
  dsimp only at h
  split at h
  · nomatch h
  · rename_i hsum
    split at h
    · nomatch h
    · rename_i hsize
      obtain ⟨rfl, _⟩ := Prod.mk.inj h
      refine ⟨⟨?_, ?_⟩, rfl, ?_, fun hn => ?_⟩
      · rw [List.length_append, hw.length]
      · rw [hw.file]
        exact writeAt_hashed hw.length
      · push_cast
        exact Int.not_lt.1 hsize
      · push_cast at hn
        exact Decidable.not_not.1 (fun hne => hsum ⟨hn, hne⟩)

/-- Reads that are all written. -/
theorem copyReads_eq_ok {d : Digest} {size : Int} {w w' : CheckWriter} {reads : List Bytes} {f : Bytes}
    (h : copyReads sha d size w reads = (w', none)) (hw : w.Writing f) :
    w'.Writing f ∧ w'.h = w.h ++ reads.flatten ∧
      (reads.flatten = [] ∨ ((w'.n : Int) ≤ size ∧ ((w'.n : Int) = size → sha w'.h = d))) := by
  induction reads generalizing w with
  | nil =>
    obtain ⟨rfl, _⟩ := Prod.mk.inj h
    exact ⟨hw, by simp, Or.inl rfl⟩
  | cons p reads ih =>
    rw [copyReads] at h
    by_cases hp : p = []
    · rw [if_pos hp] at h
      subst hp
      exact ih h hw
    · rw [if_neg hp] at h
      rcases hwrite : w.write sha d size p with ⟨w₁, _ | err⟩
      · rw [hwrite] at h
        obtain ⟨hw₁, hh₁, hle, hsum⟩ := write_eq_ok hwrite hw
        obtain ⟨hw', hh', hlast⟩ := ih h hw₁
        refine ⟨hw', by rw [hh', hh₁, List.flatten_cons, List.append_assoc], Or.inr ?_⟩
        rcases hlast with hnil | hlast
        · rw [hnil, List.append_nil] at hh'
          rw [← hw'.length, hh', hw₁.length]
          exact ⟨hle, hsum⟩
        · exact hlast
      · rw [hwrite] at h
        nomatch h

/-- A file that is opened shorter than it is to be. -/
theorem copyOpened_eq_ok {f f' : Bytes} {r : Reader} {out : Digest} {size : Int}
    (h : copyOpened sha f r out size = (f', none)) (hf : f = [] ∨ (f.length : Int) < size) :
    (f' = [] ∧ size ≤ 0) ∨ (f' = r.reads.flatten ∧ (f'.length : Int) = size ∧ sha f' = out) := by
  unfold copyOpened at h
  by_cases hsize : size = 0
  · rw [if_pos hsize] at h
    obtain ⟨rfl, _⟩ := Prod.mk.inj h
    left
    rcases hf with rfl | hlt
    · exact ⟨rfl, by omega⟩
    · omega
  · rw [if_neg hsize] at h
    rcases hcopy : copyReads sha out size ⟨0, [], f⟩ r.reads with ⟨w, _ | err⟩
    · rw [hcopy] at h
      dsimp only at h
      split at h
      · nomatch h
      · split at h
        · nomatch h
        · rename_i hn
          obtain ⟨rfl, _⟩ := Prod.mk.inj h
          obtain ⟨hw, hh, hlast⟩ := copyReads_eq_ok hcopy (f := f) ⟨rfl, by simp⟩
          rw [List.nil_append] at hh
          rcases hlast with hnil | ⟨hle, hsum⟩
          · -- nothing was read, and nothing more was asked for
            rw [hnil] at hh
            have hzero : w.n = 0 := by rw [← hw.length, hh, List.length_nil]
            have hfnil : f = [] := by
              rcases hf with hf | hlt
              · exact hf
              · omega
            left
            rw [hw.file, hh, hfnil, List.drop_nil]
            exact ⟨rfl, by omega⟩
          · have hsize' : (w.n : Int) = size := by omega
            have hdrop : f.drop w.n = [] := by
              rw [List.drop_eq_nil_iff]
              rcases hf with rfl | hlt
              · exact Nat.zero_le _
              · omega
            have hfile : w.f = w.h := by rw [hw.file, hdrop, List.append_nil]
            right
            rw [hfile, hw.length]
            exact ⟨hh, hsize', hsum hsize'⟩
    · rw [hcopy] at h
      nomatch h

theorem copyOpened_eq_error {f f' : Bytes} {r : Reader} {out : Digest} {size : Int} {err : Err}
    (h : copyOpened sha f r out size = (f', some err)) : f' = [] := by
  unfold copyOpened at h
  split at h
  · nomatch h
  · split at h
    · exact (Prod.mk.inj h).1.symm
    · split at h
      · exact (Prod.mk.inj h).1.symm
      · split at h
        · exact (Prod.mk.inj h).1.symm
        · nomatch h

/-- What is in a file after a copy without an error. -/
theorem copyNamedFile_eq_ok {old : Option Bytes} {f' : Bytes} {r : Reader} {out : Digest} {size : Int}
    (h : copyNamedFile sha old r out size = (f', none)) :
    (old = some f' ∧ (f'.length : Int) = size) ∨ (f' = [] ∧ size ≤ 0) ∨
      (f' = r.reads.flatten ∧ (f'.length : Int) = size ∧ sha f' = out) := by
  cases old with
  | none => exact Or.inr (copyOpened_eq_ok h (Or.inl rfl))
  | some content =>
    rw [copyNamedFile] at h
    by_cases hsize : (content.length : Int) = size
    · rw [if_pos hsize] at h
      obtain ⟨rfl, _⟩ := Prod.mk.inj h
      exact Or.inl ⟨rfl, hsize⟩
    · rw [if_neg hsize] at h
      refine Or.inr (copyOpened_eq_ok h ?_)
      split
      · exact Or.inl rfl
      · right
        omega

/-- What is in a file after a copy with an error. -/
theorem copyNamedFile_eq_error {old : Option Bytes} {f' : Bytes} {r : Reader} {out : Digest} {size : Int} {err : Err}
    (h : copyNamedFile sha old r out size = (f', some err)) : f' = [] := by
  cases old with
  | none => exact copyOpened_eq_error h
  | some content =>
    rw [copyNamedFile] at h
    split at h
    · nomatch h
    · exact copyOpened_eq_error h

/-- A copy leaves a file that had its content before, an empty one, or one with the right digest. -/
theorem copyNamedFile_cases (sha : Bytes → Digest) (old : Option Bytes) (r : Reader) (out : Digest) (size : Int) :
    old = some (copyNamedFile sha old r out size).1 ∨ (copyNamedFile sha old r out size).1 = [] ∨
      sha (copyNamedFile sha old r out size).1 = out := by
  rcases h : copyNamedFile sha old r out size with ⟨f', _ | err⟩
  · rcases copyNamedFile_eq_ok h with ⟨hold, _⟩ | ⟨hnil, _⟩ | ⟨_, _, hsum⟩
    · exact Or.inl hold
    · exact Or.inr (Or.inl hnil)
    · exact Or.inr (Or.inr hsum)
  · exact Or.inr (Or.inl (copyNamedFile_eq_error h))

/-- Bytes that are copied with their own digest and size are copied. -/
theorem copyNamedFile_ofBytes (old : Option Bytes) (data : Bytes) :
    (copyNamedFile sha old (.ofBytes data) (sha data) data.length).2 = none := by
  have hopened : ∀ f : Bytes, (copyOpened sha f (.ofBytes data) (sha data) data.length).2 = none := by
    intro f
    unfold copyOpened
    by_cases hdata : data = []
    · subst hdata
      rfl
    · simp [Reader.ofBytes, copyReads, hdata, CheckWriter.write]
  cases old with
  | none => exact hopened []
  | some content =>
    rw [copyNamedFile]
    split
    · rfl
    · exact hopened _

/-- A file that is read is read whole. -/
theorem flatten_chunks (k : Nat) {fuel : Nat} {s : Bytes} (h : s.length ≤ fuel) : (chunks k fuel s).flatten = s := by
  induction fuel generalizing s with
  | zero =>
    rw [List.length_eq_zero_iff.1 (Nat.le_zero.1 h)]
    rfl
  | succ fuel ih =>
    cases s with
    | nil => rfl
    | cons b s =>
      rw [chunks, List.flatten_cons, ih (by simp only [List.length_drop, List.length_cons] at h ⊢; omega),
        List.take_append_drop]

theorem flatten_ofFile (content : Bytes) : (Reader.ofFile content).reads.flatten = content :=
  flatten_chunks 32767 (Nat.le_refl _)

end Ollama.Blob
