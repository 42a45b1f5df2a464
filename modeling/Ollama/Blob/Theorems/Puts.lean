import Ollama.Blob.Puts
import Ollama.Blob.Theorems.Link

/-!
# Concurrent puts

Nothing keeps one `Put` from writing to the file of another, or from truncating it. The file is safe as long as the
calls that write at the same time deliver the same content: then each of them only ever writes what belongs where it
writes. A call that will fail is safe only as long as no other call writes or checks the size of the file before it
has failed (`put_file_intact`).
-/

namespace Ollama.Blob

open Lib Utf8

/-- The call is past its size check and has not returned. -/
def PutCall.Writing (call : PutCall) : Prop :=
  match call.state with
  | .stat => False
  | .returned _ => False
  | _ => True

/-- The reader of a call delivers a content, and the size is its length. -/
structure PutCall.Delivers (call : PutCall) (content : Bytes) : Prop where
  reads : call.file.reads.flatten = content
  fails : call.file.fails = false
  size : call.size = content.length

instance (call : PutCall) (content : Bytes) : Decidable (call.Delivers content) :=
  decidable_of_iff (call.file.reads.flatten = content ∧ call.file.fails = false ∧ call.size = content.length)
    ⟨fun h => ⟨h.1, h.2.1, h.2.2⟩, fun h => ⟨h.reads, h.fails, h.size⟩⟩

/-- Some call has returned no error. -/
def Stored (s : Puts) : Prop := ∃ call ∈ s.calls, call.state = .returned none

/-- All calls are given one size. A call checks the size of the file only while those that are writing deliver one
content with the digest; if it finds no file of its size then, it delivers that content too. -/
def Puts.Apart (sha : Bytes → Digest) (d : Digest) (size : Int) (s : Puts) : PutAct → Prop
  | .put _ size' => size' = size
  | .step i => ∀ call, s.calls[i]? = some call → call.state = .stat → (∃ other ∈ s.calls, other.Writing) →
      ∃ content, sha content = d ∧ (∀ other ∈ s.calls, other.Writing → other.Delivers content) ∧
        ((∀ f, s.file = some f → (f.length : Int) ≠ call.size) → call.Delivers content)

namespace PutsAux

variable {sha : Bytes → Digest} {d : Digest} {size : Int}

/-! ## The file and the calls -/

/-- Where a call stands that delivers the content of the file, along with others that do. -/
def With (content : Bytes) (file : Option Bytes) : PutState → Prop
  | .stat => True
  | .openFile trunc => trunc = false
  | .copy n h reads => h = content.take n ∧ n ≤ content.length ∧ h ++ reads.flatten = content ∧ ∃ f, file = some f ∧
      n ≤ f.length
  | .truncate _ => False
  | .close => file = some content
  | .returned none => file = some content
  | .returned (some _) => True

/-- Where a call stands that no other writes along with. -/
def Only (sha : Bytes → Digest) (d : Digest) (size : Int) (file : Option Bytes) (call : PutCall) : Prop :=
  match call.state with
  | .openFile trunc => trunc = false ∧ (file = none ∨ file = some [])
  | .copy n h reads => file = some h ∧ h.length = n ∧ h ++ reads.flatten = call.file.reads.flatten ∧ (n : Int) ≤ size ∧
      ((n : Int) = size → sha h = d)
  | .truncate _ => ∀ content, sha content = d → ¬call.Delivers content
  | .close => file = some call.file.reads.flatten ∧ call.file.fails = false ∧ sha call.file.reads.flatten = d ∧
      (call.file.reads.flatten.length : Int) = size
  | .stat => False
  | .returned _ => False

/-- Nothing is stored, and no call is writing. -/
structure Empty (s : Puts) : Prop where
  idle : ∀ call ∈ s.calls, ¬call.Writing
  pending : ¬Stored s
  file : s.file = none ∨ s.file = some []

/-- All calls that write deliver the content. -/
structure Group (sha : Bytes → Digest) (d : Digest) (size : Int) (content : Bytes) (s : Puts) : Prop where
  digest : sha content = d
  size : (content.length : Int) = size
  delivers : ∀ call ∈ s.calls, call.Writing → call.Delivers content
  at_ : ∀ call ∈ s.calls, With content s.file call.state
  file : ∀ f, s.file = some f → f <+: content
  busy : s.file = some content ∨ ∃ call ∈ s.calls, call.Writing

/-- Nothing is stored, and one call is writing. -/
structure Solo (sha : Bytes → Digest) (d : Digest) (size : Int) (s : Puts) (i : Nat) (call : PutCall) : Prop where
  at_ : s.calls[i]? = some call
  only : Only sha d size s.file call
  idle : ∀ j other, s.calls[j]? = some other → j ≠ i → ¬other.Writing
  pending : ¬Stored s

/-- What the states of the runs are like. -/
def Inv (sha : Bytes → Digest) (d : Digest) (size : Int) (s : Puts) : Prop :=
  (∀ call ∈ s.calls, call.size = size) ∧
    (Empty s ∨ (∃ content, Group sha d size content s) ∨ ∃ i call, Solo sha d size s i call)

/-- A write of the right bytes to a file that has some of the content leaves one that has some of the content. -/
theorem writeAt_isPrefix {content f p : Bytes} {n : Nat} (hf : f <+: content) (hn : n ≤ f.length)
    (hp : content.take n ++ p <+: content) :
    writeAt f n p <+: content ∧ (writeAt f n p).length = max f.length (n + p.length) := by
  obtain ⟨rest, rfl⟩ := hf
  have hzero : n - f.length = 0 := by omega
  have htake : (f ++ rest).take n = f.take n := List.take_append_of_le_length hn
  rw [htake] at hp
  have hlen : (f.take n ++ p).length = n + p.length := by
    rw [List.length_append, List.length_take]
    omega
  have heq : writeAt f n p = f.take n ++ p ++ f.drop (n + p.length) := by
    rw [writeAt, hzero, List.replicate_zero, List.append_nil]
  rw [heq]
  by_cases hle : n + p.length ≤ f.length
  · -- the write is inside what the file has
    have hin : f.take n ++ p = f.take (n + p.length) := by
      rw [← hlen]
      refine List.prefix_iff_eq_take.1 (List.prefix_of_prefix_length_le hp (List.prefix_append _ _) ?_)
      rw [hlen]
      exact hle
    rw [hin, List.take_append_drop]
    exact ⟨List.prefix_append _ _, by omega⟩
  · rw [List.drop_eq_nil_of_le (by omega), List.append_nil]
    exact ⟨hp, by rw [hlen]; omega⟩

/-! ## One step of a call -/

/-- What an act does. -/
theorem act_cases {s s' : Puts} {a : PutAct} (h : s.act sha d a = some s') :
    (∃ r size, a = .put r size ∧ s' = ⟨s.file, s.calls ++ [⟨r, size, .stat⟩]⟩) ∨
    ∃ i call file state, a = .step i ∧ s.calls[i]? = some call ∧ call.next sha d s.file = some (file, state) ∧
      s' = ⟨file, s.calls.set i { call with state }⟩ := by
  cases a with
  | put r size => exact .inl ⟨r, size, rfl, (Option.some.inj h).symm⟩
  | step i =>
    simp only [Puts.act, Option.bind_eq_some_iff, Option.map_eq_some_iff] at h
    obtain ⟨call, hi, ⟨file, state⟩, hnext, rfl⟩ := h
    exact .inr ⟨i, call, file, state, rfl, hi, hnext, rfl⟩

/-- A call that is past its size check, in a group. -/
theorem next_group {content : Bytes} (hdigest : sha content = d) {file file' : Option Bytes}
    (hfile : ∀ f, file = some f → f <+: content) {call : PutCall} (hwith : With content file call.state)
    (hwriting : call.Writing) (hdelivers : call.Delivers content) {state : PutState}
    (hstep : call.next sha d file = some (file', state)) :
    With content file' state ∧ (∀ f, file' = some f → f <+: content) ∧
      (∀ st, With content file st → With content file' st) ∧
      (file' = some content ∨ PutCall.Writing { call with state }) := by
  obtain ⟨r, size, st⟩ := call
  have hsize := hdelivers.size
  dsimp only at hwith hsize
  cases st with
  | stat => exact hwriting.elim
  | returned _ => exact hwriting.elim
  | truncate _ => exact hwith.elim
  | openFile trunc =>
    obtain rfl : trunc = false := hwith
    simp only [PutCall.next, Bool.false_eq_true, if_false, Option.some.injEq, Prod.mk.injEq] at hstep
    obtain ⟨rfl, rfl⟩ := hstep
    have hpre : file.getD [] <+: content := by
      cases file with
      | none => exact List.nil_prefix
      | some f => exact hfile f rfl
    have hkeep : ∀ st, With content file st → With content (some (file.getD [])) st := by
      intro st hst
      cases file with
      | some f => exact hst
      | none =>
        cases st with
        | copy n h reads => exact absurd hst.2.2.2 (by simp)
        | close => cases hst
        | returned err =>
          cases err with
          | none => cases hst
          | some err => trivial
        | _ => exact hst
    refine ⟨?_, fun f hf => Option.some.inj hf ▸ hpre, hkeep, ?_⟩
    · split
      · -- there is only one content without bytes
        rename_i hzero
        have hnil : content = [] := List.eq_nil_of_length_eq_zero (by omega)
        rw [hnil] at hpre ⊢
        exact congrArg some (List.prefix_nil.1 hpre)
      · exact ⟨rfl, Nat.zero_le _, hdelivers.reads, _, rfl, Nat.zero_le _⟩
    · by_cases hzero : size = 0
      · left
        have hnil : content = [] := List.eq_nil_of_length_eq_zero (by omega)
        rw [hnil] at hpre ⊢
        exact congrArg some (List.prefix_nil.1 hpre)
      · right
        rw [if_neg hzero]
        trivial
  | copy n h reads =>
    obtain ⟨hh, hn, hflat, f, rfl, hnf⟩ := hwith
    have hf := hfile f rfl
    have hlen : h.length = n := by
      rw [hh, List.length_take]
      omega
    cases reads with
    | nil =>
      rw [List.flatten_nil, List.append_nil] at hflat
      have hfull : f = content := hf.eq_of_length_le (by rw [← hflat, hlen]; exact hnf)
      have hcopied : PutCall.copied ⟨r, size, .copy n h []⟩ n = .close := by
        have hfails : r.fails = false := hdelivers.fails
        have hge : ¬(n : Int) < size := by
          rw [hsize, ← hflat, hlen]
          exact lt_irrefl _
        rw [PutCall.copied, if_neg (by rw [hfails]; exact Bool.false_ne_true), if_neg hge]
      simp only [PutCall.next, hcopied, Option.some.injEq, Prod.mk.injEq] at hstep
      obtain ⟨rfl, rfl⟩ := hstep
      exact ⟨congrArg some hfull, hfile, fun _ hst => hst, .inl (congrArg some hfull)⟩
    | cons p reads =>
      rw [List.flatten_cons] at hflat
      simp only [PutCall.next] at hstep
      split at hstep
      · rename_i hp
        obtain ⟨rfl, rfl⟩ := Prod.mk.inj (Option.some.inj hstep)
        rw [hp, List.nil_append] at hflat
        exact ⟨⟨hh, hn, hflat, f, rfl, hnf⟩, hfile, fun _ hst => hst, .inr trivial⟩
      · have hpre : h ++ p <+: content := ⟨reads.flatten, by rw [← hflat, List.append_assoc]⟩
        have hnext : n + p.length ≤ content.length := by
          have := hpre.length_le
          rw [List.length_append] at this
          omega
        have hwrite : CheckWriter.write sha d size ⟨n, h, f⟩ p = (⟨n + p.length, h ++ p, writeAt f n p⟩, none) := by
          have hsum : ¬((n : Int) + p.length = size ∧ sha (h ++ p) ≠ d) := by
            rintro ⟨hlast, hne⟩
            have hall : h ++ p = content := hpre.eq_of_length_le (by rw [List.length_append]; omega)
            exact hne (hall ▸ hdigest)
          have hle : ¬(n : Int) + p.length > size := by omega
          simp only [CheckWriter.write, if_neg hsum, if_neg hle]
        rw [Option.getD_some, hwrite] at hstep
        obtain ⟨rfl, rfl⟩ := Prod.mk.inj (Option.some.inj hstep)
        obtain ⟨hafter, hmax⟩ := writeAt_isPrefix hf hnf (hh ▸ hpre)
        have hgrown : f.length ≤ (writeAt f n p).length := by
          rw [hmax]
          exact le_max_left ..
        have hcontent : some f = some content → some (writeAt f n p) = some content := by
          intro heq
          refine congrArg some (hafter.eq_of_length_le ?_)
          rw [← Option.some.inj heq]
          exact hgrown
        refine ⟨⟨?_, hnext, ?_, _, rfl, ?_⟩, fun g hg => Option.some.inj hg ▸ hafter, fun st hst => ?_, .inr trivial⟩
        · have hle : (h ++ p).length = n + p.length := by rw [List.length_append, hlen]
          rw [← hle]
          exact List.prefix_iff_eq_take.1 hpre
        · rw [List.append_assoc]
          exact hflat
        · show n + p.length ≤ (writeAt f n p).length
          rw [hmax]
          exact le_max_right ..
        · cases st with
          | copy n' h' reads' =>
            obtain ⟨h1, h2, h3, g, hg, h4⟩ := hst
            obtain rfl := Option.some.inj hg
            exact ⟨h1, h2, h3, _, rfl, le_trans h4 hgrown⟩
          | close => exact hcontent hst
          | returned err =>
            cases err with
            | none => exact hcontent hst
            | some err => trivial
          | _ => exact hst
  | close =>
    simp only [PutCall.next, Option.some.injEq, Prod.mk.injEq] at hstep
    obtain ⟨rfl, rfl⟩ := hstep
    exact ⟨hwith, hfile, fun _ hst => hst, .inl hwith⟩

theorem not_writing {call : PutCall} (h : ¬call.Writing) : call.state = .stat ∨ ∃ err, call.state = .returned err := by
  obtain ⟨r, size, st⟩ := call
  cases st with
  | stat => exact .inl rfl
  | returned err => exact .inr ⟨err, rfl⟩
  | _ => exact absurd trivial h

/-- A call that is not writing can only make its size check. -/
theorem stat_of_next {file file' : Option Bytes} {call : PutCall} (h : ¬call.Writing) {state : PutState}
    (hstep : call.next sha d file = some (file', state)) : call.state = .stat := by
  rcases not_writing h with hst | ⟨err, hst⟩
  · exact hst
  · unfold PutCall.next at hstep
    rw [hst] at hstep
    nomatch hstep

/-- The size check of a call. -/
theorem next_stat {file file' : Option Bytes} {call : PutCall} (hstat : call.state = .stat) {state : PutState}
    (hstep : call.next sha d file = some (file', state)) :
    file' = file ∧ ((∃ f, file = some f ∧ (f.length : Int) = call.size ∧ state = .returned none) ∨
      (∀ f, file = some f → (f.length : Int) ≠ call.size) ∧
        state = .openFile (decide (∃ f, file = some f ∧ (f.length : Int) > call.size))) := by
  obtain ⟨r, size, _⟩ := call
  subst hstat
  cases file with
  | none =>
    obtain ⟨rfl, rfl⟩ := Prod.mk.inj (Option.some.inj hstep)
    exact ⟨rfl, .inr ⟨nofun, by simp⟩⟩
  | some f =>
    simp only [PutCall.next] at hstep
    split at hstep
    · rename_i hlen
      obtain ⟨rfl, rfl⟩ := Prod.mk.inj (Option.some.inj hstep)
      exact ⟨rfl, .inl ⟨f, rfl, hlen, rfl⟩⟩
    · rename_i hlen
      obtain ⟨rfl, rfl⟩ := Prod.mk.inj (Option.some.inj hstep)
      refine ⟨rfl, .inr ⟨fun g hg => Option.some.inj hg ▸ hlen, ?_⟩⟩
      simp

/-- What a write comes to. -/
theorem write_cases (sha : Bytes → Digest) (d : Digest) (size : Int) (w : CheckWriter) (p : Bytes) :
    ((w.n : Int) + p.length = size ∧ sha (w.h ++ p) ≠ d ∧
      w.write sha d size p = ({ w with h := w.h ++ p }, some .contentChanged)) ∨
    ((w.n : Int) + p.length > size ∧
      w.write sha d size p = ({ w with h := w.h ++ p }, some (.contentExceeds (w.n + p.length) size))) ∨
    ((w.n : Int) + p.length ≤ size ∧ ((w.n : Int) + p.length = size → sha (w.h ++ p) = d) ∧
      w.write sha d size p = (⟨w.n + p.length, w.h ++ p, writeAt w.f w.n p⟩, none)) := by
  unfold CheckWriter.write
  dsimp only
  split
  · rename_i h
    exact .inl ⟨h.1, h.2, rfl⟩
  · rename_i hsum
    split
    · rename_i h
      exact .inr (.inl ⟨h, rfl⟩)
    · rename_i h
      exact .inr (.inr ⟨Int.not_lt.1 h, fun hlast => Decidable.not_not.1 (fun hne => hsum ⟨hlast, hne⟩), rfl⟩)

/-- A call that writes alone. -/
theorem next_only (hsized : 0 < size ∨ size = 0 ∧ sha [] = d) {file file' : Option Bytes} {call : PutCall}
    (hsize : call.size = size) (honly : Only sha d size file call) {state : PutState}
    (hstep : call.next sha d file = some (file', state)) :
    Only sha d size file' { call with state } ∨ (file' = some [] ∧ ∃ err, state = .returned (some err)) ∨
      ∃ content, file' = some content ∧ sha content = d ∧ (content.length : Int) = size ∧ state = .returned none := by
  obtain ⟨r, size', st⟩ := call
  obtain rfl : size = size' := hsize.symm
  cases st with
  | stat => exact honly.elim
  | returned _ => exact honly.elim
  | openFile trunc =>
    obtain ⟨rfl, hfile⟩ := honly
    have hempty : file.getD [] = [] := by rcases hfile with rfl | rfl <;> rfl
    simp only [PutCall.next, Bool.false_eq_true, if_false, hempty, Option.some.injEq, Prod.mk.injEq] at hstep
    obtain ⟨rfl, rfl⟩ := hstep
    by_cases hzero : size = 0
    · rw [if_pos hzero]
      rcases hsized with hpos | ⟨_, hnil⟩
      · omega
      · exact .inr (.inr ⟨[], rfl, hnil, hzero.symm, rfl⟩)
    · rw [if_neg hzero]
      refine .inl ⟨rfl, rfl, rfl, ?_, fun h => ?_⟩
      · show (0 : Int) ≤ size
        rcases hsized with hpos | ⟨hzero', _⟩ <;> omega
      · exact absurd h.symm hzero
  | copy n h reads =>
    obtain ⟨rfl, hlen, hflat, hle, hsum⟩ := honly
    cases reads with
    | nil =>
      simp only [PutCall.next, PutCall.copied, Option.some.injEq, Prod.mk.injEq] at hstep
      obtain ⟨rfl, rfl⟩ := hstep
      rw [List.flatten_nil, List.append_nil] at hflat
      left
      split
      · rename_i hfails
        exact fun content _ hdel => absurd (hdel.fails.symm.trans hfails) Bool.false_ne_true
      · rename_i hfails
        split
        · rename_i hshort
          intro content _ hdel
          have h1 : h = content := hflat.trans hdel.reads
          have h2 : size = content.length := hdel.size
          rw [← h1, hlen] at h2
          omega
        · rename_i hshort
          have hn : (n : Int) = size := by omega
          refine ⟨congrArg some hflat, ?_, ?_, ?_⟩
          · exact Bool.eq_false_iff.2 hfails
          · exact hflat ▸ hsum hn
          · show (r.reads.flatten.length : Int) = size
            rw [← hflat, hlen, hn]
    | cons p reads =>
      rw [List.flatten_cons] at hflat
      simp only [PutCall.next] at hstep
      split at hstep
      · rename_i hp
        obtain ⟨rfl, rfl⟩ := Prod.mk.inj (Option.some.inj hstep)
        rw [hp, List.nil_append] at hflat
        exact .inl ⟨rfl, hlen, hflat, hle, hsum⟩
      · left
        have hall : ∀ {content}, PutCall.Delivers ⟨r, size, .copy n h (p :: reads)⟩ content →
            content = h ++ p ++ reads.flatten ∧ size = n + p.length + reads.flatten.length := by
          intro content hdel
          have h1 : content = h ++ p ++ reads.flatten := by
            rw [List.append_assoc, hflat]
            exact hdel.reads.symm
          refine ⟨h1, ?_⟩
          have h2 : size = content.length := hdel.size
          rw [h2, h1, List.length_append, List.length_append, hlen]
          push_cast
          rfl
        rw [Option.getD_some] at hstep
        rcases write_cases sha d size ⟨n, h, h⟩ p with ⟨hlast, hne, hwrite⟩ | ⟨hexceeds, hwrite⟩ |
          ⟨hnext, hlast, hwrite⟩
        · rw [hwrite] at hstep
          obtain ⟨rfl, rfl⟩ := Prod.mk.inj (Option.some.inj hstep)
          intro content hdigest hdel
          obtain ⟨hcontent, htotal⟩ := hall ⟨hdel.reads, hdel.fails, hdel.size⟩
          dsimp only at hlast hne
          have hrest : reads.flatten = [] := List.eq_nil_of_length_eq_zero (by omega)
          rw [hrest, List.append_nil] at hcontent
          exact hne (hcontent ▸ hdigest)
        · rw [hwrite] at hstep
          obtain ⟨rfl, rfl⟩ := Prod.mk.inj (Option.some.inj hstep)
          intro content _ hdel
          obtain ⟨_, htotal⟩ := hall ⟨hdel.reads, hdel.fails, hdel.size⟩
          dsimp only at hexceeds
          omega
        · rw [hwrite] at hstep
          obtain ⟨rfl, rfl⟩ := Prod.mk.inj (Option.some.inj hstep)
          have hfile : writeAt h n p = h ++ p := by simpa using writeAt_hashed (f := []) (p := p) hlen
          refine ⟨congrArg some hfile, ?_, ?_, ?_, fun hn => hlast ?_⟩
          · rw [List.length_append, hlen]
          · rw [List.append_assoc]
            exact hflat
          · push_cast
            exact hnext
          · push_cast at hn
            exact hn
  | truncate err =>
    obtain ⟨rfl, rfl⟩ := Prod.mk.inj (Option.some.inj hstep)
    exact .inr (.inl ⟨rfl, err, rfl⟩)
  | close =>
    obtain ⟨rfl, rfl⟩ := Prod.mk.inj (Option.some.inj hstep)
    obtain ⟨hfile, _, hdigest, hlen⟩ := honly
    exact .inr (.inr ⟨_, hfile, hdigest, hlen, rfl⟩)

/-! ## One step of the calls -/

/-- A call among those after a step is the one that stepped, or was there before. -/
theorem mem_after {s : Puts} {i : Nat} {call call' : PutCall} (h : call' ∈ s.calls.set i call) :
    call' ∈ s.calls ∨ call' = call := List.mem_or_eq_of_mem_set h

theorem mem_stepped {s : Puts} {i : Nat} {call₀ call : PutCall} (hi : s.calls[i]? = some call₀) :
    call ∈ s.calls.set i call := List.mem_set (List.getElem?_eq_some_iff.1 hi).1 call

/-- A call begins. -/
theorem Inv.spawn {s : Puts} (h : Inv sha d size s) {call : PutCall} (hstat : call.state = .stat)
    (hsize : call.size = size) : Inv sha d size ⟨s.file, s.calls ++ [call]⟩ := by
  have hidle : ¬call.Writing := by
    unfold PutCall.Writing
    rw [hstat]
    exact id
  have hpending : ¬Stored s → ¬Stored ⟨s.file, s.calls ++ [call]⟩ := by
    rintro hno ⟨other, hother, hret⟩
    rcases List.mem_append.1 hother with hother | hother
    · exact hno ⟨other, hother, hret⟩
    · rw [List.mem_singleton.1 hother, hstat] at hret
      nomatch hret
  obtain ⟨hsizes, h⟩ := h
  refine ⟨?_, ?_⟩
  · intro other hother
    rcases List.mem_append.1 hother with hother | hother
    · exact hsizes other hother
    · rw [List.mem_singleton.1 hother, hsize]
  · rcases h with h | ⟨content, h⟩ | ⟨i, solo, h⟩
    · refine .inl ⟨?_, hpending h.pending, h.file⟩
      intro other hother
      rcases List.mem_append.1 hother with hother | hother
      · exact h.idle other hother
      · rw [List.mem_singleton.1 hother]
        exact hidle
    · refine .inr (.inl ⟨content, h.digest, h.size, ?_, ?_, h.file, ?_⟩)
      · intro other hother hwriting
        rcases List.mem_append.1 hother with hother | hother
        · exact h.delivers other hother hwriting
        · rw [List.mem_singleton.1 hother] at hwriting
          exact absurd hwriting hidle
      · intro other hother
        rcases List.mem_append.1 hother with hother | hother
        · exact h.at_ other hother
        · rw [List.mem_singleton.1 hother, hstat]
          trivial
      · rcases h.busy with hfile | ⟨other, hother, hwriting⟩
        · exact .inl hfile
        · exact .inr ⟨other, List.mem_append_left _ hother, hwriting⟩
    · refine .inr (.inr ⟨i, solo, ?_, h.only, ?_, hpending h.pending⟩)
      · exact List.getElem?_append_left (List.getElem?_eq_some_iff.1 h.at_).1 ▸ h.at_
      · intro j other hj hne
        rcases lt_or_ge j s.calls.length with hlt | hge
        · rw [List.getElem?_append_left hlt] at hj
          exact h.idle j other hj hne
        · rw [List.getElem?_append_right hge] at hj
          rw [List.mem_singleton.1 (List.mem_of_getElem? hj)]
          exact hidle

/-- A call of a group steps. -/
theorem Group.step {content : Bytes} {s : Puts} (h : Group sha d size content s) {i : Nat} {call : PutCall}
    (hi : s.calls[i]? = some call) (hsize : call.size = size) {file : Option Bytes} {state : PutState}
    (hstep : call.next sha d s.file = some (file, state))
    (hjoin : call.state = .stat → PutCall.Writing { call with state } → (∃ other ∈ s.calls, other.Writing) →
      call.Delivers content) :
    Group sha d size content ⟨file, s.calls.set i { call with state }⟩ := by
  have hmem := List.mem_of_getElem? hi
  -- what is left to show about the call that steps and the file
  have hgroup : (PutCall.Writing { call with state } → call.Delivers content) → With content file state →
      (∀ f, file = some f → f <+: content) → (∀ st, With content s.file st → With content file st) →
      (file = some content ∨ PutCall.Writing { call with state }) →
      Group sha d size content ⟨file, s.calls.set i { call with state }⟩ := by
    intro hdelivers hwith hfile hkeep hbusy
    refine ⟨h.digest, h.size, ?_, ?_, hfile, ?_⟩
    · intro other hother hwriting
      rcases mem_after hother with hold | rfl
      · exact h.delivers other hold hwriting
      · obtain ⟨h1, h2, h3⟩ := hdelivers hwriting
        exact ⟨h1, h2, h3⟩
    · intro other hother
      rcases mem_after hother with hold | rfl
      · exact hkeep _ (h.at_ other hold)
      · exact hwith
    · rcases hbusy with hfull | hwriting
      · exact .inl hfull
      · exact .inr ⟨_, mem_stepped hi, hwriting⟩
  by_cases hwriting : call.Writing
  · obtain ⟨hwith, hfile, hkeep, hbusy⟩ :=
      next_group h.digest h.file (h.at_ call hmem) hwriting (h.delivers call hmem hwriting) hstep
    exact hgroup (fun _ => h.delivers call hmem hwriting) hwith hfile hkeep hbusy
  · have hstat := stat_of_next hwriting hstep
    obtain ⟨rfl, ⟨f, hf, hlen, rfl⟩ | ⟨hother, rfl⟩⟩ := next_stat hstat hstep
    · have hfull : f = content := (h.file f hf).eq_of_length_le (by have := h.size; omega)
      have hfile : s.file = some content := hf.trans (congrArg some hfull)
      exact hgroup nofun hfile h.file (fun _ hst => hst) (.inl hfile)
    · have hbusy : ∃ other ∈ s.calls, other.Writing := by
        rcases h.busy with hfile | hbusy
        · exact absurd (h.size.trans hsize.symm) (hother content hfile)
        · exact hbusy
      have hshort : ¬∃ f, s.file = some f ∧ (f.length : Int) > call.size := by
        rintro ⟨f, hf, hlong⟩
        have := (h.file f hf).length_le
        have := h.size
        omega
      refine hgroup (fun hw => hjoin hstat hw hbusy) ?_ h.file (fun _ hst => hst) (.inr trivial)
      exact decide_eq_false hshort

theorem Solo.writing {s : Puts} {i : Nat} {call : PutCall} (h : Solo sha d size s i call) : call.Writing := by
  by_contra hno
  have honly := h.only
  unfold Only at honly
  rcases not_writing hno with hst | ⟨err, hst⟩ <;> rw [hst] at honly <;> exact honly

/-- A call that writes alone, and delivers a content with the digest, is a group. -/
theorem Solo.group {s : Puts} {i : Nat} {call : PutCall} (h : Solo sha d size s i call)
    (hsize : call.size = size) {content : Bytes} (hdigest : sha content = d) (hdelivers : call.Delivers content) :
    Group sha d size content s := by
  have hmem := List.mem_of_getElem? h.at_
  have hlen : (content.length : Int) = size := hdelivers.size.symm.trans hsize
  have hwriting := h.writing
  have hother : ∀ other ∈ s.calls, other = call ∨ ¬other.Writing := by
    intro other hother
    obtain ⟨j, hj⟩ := List.mem_iff_getElem?.1 hother
    by_cases hne : j = i
    · subst hne
      exact .inl (Option.some.inj (hj.symm.trans h.at_))
    · exact .inr (h.idle j other hj hne)
  have hcall : With content s.file call.state ∧ ∀ f, s.file = some f → f <+: content := by
    have honly := h.only
    unfold Only at honly
    split at honly
    · obtain ⟨rfl, hfile⟩ := honly
      rename_i hst
      rw [hst]
      refine ⟨rfl, fun f hf => ?_⟩
      rcases hfile with hfile | hfile <;> rw [hfile] at hf
      · nomatch hf
      · rw [← Option.some.inj hf]
        exact List.nil_prefix
    · rename_i n hashed reads hst
      obtain ⟨hfile, hn, hflat, _⟩ := honly
      have hflat' : hashed ++ reads.flatten = content := hflat.trans hdelivers.reads
      have hpre : hashed <+: content := ⟨_, hflat'⟩
      rw [hst]
      refine ⟨⟨?_, ?_, hflat', hashed, hfile, by omega⟩, fun f hf => ?_⟩
      · rw [← hn]
        exact List.prefix_iff_eq_take.1 hpre
      · rw [← hn]
        exact hpre.length_le
      · rw [← Option.some.inj (hfile.symm.trans hf)]
        exact hpre
    · exact absurd hdelivers (honly content hdigest)
    · rename_i hst
      rw [hdelivers.reads] at honly
      rw [hst]
      refine ⟨honly.1, fun f hf => ?_⟩
      rw [← Option.some.inj (honly.1.symm.trans hf)]
    · exact honly.elim
    · exact honly.elim
  refine ⟨hdigest, hlen, ?_, ?_, hcall.2, .inr ⟨call, hmem, hwriting⟩⟩
  · intro other hother' hw
    rcases hother other hother' with rfl | hidle
    · exact hdelivers
    · exact absurd hw hidle
  · intro other hother'
    rcases hother other hother' with rfl | hidle
    · exact hcall.1
    · rcases not_writing hidle with hst | ⟨err, hst⟩
      · rw [hst]
        trivial
      · cases err with
        | none => exact absurd ⟨other, hother', hst⟩ h.pending
        | some err =>
          rw [hst]
          trivial

/-- The call that writes alone steps. -/
theorem Solo.step (hsized : 0 < size ∨ size = 0 ∧ sha [] = d) {s : Puts} {i : Nat} {call : PutCall}
    (h : Solo sha d size s i call) (hsize : call.size = size) {file : Option Bytes} {state : PutState}
    (hstep : call.next sha d s.file = some (file, state)) :
    Empty ⟨file, s.calls.set i { call with state }⟩ ∨
    (∃ content, Group sha d size content ⟨file, s.calls.set i { call with state }⟩) ∨
    Solo sha d size ⟨file, s.calls.set i { call with state }⟩ i { call with state } := by
  have hlt := (List.getElem?_eq_some_iff.1 h.at_).1
  have hself : (s.calls.set i { call with state })[i]? = some { call with state } := List.getElem?_set_self hlt
  have hothers : ∀ j other, (s.calls.set i { call with state })[j]? = some other → j ≠ i →
    s.calls[j]? = some other := by
    intro j other hj hne
    rwa [List.getElem?_set_ne (Ne.symm hne)] at hj
  have hidle : ∀ j other, (s.calls.set i { call with state })[j]? = some other → j ≠ i → ¬other.Writing :=
    fun j other hj hne => h.idle j other (hothers j other hj hne) hne
  have hnil : state ≠ .returned none → ¬Stored ⟨file, s.calls.set i { call with state }⟩ := by
    rintro hne ⟨other, hother, hret⟩
    rcases mem_after hother with hold | rfl
    · exact h.pending ⟨other, hold, hret⟩
    · exact hne hret
  rcases next_only hsized hsize h.only hstep with honly | ⟨rfl, err, rfl⟩ | ⟨content, rfl, hdigest, hlen, rfl⟩
  · refine .inr (.inr ⟨hself, honly, hidle, hnil ?_⟩)
    rintro rfl
    exact honly.elim
  · refine .inl ⟨?_, hnil nofun, .inr rfl⟩
    intro other hother
    obtain ⟨j, hj⟩ := List.mem_iff_getElem?.1 hother
    by_cases hne : j = i
    · subst hne
      rw [← Option.some.inj (hself.symm.trans hj)]
      exact id
    · exact hidle j other hj hne
  · refine .inr (.inl ⟨content, hdigest, hlen, ?_, ?_, fun f hf => ?_, .inl rfl⟩)
    · intro other hother hwriting
      obtain ⟨j, hj⟩ := List.mem_iff_getElem?.1 hother
      by_cases hne : j = i
      · subst hne
        rw [← Option.some.inj (hself.symm.trans hj)] at hwriting
        exact hwriting.elim
      · exact absurd hwriting (hidle j other hj hne)
    · intro other hother
      obtain ⟨j, hj⟩ := List.mem_iff_getElem?.1 hother
      by_cases hne : j = i
      · subst hne
        rw [← Option.some.inj (hself.symm.trans hj)]
        rfl
      · rcases not_writing (hidle j other hj hne) with hst | ⟨err, hst⟩
        · rw [hst]
          trivial
        · rw [hst]
          cases err with
          | none => rfl
          | some err => trivial
    · rw [← Option.some.inj hf]

/-- A call makes its size check while nothing is stored and no call writes. -/
theorem Empty.step (hsized : 0 < size ∨ size = 0 ∧ sha [] = d) {s : Puts} (h : Empty s) {i : Nat}
    {call : PutCall} (hi : s.calls[i]? = some call) (hsize : call.size = size) {file : Option Bytes} {state : PutState}
    (hstep : call.next sha d s.file = some (file, state)) :
    (∃ content, Group sha d size content ⟨file, s.calls.set i { call with state }⟩) ∨
    Solo sha d size ⟨file, s.calls.set i { call with state }⟩ i { call with state } := by
  have hstat := stat_of_next (h.idle call (List.mem_of_getElem? hi)) hstep
  have hlt := (List.getElem?_eq_some_iff.1 hi).1
  have hself : (s.calls.set i { call with state })[i]? = some { call with state } := List.getElem?_set_self hlt
  have hshort : ∀ f, s.file = some f → f = [] := by
    intro f hf
    rcases h.file with hfile | hfile <;> rw [hfile] at hf
    · nomatch hf
    · exact (Option.some.inj hf).symm
  obtain ⟨rfl, ⟨f, hf, hlen, rfl⟩ | ⟨hother, rfl⟩⟩ := next_stat hstat hstep
  · -- an empty file is all there is to store
    obtain rfl := hshort f hf
    have hzero : size = 0 := by
      rw [← hsize, ← hlen]
      rfl
    have hdigest : sha [] = d := by
      rcases hsized with hpos | ⟨_, hdigest⟩
      · omega
      · exact hdigest
    refine .inl ⟨[], hdigest, hzero.symm, ?_, ?_, fun g hg => ?_, .inl hf⟩
    · intro other hother hwriting
      rcases mem_after hother with hold | rfl
      · exact absurd hwriting (h.idle other hold)
      · exact hwriting.elim
    · intro other hother
      rcases mem_after hother with hold | rfl
      · rcases not_writing (h.idle other hold) with hst | ⟨err, hst⟩
        · rw [hst]
          trivial
        · cases err with
          | none => exact absurd ⟨other, hold, hst⟩ h.pending
          | some err =>
            rw [hst]
            trivial
      · exact hf
    · rw [hshort g hg]
  · have htrunc : decide (∃ f, s.file = some f ∧ (f.length : Int) > call.size) = false := by
      rw [decide_eq_false_iff_not]
      rintro ⟨f, hf, hlong⟩
      rw [hshort f hf, List.length_nil, hsize] at hlong
      rcases hsized with hpos | ⟨hzero, _⟩ <;> omega
    refine .inr ⟨hself, ⟨htrunc, h.file⟩, ?_, ?_⟩
    · intro j other hj hne
      rw [List.getElem?_set_ne (Ne.symm hne)] at hj
      exact h.idle other (List.mem_of_getElem? hj)
    · rintro ⟨other, hother, hret⟩
      rcases mem_after hother with hold | rfl
      · exact h.pending ⟨other, hold, hret⟩
      · nomatch hret

/-- Every act that the guard lets keeps the invariant. -/
theorem Inv.act (hsized : 0 < size ∨ size = 0 ∧ sha [] = d) {s s' : Puts} (h : Inv sha d size s) {a : PutAct}
    (hapart : s.Apart sha d size a) (hact : s.act sha d a = some s') : Inv sha d size s' := by
  rcases act_cases hact with ⟨r, size', rfl, rfl⟩ | ⟨i, call, file, state, rfl, hi, hnext, rfl⟩
  · exact h.spawn rfl hapart
  · obtain ⟨hsizes, h⟩ := h
    have hsize := hsizes call (List.mem_of_getElem? hi)
    refine ⟨?_, ?_⟩
    · intro other hother
      rcases mem_after hother with hold | rfl
      · exact hsizes other hold
      · exact hsize
    have hcheck : call.state = .stat → (∃ other ∈ s.calls, other.Writing) → ∃ content, sha content = d ∧
        (∀ other ∈ s.calls, other.Writing → other.Delivers content) ∧
        (PutCall.Writing { call with state } → call.Delivers content) := by
      intro hstat hbusy
      obtain ⟨content, hdigest, hdelivers, hjoin⟩ := hapart call hi hstat hbusy
      refine ⟨content, hdigest, hdelivers, fun hwriting => hjoin ?_⟩
      rcases (next_stat hstat hnext).2 with ⟨_, _, _, rfl⟩ | ⟨hother, _⟩
      · exact hwriting.elim
      · exact hother
    rcases h with h | ⟨content, h⟩ | ⟨k, solo, h⟩
    · rcases h.step hsized hi hsize hnext with hgroup | hsolo
      · exact .inr (.inl hgroup)
      · exact .inr (.inr ⟨i, _, hsolo⟩)
    · refine .inr (.inl ⟨content, h.step hi hsize hnext (fun hstat hwriting hbusy => ?_)⟩)
      obtain ⟨content', _, hdelivers, hjoin⟩ := hcheck hstat hbusy
      obtain ⟨other, hother, hw⟩ := hbusy
      obtain rfl : content = content' :=
        (h.delivers other hother hw).reads.symm.trans (hdelivers other hother hw).reads
      exact hjoin hwriting
    · by_cases hk : i = k
      · subst hk
        obtain rfl : call = solo := Option.some.inj (hi.symm.trans h.at_)
        rcases h.step hsized hsize hnext with hempty | hgroup | hsolo
        · exact .inl hempty
        · exact .inr (.inl hgroup)
        · exact .inr (.inr ⟨i, _, hsolo⟩)
      · have hstat := stat_of_next (h.idle i call hi hk) hnext
        have hsoloWriting := h.writing
        have hsoloMem := List.mem_of_getElem? h.at_
        obtain ⟨content, hdigest, hdelivers, hjoin⟩ := hcheck hstat ⟨solo, hsoloMem, hsoloWriting⟩
        have hgroup := h.group (hsizes solo hsoloMem) hdigest (hdelivers solo hsoloMem hsoloWriting)
        exact .inr (.inl ⟨content, hgroup.step hi hsize hnext (fun _ hwriting _ => hjoin hwriting)⟩)

end PutsAux

open PutsAux

/-- In every run of any number of calls of `Put` for one digest that are given one size, and that check the size of
the file only while the calls that are writing deliver the content that they deliver as well: once a call has returned
no error, the file has the digest. -/
theorem put_file_intact {sha : Bytes → Digest} {d : Digest} {size : Int} (hsized : 0 < size ∨ size = 0 ∧ sha [] = d)
    {s : Puts} (h : ((puts sha d).guarded (Puts.Apart sha d size)).Reachable s) (hstored : Stored s) :
    ∃ content, s.file = some content ∧ sha content = d := by
  have hinv : Inv sha d size s := by
    apply h.invariant
    · rintro s rfl
      refine ⟨by simp, .inl ⟨by simp, ?_, .inl rfl⟩⟩
      rintro ⟨_, hcall, _⟩
      simp at hcall
    · rintro s s' hs ⟨a, hapart, hact⟩
      exact hs.act hsized hapart hact
  obtain ⟨call, hmem, hret⟩ := hstored
  rcases hinv.2 with h | ⟨content, h⟩ | ⟨i, solo, h⟩
  · exact absurd ⟨call, hmem, hret⟩ h.pending
  · have hwith := h.at_ call hmem
    rw [hret] at hwith
    exact ⟨content, hwith, h.digest⟩
  · exact absurd ⟨call, hmem, hret⟩ h.pending

/-! ## Two calls -/

theorem stored_of_states {s : Puts} {states : List PutState}
    (h : s.calls.map PutCall.state = .returned none :: states) : Stored s := by
  have hmem : PutState.returned none ∈ s.calls.map PutCall.state := by
    rw [h]
    exact List.mem_cons_self ..
  obtain ⟨call, hcall, hret⟩ := List.mem_map.1 hmem
  exact ⟨call, hcall, hret⟩

/-- Two calls check the size before either has written, the first stores its byte and returns, and the second begins
to write. -/
def overlap (b : UInt8) : List PutAct :=
  [.put (.ofBytes [0x31]) 1, .put (.ofBytes [b]) 1, .step 0, .step 1, .step 0, .step 1, .step 0, .step 0,
    .step 0, .step 1]

/-- All calls deliver the same byte. -/
def Puts.Same (s : Puts) (a : PutAct) : Prop :=
  (∀ call ∈ s.calls, call.Delivers [0x31]) ∧ ∀ r size, a = .put r size → size = 1

instance (s : Puts) (a : PutAct) : Decidable (s.Same a) :=
  match a with
  | .put _ size => decidable_of_iff ((∀ call ∈ s.calls, call.Delivers [0x31]) ∧ size = 1)
      ⟨fun h => ⟨h.1, fun _ _ heq => (PutAct.put.inj heq).2 ▸ h.2⟩, fun h => ⟨h.1, h.2 _ _ rfl⟩⟩
  | .step _ => decidable_of_iff (∀ call ∈ s.calls, call.Delivers [0x31]) ⟨fun h => ⟨h, nofun⟩, fun h => h.1⟩

theorem apart_of_same {s : Puts} {a : PutAct} (h : s.Same a) : s.Apart sha12 (sha12 [0x31]) 1 a := by
  cases a with
  | put r size => exact h.2 r size rfl
  | step i =>
    intro call hi _ _
    exact ⟨[0x31], rfl, fun other hother _ => h.1 other hother, fun _ => h.1 call (List.mem_of_getElem? hi)⟩

/-- Both calls deliver the same byte: it stays in the file while the second call writes it again. -/
theorem put_file_intact_twice :
    ∃ s, ((puts sha12 (sha12 [0x31])).guarded (Puts.Apart sha12 (sha12 [0x31]) 1)).Reachable s ∧
    s.calls.map PutCall.state = [.returned none, .copy 1 [0x31] []] ∧
    ∃ content, s.file = some content ∧ sha12 content = sha12 [0x31] := by
  have hrun : ((puts sha12 (sha12 [0x31])).runGuarded Puts.Same ⟨none, []⟩ (overlap 0x31)).map
    (fun s => s.calls.map PutCall.state) = some [.returned none, .copy 1 [0x31] []] := by decide +kernel
  rw [Option.map_eq_some_iff] at hrun
  obtain ⟨s, hs, hstates⟩ := hrun
  have hreach : ((puts sha12 (sha12 [0x31])).guarded (Puts.Apart sha12 (sha12 [0x31]) 1)).Reachable s :=
    Machine.Reachable.mono (fun _ _ => apart_of_same) (Machine.reachable_runGuarded (.init rfl) hs)
  exact ⟨s, hreach, hstates, put_file_intact (.inl (by decide)) hreach (stored_of_states hstates)⟩

/-- The second call delivers another byte and so truncates the file, after the first has returned no error. -/
theorem put_truncates_stored : ∃ s, (puts sha12 (sha12 [0x31])).system.Reachable s ∧ Stored s ∧
    ¬∃ content, s.file = some content ∧ sha12 content = sha12 [0x31] := by
  have hrun : ((puts sha12 (sha12 [0x31])).run ⟨none, []⟩ (overlap 0x32 ++ [.step 1])).map
      (fun s => (s.file, s.calls.map PutCall.state)) =
      some (some [], [.returned none, .returned (some .contentChanged)]) := by decide +kernel
  rw [Option.map_eq_some_iff] at hrun
  obtain ⟨s, hs, hend⟩ := hrun
  obtain ⟨hfile, hstates⟩ := Prod.mk.inj hend
  refine ⟨s, Machine.reachable_run (.init rfl) hs, stored_of_states hstates, ?_⟩
  rintro ⟨content, hcontent, hdigest⟩
  rw [hfile] at hcontent
  rw [← Option.some.inj hcontent] at hdigest
  exact absurd (sha12_one hdigest) nofun

end Ollama.Blob
