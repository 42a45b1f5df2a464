import Ollama.Ggml.Lemmas.Header

/-!
# The data of a file

Where `WriteGGUF` puts the bytes of each tensor, and where the decoder looks for them. The first is found by padding
the position in the file before each tensor, the second by adding up sizes from a position that is padded once. They
agree when no padding is needed between tensors (`starts_agree_iff`).
-/

namespace Ollama.Ggml

open Lib

/-! ## Positions -/

/-- A padded position. -/
def padded (pos alignment : Nat) : Nat := pos + ggufPadding pos alignment

/-- Where the tensor with the given index starts, for tensors of some sizes after a position. -/
def startOf : List Nat → Nat → Nat → Nat
  | [], pos, _ => pos
  | _ :: _, pos, 0 => padded pos 32
  | s :: sizes, pos, i + 1 => startOf sizes (padded pos 32 + s) i

theorem le_padded (pos alignment : Nat) : pos ≤ padded pos alignment := Nat.le_add_right _ _

theorem dvd_padded (pos : Nat) : 32 ∣ padded pos 32 := by
  unfold padded ggufPadding
  omega

/-- A position after a padded one is padded when the size between them is a multiple of the alignment. -/
theorem padded_add_iff (pos s : Nat) : padded pos 32 + s = padded (padded pos 32 + s) 32 ↔ 32 ∣ s := by
  have hdvd := dvd_padded pos
  generalize padded pos 32 = p at *
  unfold padded ggufPadding
  omega

/-- Sizes added up from `q` on find every tensor that is not empty exactly when there is none, or `q` is the first
start and no tensor before one that is not empty needs padding. -/
theorem starts_agree_iff (sizes : List Nat) (pos q : Nat) :
    (∀ i s, sizes[i]? = some s → 0 < s → q + (sizes.take i).sum = startOf sizes pos i) ↔
      (∀ s ∈ sizes, s = 0) ∨ (q = padded pos 32 ∧ sizes.Pairwise (fun s s' => 0 < s' → 32 ∣ s)) := by
  induction sizes generalizing pos q with
  | nil => simp
  | cons s sizes ih =>
    have hsplit : (∀ i s', (s :: sizes)[i]? = some s' → 0 < s' →
      q + ((s :: sizes).take i).sum = startOf (s :: sizes) pos i) ↔ (0 < s → q = padded pos 32) ∧
          ∀ i s', sizes[i]? = some s' → 0 < s' → (q + s) + (sizes.take i).sum =
          startOf sizes (padded pos 32 + s) i := by
      constructor
      · intro h
        refine ⟨fun hs => h 0 s rfl hs, fun i s' hi hs' => ?_⟩
        have := h (i + 1) s' hi hs'
        rw [List.take_succ_cons, List.sum_cons] at this
        rw [Nat.add_assoc]
        exact this
      · rintro ⟨h0, h⟩ i s' hi hs'
        cases i with
        | zero =>
          simp only [List.getElem?_cons_zero, Option.some.injEq] at hi
          exact h0 (hi ▸ hs')
        | succ i =>
          rw [List.take_succ_cons, List.sum_cons, ← Nat.add_assoc]
          exact h i s' hi hs'
    rw [hsplit, ih, List.forall_mem_cons, List.pairwise_cons]
    by_cases hs : s = 0
    · -- an empty tensor changes nothing
      subst hs
      have hsame : padded (padded pos 32 + 0) 32 = padded pos 32 := ((padded_add_iff pos 0).2 (Nat.dvd_zero 32)).symm
      rw [hsame]
      constructor
      · rintro ⟨_, hzero | ⟨hq, hpair⟩⟩
        · exact Or.inl ⟨rfl, hzero⟩
        · exact Or.inr ⟨hq, fun _ _ _ => Nat.dvd_zero _, hpair⟩
      · rintro (⟨_, hzero⟩ | ⟨hq, _, hpair⟩)
        · exact ⟨fun h => absurd h (Nat.lt_irrefl 0), Or.inl hzero⟩
        · exact ⟨fun _ => hq, Or.inr ⟨hq, hpair⟩⟩
    · have hpos : 0 < s := Nat.pos_of_ne_zero hs
      constructor
      · rintro ⟨hq, hrest⟩
        have hq := hq hpos
        refine Or.inr ⟨hq, ?_⟩
        rcases hrest with hzero | ⟨hnext, hpair⟩
        · refine ⟨fun s' hmem hs' => absurd (hzero s' hmem) (Nat.pos_iff_ne_zero.1 hs'), ?_⟩
          exact List.pairwise_of_forall_mem_list (fun a _ b hb hb' => absurd (hzero b hb) (Nat.pos_iff_ne_zero.1 hb'))
        · rw [hq, padded_add_iff] at hnext
          exact ⟨fun _ _ _ => hnext, hpair⟩
      · rintro (⟨h0, _⟩ | ⟨hq, hdvd, hpair⟩)
        · exact absurd h0 hs
        · refine ⟨fun _ => hq, ?_⟩
          by_cases hzero : ∀ s' ∈ sizes, s' = 0
          · exact Or.inl hzero
          · simp only [not_forall] at hzero
            obtain ⟨s', hmem, hs'⟩ := hzero
            have := hdvd s' hmem (Nat.pos_of_ne_zero hs')
            exact Or.inr ⟨by rw [hq]; exact (padded_add_iff pos s).2 this, hpair⟩

/-! ## Bytes -/

/-- The lengths of what the tensors write. -/
def dataSizes (ts : List Tensor) : List Nat := ts.map (fun t => t.writerTo.length)

/-- What is written comes after what is there. -/
theorem ggufWriteTensors_prefix (ts : List Tensor) (file : Bytes) : file <+: ggufWriteTensors 32 ts file := by
  induction ts generalizing file with
  | nil => exact List.prefix_refl file
  | cons t ts ih => exact (List.prefix_append _ _).trans ((List.prefix_append _ _).trans (ih _))

/-- The length of a file depends on the sizes only. -/
theorem length_ggufWriteTensors {ts ts' : List Tensor} {file file' : Bytes} (hsizes : dataSizes ts' = dataSizes ts)
    (hlen : file'.length = file.length) :
    (ggufWriteTensors 32 ts' file').length = (ggufWriteTensors 32 ts file).length := by
  induction ts generalizing ts' file file' with
  | nil =>
    have : ts' = [] := by simpa [dataSizes] using hsizes
    rw [this]
    exact hlen
  | cons t ts ih =>
    cases ts' with
    | nil => simp [dataSizes] at hsizes
    | cons t' ts' =>
      simp only [dataSizes, List.map_cons, List.cons.injEq] at hsizes
      rw [ggufWriteTensors, ggufWriteTensors]
      refine ih hsizes.2 ?_
      simp only [List.length_append, List.length_replicate, hsizes.1, hlen]

theorem length_padded (file : Bytes) :
    (file ++ List.replicate (ggufPadding file.length 32) (0 : UInt8)).length = padded file.length 32 := by
  rw [List.length_append, List.length_replicate, padded]

/-- The bytes of a tensor are at its start. -/
theorem take_drop_ggufWriteTensors {ts : List Tensor} (file : Bytes) {i : Nat} {t : Tensor} (h : ts[i]? = some t) :
    ((ggufWriteTensors 32 ts file).drop (startOf (dataSizes ts) file.length i)).take t.writerTo.length =
      t.writerTo := by
  induction ts generalizing file i with
  | nil => nomatch h
  | cons t' ts ih =>
    cases i with
    | zero =>
      simp only [List.getElem?_cons_zero, Option.some.injEq] at h
      subst h
      obtain ⟨rest, hrest⟩ := ggufWriteTensors_prefix ts
        (file ++ List.replicate (ggufPadding file.length 32) 0 ++ t'.writerTo)
      show ((ggufWriteTensors 32 ts _).drop (padded file.length 32)).take _ = _
      rw [← hrest, List.append_assoc _ _ rest, List.drop_left' (length_padded file), List.take_left]
    | succ i =>
      have := ih (file ++ List.replicate (ggufPadding file.length 32) 0 ++ t'.writerTo) h
      rw [List.length_append, length_padded] at this
      exact this

/-- A byte after the header that is not zero is one of a tensor. -/
theorem getElem?_ggufWriteTensors {ts : List Tensor} {file : Bytes} {q : Nat} {b : UInt8} (hq : file.length ≤ q)
    (hb : b ≠ 0) (h : (ggufWriteTensors 32 ts file)[q]? = some b) :
    ∃ i t, ts[i]? = some t ∧ startOf (dataSizes ts) file.length i ≤ q ∧
      t.writerTo[q - startOf (dataSizes ts) file.length i]? = some b := by
  induction ts generalizing file with
  | nil =>
    rw [ggufWriteTensors, List.getElem?_eq_none hq] at h
    nomatch h
  | cons t ts ih =>
    have hlen := length_padded file
    have hnext : (file ++ List.replicate (ggufPadding file.length 32) 0 ++ t.writerTo).length =
        padded file.length 32 + t.writerTo.length := by rw [List.length_append, hlen]
    by_cases hle : padded file.length 32 + t.writerTo.length ≤ q
    · obtain ⟨i, t', hi, hstart, hbyte⟩ := ih (hnext.symm ▸ hle) h
      rw [hnext] at hstart hbyte
      exact ⟨i + 1, t', hi, hstart, hbyte⟩
    · -- the byte is in what this tensor adds to the file
      obtain ⟨rest, hrest⟩ :=
        ggufWriteTensors_prefix ts (file ++ List.replicate (ggufPadding file.length 32) 0 ++ t.writerTo)
      rw [ggufWriteTensors, ← hrest, List.getElem?_append_left (by omega)] at h
      by_cases hpad : q < padded file.length 32
      · rw [List.getElem?_append_left (by omega), List.getElem?_append_right hq, List.getElem?_replicate] at h
        split at h
        · exact absurd (Option.some.inj h).symm hb
        · nomatch h
      · rw [List.getElem?_append_right (by omega), hlen] at h
        exact ⟨0, t, rfl, by show padded file.length 32 ≤ q; omega, h⟩

end Ollama.Ggml
