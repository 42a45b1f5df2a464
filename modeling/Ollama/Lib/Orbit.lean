import Mathlib.Data.Fintype.Pigeonhole
import Mathlib.Data.Set.Finite.Basic

/-!
# Where a function leads

A function that may have no value is taken again and again. It comes to an end exactly if it does not come to the same
value twice, as long as it is defined at finitely many values only (`ends_iff`).
-/

namespace Ollama.Lib

variable {α : Type*} (next : α → Option α)

/-- The function, `i` times. -/
def iter : Nat → α → Option α
  | 0, a => some a
  | i + 1, a => (next a).bind (iter i)

/-- Taken again and again, the function comes to an end. -/
def Ends (a : α) : Prop := Acc (fun b a => next a = some b) a

variable {next} {a b c : α} {i j : Nat}

theorem iter_add (i j : Nat) (a : α) : iter next (i + j) a = (iter next i a).bind (iter next j) := by
  induction i generalizing a with
  | zero => rw [Nat.zero_add, iter, Option.bind_some]
  | succ i ih =>
    rw [Nat.succ_add, iter, iter, Option.bind_assoc]
    exact congrArg (Option.bind (next a)) (funext ih)

/-- One more time. -/
theorem iter_succ_iff : iter next (i + 1) a = some c ↔ ∃ b, iter next i a = some b ∧ next b = some c := by
  rw [iter_add, Option.bind_eq_some_iff]
  simp [iter]

/-- What comes after a value also comes after what is before it. -/
theorem iter_next (h : next a = some b) (hb : iter next i b = some c) : iter next (i + 1) a = some c := by
  rw [iter, h, Option.bind_some, hb]

theorem Ends.step (h : Ends next a) (hb : next a = some b) : Ends next b := h.inv hb

theorem ends_of_next (h : ∀ b, next a = some b → Ends next b) : Ends next a := Acc.intro a h

/-- Where it ends, there is a last time. -/
theorem Ends.exists_none (h : Ends next a) : ∃ i, iter next i a = none := by
  induction h with
  | intro a _ ih =>
    cases hnext : next a with
    | none => exact ⟨1, by rw [iter, hnext, Option.bind_none]⟩
    | some b =>
      obtain ⟨i, hi⟩ := ih b hnext
      exact ⟨i + 1, by rw [iter, hnext, Option.bind_some, hi]⟩

/-- A value that comes back does so again and again. -/
theorem iter_period (h : iter next i a = some a) (m : Nat) : iter next (m * i) a = some a := by
  induction m with
  | zero => rw [Nat.zero_mul, iter]
  | succ m ih => rw [Nat.succ_mul, iter_add, ih, Option.bind_some, h]

/-- Where it ends, no value comes twice. -/
theorem Ends.injective (h : Ends next a) (hi : iter next i a = some b) (hj : iter next j a = some b) : i = j := by
  wlog hlt : i < j generalizing i j
  · rcases Nat.lt_trichotomy i j with hij | hij | hij
    · exact absurd hij hlt
    · exact hij
    · exact (this hj hi hij).symm
  obtain ⟨k, hk⟩ := h.exists_none
  have hperiod : iter next (j - i) b = some b := by
    rw [show j = i + (j - i) by omega, iter_add, hi, Option.bind_some] at hj
    exact hj
  have hlong : iter next (i + k * (j - i)) a = some b := by
    rw [iter_add, hi, Option.bind_some, iter_period hperiod]
  have hle : k ≤ i + k * (j - i) := Nat.le_add_left_of_le (Nat.le_mul_of_pos_right k (Nat.sub_pos_of_lt hlt))
  obtain ⟨d, hd⟩ := Nat.exists_eq_add_of_le hle
  rw [hd, iter_add, hk] at hlong
  nomatch hlong

/-- Where it does not end, there is always another value. -/
theorem exists_iter_of_not_ends (h : ¬Ends next a) (i : Nat) : ∃ b, iter next i a = some b ∧ ¬Ends next b := by
  induction i with
  | zero => exact ⟨a, rfl, h⟩
  | succ i ih =>
    obtain ⟨b, hb, hnot⟩ := ih
    have : ∃ c, next b = some c ∧ ¬Ends next c := by
      by_contra hall
      exact hnot (ends_of_next fun c hc => not_not.1 fun hc' => hall ⟨c, hc, hc'⟩)
    obtain ⟨c, hc, hnot'⟩ := this
    exact ⟨c, iter_succ_iff.2 ⟨b, hb, hc⟩, hnot'⟩

/-- Over finitely many values, the function comes to an end exactly if no value comes twice. -/
theorem ends_iff (hfin : {a | (next a).isSome}.Finite) (a : α) :
    Ends next a ↔ ∀ i j b, iter next i a = some b → iter next j a = some b → i = j := by
  refine ⟨fun h i j b => h.injective, fun hinj => ?_⟩
  by_contra hnot
  choose f hf hends using exists_iter_of_not_ends hnot
  have hmem : ∀ i, f i ∈ {a | (next a).isSome} := by
    intro i
    obtain ⟨c, hc, -⟩ := exists_iter_of_not_ends (hends i) 1
    rw [iter] at hc
    obtain ⟨b, hb, -⟩ := Option.bind_eq_some_iff.1 hc
    exact Option.isSome_iff_exists.2 ⟨b, hb⟩
  have : Finite {a | (next a).isSome} := hfin
  obtain ⟨i, j, hne, heq⟩ := Finite.exists_ne_map_eq_of_infinite (fun i => (⟨f i, hmem i⟩ : {a | (next a).isSome}))
  have hsame : f i = f j := congrArg Subtype.val heq
  exact hne (hinj i j (f i) (hf i) (hsame ▸ hf j))

end Ollama.Lib
