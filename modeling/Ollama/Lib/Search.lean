import Mathlib.Data.List.Basic

/-!
# Searches of a list

What a loop has found in the elements it has passed: the first of the greatest (`FirstMax`), and the least of those
that are eligible and below a bound (`LeastBelow`). Each comes with what one turn of the loop keeps. And how far two
lists agree (`CommonPrefix`).
-/

namespace Ollama.Lib

variable {α : Type}

/-! ## The first of the greatest -/

/-- The place and the measure of the first element that none exceeds; nothing of an empty list. -/
def FirstMax (measure : α → Nat) (l : List α) : Option (Nat × Nat) → Prop
  | none => l = []
  | some (i, n) => ∃ a, l[i]? = some a ∧ n = measure a ∧
      ∀ (j : Nat) (b : α), l[j]? = some b → measure b ≤ n ∧ (j < i → measure b < n)

namespace FirstMax

variable {measure : α → Nat} {l : List α}

/-- An element is one of the list or the one at its end. -/
theorem getElem?_snoc {a b : α} {j : Nat} (h : (l ++ [a])[j]? = some b) : l[j]? = some b ∨ (j = l.length ∧ b = a) := by
  rcases Nat.lt_trichotomy j l.length with hj | rfl | hj
  · rw [List.getElem?_append_left hj] at h
    exact Or.inl h
  · rw [List.getElem?_concat_length, Option.some.injEq] at h
    exact Or.inr ⟨rfl, h.symm⟩
  · rw [List.getElem?_eq_none (by simp only [List.length_append, List.length_singleton]; omega)] at h
    nomatch h

/-- A greater element at the end is the first of its measure. -/
theorem replace {best : Option (Nat × Nat)} (h : FirstMax measure l best) {a : α}
    (hgreater : ∀ i n, best = some (i, n) → n < measure a) :
    FirstMax measure (l ++ [a]) (some (l.length, measure a)) := by
  have hbelow : ∀ (j : Nat) (b : α), l[j]? = some b → measure b < measure a := by
    intro j b hb
    rcases best with _ | ⟨i, n⟩
    · rw [show l = [] from h] at hb
      nomatch hb
    · obtain ⟨_, _, _, hmax⟩ := h
      have := (hmax j b hb).1
      have := hgreater i n rfl
      omega
  refine ⟨a, List.getElem?_concat_length .., rfl, ?_⟩
  intro j b hb
  rcases getElem?_snoc hb with hb | ⟨rfl, rfl⟩
  · have := hbelow j b hb
    omega
  · omega

/-- An element at the end that is not greater changes nothing. -/
theorem keep {i n : Nat} (h : FirstMax measure l (some (i, n))) {a : α} (hle : measure a ≤ n) :
    FirstMax measure (l ++ [a]) (some (i, n)) := by
  obtain ⟨s, hs, hn, hmax⟩ := h
  have hi := (List.getElem?_eq_some_iff.1 hs).1
  refine ⟨s, by rw [List.getElem?_append_left hi, hs], hn, ?_⟩
  intro j b hb
  rcases getElem?_snoc hb with hb | ⟨rfl, rfl⟩
  · exact hmax j b hb
  · omega

/-- There is one such element. -/
theorem unique {i n i' n' : Nat} (h : FirstMax measure l (some (i, n))) (h' : FirstMax measure l (some (i', n'))) :
    i = i' ∧ n = n' := by
  obtain ⟨a, ha, rfl, hmax⟩ := h
  obtain ⟨b, hb, rfl, hmax'⟩ := h'
  have h1 := hmax i' b hb
  have h2 := hmax' i a ha
  omega

end FirstMax

/-! ## The least below a bound -/

/-- The place of an eligible element whose measure is below a bound, and that measure; without one, that there is
none, and the bound. -/
def LeastBelow (measure : α → Nat) (eligible : α → Prop) (bound : Nat) (l : List α) (found : Option Nat)
    (least : Nat) : Prop :=
  match found with
  | none => least = bound ∧ ∀ a ∈ l, eligible a → bound ≤ measure a
  | some i => ∃ a, l[i]? = some a ∧ eligible a ∧ measure a = least ∧ least < bound

namespace LeastBelow

variable {measure : α → Nat} {eligible : α → Prop} {bound least : Nat} {l : List α} {found : Option Nat}

/-- A lesser element at the end is found. -/
theorem replace (h : LeastBelow measure eligible bound l found least) {a : α} (ha : eligible a)
    (hlt : measure a < least) :
    LeastBelow measure eligible bound (l ++ [a]) (some l.length) (measure a) := by
  refine ⟨a, List.getElem?_concat_length .., ha, rfl, ?_⟩
  rcases found with _ | i
  · have := h.1
    omega
  · obtain ⟨_, _, _, _, hbound⟩ := h
    omega

/-- An element at the end that is not eligible or not below what was found changes nothing. -/
theorem keep (h : LeastBelow measure eligible bound l found least) {a : α} (ha : ¬(measure a < least ∧ eligible a)) :
    LeastBelow measure eligible bound (l ++ [a]) found least := by
  rcases found with _ | i
  · obtain ⟨rfl, hnone⟩ := h
    refine ⟨rfl, ?_⟩
    intro b hb heligible
    rcases List.mem_append.1 hb with hb | hb
    · exact hnone b hb heligible
    · rw [List.mem_singleton] at hb
      subst hb
      exact Nat.le_of_not_lt (fun hlt => ha ⟨hlt, heligible⟩)
  · obtain ⟨s, hs, hrest⟩ := h
    refine ⟨s, ?_, hrest⟩
    rw [List.getElem?_append_left (List.getElem?_eq_some_iff.1 hs).1, hs]

end LeastBelow

/-! ## Common prefixes -/

/-- The first `n` elements are the same in both lists. -/
def CommonPrefix (same : α → α → Bool) (n : Nat) (l m : List α) : Prop :=
  n ≤ l.length ∧ n ≤ m.length ∧ ∀ (k : Nat) (a b : α), k < n → l[k]? = some a → m[k]? = some b → same a b

namespace CommonPrefix

variable {same : α → α → Bool} {n : Nat} {l m : List α}

theorem zero : CommonPrefix same 0 l m := ⟨Nat.zero_le _, Nat.zero_le _, fun _ _ _ h => (Nat.not_lt_zero _ h).elim⟩

theorem cons {a b : α} (h : same a b) (hn : CommonPrefix same n l m) : CommonPrefix same (n + 1) (a :: l) (b :: m) := by
  refine ⟨by simpa using hn.1, by simpa using hn.2.1, ?_⟩
  intro k x y hk hx hy
  cases k with
  | zero =>
    simp only [List.getElem?_cons_zero, Option.some.injEq] at hx hy
    rwa [← hx, ← hy]
  | succ k => exact hn.2.2 k x y (by omega) hx hy

theorem of_le (h : CommonPrefix same n l m) {k : Nat} (hk : k ≤ n) : CommonPrefix same k l m :=
  ⟨Nat.le_trans hk h.1, Nat.le_trans hk h.2.1, fun j a b hj => h.2.2 j a b (Nat.lt_of_lt_of_le hj hk)⟩

/-- What is in common is in common with a copy of it. -/
theorem take (h : CommonPrefix same n l m) : CommonPrefix same n (l.take n) m := by
  refine ⟨by simp [h.1], h.2.1, ?_⟩
  intro k a b hk ha hb
  rw [List.getElem?_take_of_lt hk] at ha
  exact h.2.2 k a b hk ha hb

end CommonPrefix

end Ollama.Lib
