import Ollama.Kvcache.Causal
import Mathlib.Order.Bounds.Defs

/-!
# Cells and ranges

How the cell at a location and the range of a set of cells change with the operations on lists the cache is made of.
-/

namespace Ollama.Kvcache

/-! ## The cell at a location -/

/-- A location of the cache has its cell. -/
theorem cellAt_eq_getElem {cells : List CacheCell} {i : Nat} (h : i < cells.length) : cellAt cells i = cells[i] := by
  simp [cellAt, h]

/-- There is no cell beyond the last, and what is read there is an empty one. -/
theorem cellAt_eq_default {cells : List CacheCell} {i : Nat} (h : cells.length ≤ i) : cellAt cells i = {} := by
  simp [cellAt, List.getElem?_eq_none h]

@[simp] theorem empty_default : CacheCell.empty {} = true := rfl

@[simp] theorem cellAt_nil (i : Nat) : cellAt [] i = {} := rfl

@[simp] theorem cellAt_cons_zero (x : CacheCell) (cells : List CacheCell) : cellAt (x :: cells) 0 = x := rfl

@[simp] theorem cellAt_cons_succ (x : CacheCell) (cells : List CacheCell) (i : Nat) :
    cellAt (x :: cells) (i + 1) = cellAt cells i := rfl

/-- After a cell is set it is the one of its location. -/
theorem cellAt_set (cells : List CacheCell) (i j : Nat) (x : CacheCell) (h : i < cells.length) :
    cellAt (cells.set i x) j = if j = i then x else cellAt cells j := by
  by_cases hj : j = i
  · subst hj
    simp [cellAt, h]
  · simp [cellAt, List.getElem?_set_ne (Ne.symm hj), hj]

/-- A cell is empty when no sequence uses it. -/
theorem empty_iff (c : CacheCell) : c.empty = true ↔ c.sequences = [] := by
  simp [CacheCell.empty]

/-- What is done to all cells is done to the one of a location. -/
theorem cellAt_map (cells : List CacheCell) (f : CacheCell → CacheCell) (hf : f {} = {}) (j : Nat) :
    cellAt (cells.map f) j = f (cellAt cells j) := by
  by_cases hj : j < cells.length
  · simp [cellAt, hj]
  · simp [cellAt, List.getElem?_eq_none (by omega : cells.length ≤ j), hf]

/-- An occupied cell is a cell of the cache. -/
theorem lt_length_of_not_empty {cells : List CacheCell} {j : Nat} (h : ¬(cellAt cells j).empty) : j < cells.length := by
  by_contra hj
  apply h
  rw [cellAt_eq_default (by omega)]
  rfl

/-- A location a sequence references is a location of the cache. -/
theorem lt_length_of_mem {cells : List CacheCell} {j : Nat} {seq : Int} (h : seq ∈ (cellAt cells j).sequences) :
    j < cells.length := by
  apply lt_length_of_not_empty
  rw [empty_iff]
  exact List.ne_nil_of_mem h

/-! ## Ranges -/

/-- A location lies in a range. -/
def CellRange.Covers (r : CellRange) (j : Nat) : Prop := r.min ≤ j ∧ j ≤ r.max

instance (r : CellRange) (j : Nat) : Decidable (r.Covers j) := inferInstanceAs (Decidable (_ ∧ _))

/-- One range lies in another. -/
def CellRange.Within (r s : CellRange) : Prop := s.min ≤ r.min ∧ r.max ≤ s.max

/-- A range within another covers no more. -/
theorem CellRange.Within.covers {r s : CellRange} (h : r.Within s) {j : Nat} (hj : r.Covers j) : s.Covers j :=
  ⟨Nat.le_trans h.1 hj.1, Nat.le_trans hj.2 h.2⟩

/-- A range is within itself. -/
theorem CellRange.Within.refl (r : CellRange) : r.Within r := ⟨Nat.le_refl _, Nat.le_refl _⟩

/-- A range within another is within what that one is within. -/
theorem CellRange.Within.trans {r s t : CellRange} (h : r.Within s) (h' : s.Within t) : r.Within t :=
  ⟨Nat.le_trans h'.1 h.1, Nat.le_trans h.2 h'.2⟩

/-- A range is within its extension. -/
theorem within_extend (r : CellRange) (i : Nat) : r.Within (r.extend i) := by
  refine ⟨?_, ?_⟩ <;> simp only [CellRange.extend] <;> split <;> omega

/-- A range is extended to cover the location. -/
theorem extend_covers (r : CellRange) (i : Nat) : (r.extend i).Covers i := by
  refine ⟨?_, ?_⟩ <;> simp only [CellRange.extend] <;> split <;> omega

/-- Adding a location moves the ends to it or leaves them. -/
theorem extend_max (r : CellRange) (i : Nat) : (r.extend i).max = i ∨ (r.extend i).max = r.max := by
  simp only [CellRange.extend]
  split
  · exact Or.inl rfl
  · exact Or.inr rfl

/-- Two ranges are joined to one that the first is within. -/
theorem within_join_left (r s : CellRange) : r.Within (r.join s) := by
  refine ⟨?_, ?_⟩ <;> simp only [CellRange.join] <;> split <;> omega

/-- Two ranges are joined to one that the second is within. -/
theorem within_join_right (r s : CellRange) : s.Within (r.join s) := by
  refine ⟨?_, ?_⟩ <;> simp only [CellRange.join] <;> split <;> omega

/-- The join ends where one of the two does. -/
theorem join_max (r s : CellRange) : (r.join s).max = s.max ∨ (r.join s).max = r.max := by
  simp only [CellRange.join]
  split
  · exact Or.inl rfl
  · exact Or.inr rfl

/-- The range that a loop starts from is within what it ends with. -/
theorem within_rangeFrom (p : CacheCell → Bool) (cells : List CacheCell) (i : Nat) (r : CellRange) :
    r.Within (rangeFrom p cells i r) := by
  induction cells generalizing i r with
  | nil => exact CellRange.Within.refl r
  | cons x cells ih =>
    simp only [rangeFrom]
    split
    · exact (within_extend r i).trans (ih _ _)
    · exact ih _ _

/-- The range of the cells that satisfy a predicate covers each of them. -/
theorem rangeFrom_covers (p : CacheCell → Bool) (cells : List CacheCell) (i : Nat) (r : CellRange) (j : Nat)
    (hj : j < cells.length) (hp : p (cellAt cells j)) : (rangeFrom p cells i r).Covers (i + j) := by
  induction cells generalizing i r j with
  | nil => simp at hj
  | cons x cells ih =>
    cases j with
    | zero =>
      simp only [cellAt_cons_zero] at hp
      simp only [rangeFrom, hp, if_true, Nat.add_zero]
      exact (within_rangeFrom p cells (i + 1) _).covers (extend_covers r i)
    | succ j =>
      simp only [cellAt_cons_succ] at hp
      simp only [List.length_cons] at hj
      rw [show i + (j + 1) = i + 1 + j by omega]
      exact ih (i + 1) _ j (by omega) hp

/-- Adding a location moves the least one to it or leaves it. -/
theorem extend_min (r : CellRange) (i : Nat) : (r.extend i).min = i ∨ (r.extend i).min = r.min := by
  simp only [CellRange.extend]
  split
  · exact Or.inl rfl
  · exact Or.inr rfl

/-- The ends of the range of some cells are the ones it had or locations of such cells. -/
theorem rangeFrom_ends (p : CacheCell → Bool) (cells : List CacheCell) (i : Nat) (r : CellRange) :
    ((rangeFrom p cells i r).min = r.min ∨ ∃ j < cells.length, p (cellAt cells j) ∧
      (rangeFrom p cells i r).min = i + j) ∧
      ((rangeFrom p cells i r).max = r.max ∨ ∃ j < cells.length, p (cellAt cells j) ∧
        (rangeFrom p cells i r).max = i + j) := by
  induction cells generalizing i r with
  | nil => exact ⟨Or.inl rfl, Or.inl rfl⟩
  | cons x cells ih =>
    have hlater : ∀ {k : Nat}, (∃ j < cells.length, p (cellAt cells j) ∧ k = i + 1 + j) →
        ∃ j < (x :: cells).length, p (cellAt (x :: cells) j) ∧ k = i + j := by
      rintro k ⟨j, hj, hp, rfl⟩
      exact ⟨j + 1, Nat.succ_lt_succ hj, hp, by omega⟩
    have hhere : p x → ∃ j < (x :: cells).length, p (cellAt (x :: cells) j) ∧ i = i + j :=
      fun hx => ⟨0, Nat.succ_pos _, hx, rfl⟩
    simp only [rangeFrom]
    obtain ⟨hmin, hmax⟩ := ih (i + 1) (if p x then r.extend i else r)
    constructor
    · rcases hmin with h | h
      · rw [h]
        split
        · rename_i hx
          rcases extend_min r i with h' | h'
          · exact Or.inr (h'.symm ▸ hhere hx)
          · exact Or.inl h'
        · exact Or.inl rfl
      · exact Or.inr (hlater h)
    · rcases hmax with h | h
      · rw [h]
        split
        · rename_i hx
          rcases extend_max r i with h' | h'
          · exact Or.inr (h'.symm ▸ hhere hx)
          · exact Or.inl h'
        · exact Or.inl rfl
      · exact Or.inr (hlater h)

/-- The range of some cells ends where it did or at one of them. -/
theorem rangeFrom_max (p : CacheCell → Bool) (cells : List CacheCell) (i : Nat) (r : CellRange) :
    (rangeFrom p cells i r).max = r.max ∨ (rangeFrom p cells i r).max < i + cells.length := by
  rcases (rangeFrom_ends p cells i r).2 with h | ⟨j, hj, _, h⟩
  · exact Or.inl h
  · exact Or.inr (by omega)

/-- In a cache with few locations, the range of the cells that satisfy a predicate ends at the least and the greatest
of them. -/
theorem rangeFrom_exact (p : CacheCell → Bool) {cells : List CacheCell} (hlen : cells.length ≤ maxInt) {j : Nat}
    (hj : j < cells.length) (hp : p (cellAt cells j)) :
    IsLeast {j | j < cells.length ∧ p (cellAt cells j)} (rangeFrom p cells 0 newRange).min ∧
      IsGreatest {j | j < cells.length ∧ p (cellAt cells j)} (rangeFrom p cells 0 newRange).max := by
  have hcovers : ∀ k, k < cells.length → p (cellAt cells k) → (rangeFrom p cells 0 newRange).Covers k := by
    intro k hk hpk
    have h := rangeFrom_covers p cells 0 newRange k hk hpk
    rwa [Nat.zero_add] at h
  obtain ⟨hmin, hmax⟩ := rangeFrom_ends p cells 0 newRange
  refine ⟨⟨?_, fun k hk => (hcovers k hk.1 hk.2).1⟩, ⟨?_, fun k hk => (hcovers k hk.1 hk.2).2⟩⟩
  · rcases hmin with h | ⟨k, hk, hpk, h⟩
    · have hle := (hcovers j hj hp).1
      rw [h] at hle
      exact absurd hle (Nat.not_le.2 (Nat.lt_of_lt_of_le hj hlen))
    · rw [h, Nat.zero_add]
      exact ⟨hk, hpk⟩
  · rcases hmax with h | ⟨k, hk, hpk, h⟩
    · -- the range ends at location 0 only if no later one is in it
      have hle := (hcovers j hj hp).2
      rw [h] at hle ⊢
      obtain rfl : j = 0 := Nat.le_zero.1 hle
      exact ⟨hj, hp⟩
    · rw [h, Nat.zero_add]
      exact ⟨hk, hpk⟩

end Ollama.Kvcache
