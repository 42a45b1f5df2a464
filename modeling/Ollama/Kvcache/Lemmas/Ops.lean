import Ollama.Kvcache.Lemmas.Cells

/-!
# What each call does to the cells

One statement for each loop of the cache: where `findStartLoc` finds room, what `StartForward` stores and which ranges
it leaves, what `CopyPrefix` and `Remove` make of a cell, and how far `Remove` gets before a shared cell stops it.
-/

namespace Ollama.Kvcache

variable {κ ν : Type}

/-! ## findStartLoc -/

/-- The loop of `findStartLoc`: the cells from `start` up to `i` are empty, and so are those of the block it returns. -/
theorem findStartLocFrom_spec (batch : Nat) (all : List CacheCell) :
    ∀ (cells : List CacheCell) (i start count loc : Nat), all.drop i = cells → start + count = i →
      (∀ j, start ≤ j → j < i → (cellAt all j).empty) → findStartLocFrom batch cells i start count = some loc →
      loc + batch ≤ all.length ∧ ∀ j, loc ≤ j → j < loc + batch → (cellAt all j).empty := by
  intro cells
  induction cells with
  | nil =>
    intro i start count loc _ _ _ h
    simp [findStartLocFrom] at h
  | cons x cells ih =>
    intro i start count loc hdrop hcount hempty h
    have hi : i < all.length := by
      by_contra hge
      rw [List.drop_eq_nil_of_le (by omega)] at hdrop
      simp at hdrop
    rw [List.drop_eq_getElem_cons hi, List.cons.injEq] at hdrop
    obtain ⟨hx, hrest⟩ := hdrop
    have hxi : cellAt all i = x := by rw [cellAt_eq_getElem hi, hx]
    simp only [findStartLocFrom] at h
    split at h
    · rename_i he
      have hempty' : ∀ j, start ≤ j → j < i + 1 → (cellAt all j).empty := by
        intro j h1 h2
        by_cases hj : j = i
        · rw [hj, hxi]
          exact he
        · exact hempty j h1 (by omega)
      split at h
      · simp only [Option.some.injEq] at h
        subst h
        exact ⟨by omega, fun j h1 h2 => hempty' j h1 (by omega)⟩
      · exact ih (i + 1) start (count + 1) loc hrest (by omega) hempty' h
    · exact ih (i + 1) (i + 1) 0 loc hrest (by omega) (fun j h1 h2 => by omega) h

/-- `findStartLoc` returns a block of `curBatchSize` empty locations of the cache. -/
theorem findStartLoc_spec {c : Causal κ ν} {loc : Nat} (h : c.findStartLoc = some loc) :
    loc + c.curBatchSize ≤ c.cells.length ∧ ∀ j, loc ≤ j → j < loc + c.curBatchSize → (c.cell j).empty :=
  findStartLocFrom_spec c.curBatchSize c.cells c.cells 0 0 0 loc rfl rfl (fun j h1 h2 => by omega) h

/-- `findStartLoc` finds nothing in a cache without locations, not even for an empty batch. -/
theorem length_pos_of_findStartLoc {c : Causal κ ν} {loc : Nat} (h : c.findStartLoc = some loc) :
    0 < c.cells.length := by
  cases hcells : c.cells with
  | nil => simp [Causal.findStartLoc, hcells, findStartLocFrom] at h
  | cons x cells => exact Nat.succ_pos _

/-! ## The loop of StartForward -/

/-- What the loop leaves alone. -/
theorem store_frame (batch : List (Int × Int)) (c : Causal κ ν) (loc : Nat) :
    (c.store batch loc).capacity = c.capacity ∧ (c.store batch loc).windowSize = c.windowSize ∧
      (c.store batch loc).config = c.config ∧ (c.store batch loc).curBatchSize = c.curBatchSize ∧
      (c.store batch loc).curLoc = c.curLoc ∧ (c.store batch loc).shiftFn = c.shiftFn ∧
      (c.store batch loc).layers = c.layers ∧ (c.store batch loc).cells.length = c.cells.length := by
  induction batch generalizing c loc with
  | nil => exact ⟨rfl, rfl, rfl, rfl, rfl, rfl, rfl, rfl⟩
  | cons x batch ih =>
    obtain ⟨pos, seq⟩ := x
    simp only [Causal.store]
    obtain ⟨h1, h2, h3, h4, h5, h6, h7, h8⟩ := ih _ (loc + 1)
    exact ⟨h1, h2, h3, h4, h5, h6, h7, by rw [h8, List.length_set]⟩

/-- The cells after the loop: those of the batch, from `loc` on, and the old ones elsewhere. -/
theorem store_cell (batch : List (Int × Int)) (c : Causal κ ν) (loc : Nat) (h : loc + batch.length ≤ c.cells.length)
    (j : Nat) : (c.store batch loc).cell j =
      if loc ≤ j then ((batch[j - loc]?).map (fun x => (⟨x.1, [x.2]⟩ : CacheCell))).getD (c.cell j) else c.cell j := by
  induction batch generalizing c loc with
  | nil => simp [Causal.store]
  | cons x batch ih =>
    obtain ⟨pos, seq⟩ := x
    simp only [List.length_cons] at h
    simp only [Causal.store]
    rw [ih _ (loc + 1) (by simp only [List.length_set]; omega)]
    simp only [Causal.cell, cellAt_set _ _ _ _ (by omega : loc < c.cells.length)]
    by_cases hj : j = loc
    · subst hj
      rw [if_neg (by omega : ¬j + 1 ≤ j), if_pos rfl, if_pos (Nat.le_refl j), Nat.sub_self]
      rfl
    · by_cases hlt : loc + 1 ≤ j
      · rw [if_pos hlt, if_pos (by omega : loc ≤ j), if_neg hj, show j - loc = (j - (loc + 1)) + 1 by omega,
          List.getElem?_cons_succ]
      · rw [if_neg hlt, if_neg (by omega : ¬loc ≤ j), if_neg hj]

/-- The ranges and cells of a cache agree: a sequence's range covers every location that holds it. -/
def Covered (c : Causal κ ν) : Prop :=
  ∀ j seq, seq ∈ (c.cell j).sequences → ∃ r, c.cellRanges seq = some r ∧ r.Covers j

/-- The ranges of a cache end at a location of it. -/
def Bounded (c : Causal κ ν) : Prop := ∀ seq r, c.cellRanges seq = some r → c.cells.length = 0 ∨ r.max < c.cells.length

/-- A sequence's range lies in the range of the batch. -/
def InBatch (c : Causal κ ν) (seq : Int) : Prop := ∃ r, c.cellRanges seq = some r ∧ r.Within c.curCellRange

/-- The loop keeps ranges covering, and the range of the batch takes in the range of every sequence of it. -/
theorem store_ranges (batch : List (Int × Int)) (c : Causal κ ν) (loc : Nat) (h : loc + batch.length ≤ c.cells.length)
    (hc : Covered c) (hb : Bounded c) :
    Covered (c.store batch loc) ∧ Bounded (c.store batch loc) ∧
      c.curCellRange.Within (c.store batch loc).curCellRange ∧
      (∀ seq, (InBatch c seq ∨ ∃ x ∈ batch, x.2 = seq) → InBatch (c.store batch loc) seq) ∧
      ((c.store batch loc).curCellRange.max = c.curCellRange.max ∨
        (c.store batch loc).curCellRange.max < c.cells.length) ∧
      ∀ i, i < batch.length → (c.store batch loc).curCellRange.Covers (loc + i) := by
  induction batch generalizing c loc with
  | nil =>
    refine ⟨hc, hb, CellRange.Within.refl _, ?_, Or.inl rfl, fun i hi => by simp at hi⟩
    rintro seq (hs | ⟨x, hx, _⟩)
    · exact hs
    · simp at hx
  | cons x batch ih =>
    obtain ⟨pos, seq⟩ := x
    simp only [List.length_cons] at h
    simp only [Causal.store]
    have hl : loc < c.cells.length := by omega
    generalize hr : ((c.cellRanges seq).getD newRange).extend loc = r
    generalize hc' : ({ c with cells := c.cells.set loc ⟨pos, [seq]⟩,
                               cellRanges := Function.update c.cellRanges seq (some r),
                               curCellRange := c.curCellRange.join r } : Causal κ ν) = c'
    have hlen : c'.cells.length = c.cells.length := by simp [← hc']
    have hrange : ∀ s, c'.cellRanges s = if s = seq then some r else c.cellRanges s := by
      intro s
      simp [← hc', Function.update_apply]
    have hcur : c'.curCellRange = c.curCellRange.join r := by simp [← hc']
    have hcell : ∀ j, c'.cell j = if j = loc then ⟨pos, [seq]⟩ else c.cell j := by
      intro j
      simp only [← hc', Causal.cell]
      exact cellAt_set _ _ _ _ hl
    have hrmax : r.max < c.cells.length := by
      rw [← hr]
      rcases extend_max ((c.cellRanges seq).getD newRange) loc with h' | h'
      · omega
      · rw [h']
        cases hs : c.cellRanges seq with
        | none => simp [newRange]; omega
        | some r₀ =>
          rcases hb seq r₀ hs with h0 | h0
          · omega
          · simpa using h0
    have hcov : Covered c' := by
      intro j s hs
      rw [hcell] at hs
      rw [hrange]
      by_cases hj : j = loc
      · rw [if_pos hj] at hs
        simp only [List.mem_singleton] at hs
        rw [if_pos hs, hj, ← hr]
        exact ⟨_, rfl, extend_covers _ _⟩
      · rw [if_neg hj] at hs
        obtain ⟨r₀, hr₀, hcov⟩ := hc j s hs
        by_cases hseq : s = seq
        · rw [if_pos hseq, ← hr, ← hseq, hr₀]
          exact ⟨_, rfl, (within_extend _ _).covers hcov⟩
        · rw [if_neg hseq]
          exact ⟨r₀, hr₀, hcov⟩
    have hbound : Bounded c' := by
      intro s r₀ hs
      rw [hrange] at hs
      rw [hlen]
      split at hs
      · simp only [Option.some.injEq] at hs
        rw [← hs]
        exact Or.inr hrmax
      · exact hb s r₀ hs
    obtain ⟨g1, g2, g3, g4, g5, g6⟩ := ih c' (loc + 1) (by omega) hcov hbound
    have hjoin : c.curCellRange.Within c'.curCellRange := by rw [hcur]; exact within_join_left _ _
    refine ⟨g1, g2, hjoin.trans g3, ?_, ?_, ?_⟩
    · intro s hs
      apply g4
      by_cases hseq : s = seq
      · exact Or.inl ⟨r, by rw [hrange, if_pos hseq], by rw [hcur]; exact within_join_right _ _⟩
      · rcases hs with ⟨r₀, hr₀, hw⟩ | ⟨x, hx, hxs⟩
        · exact Or.inl ⟨r₀, by rw [hrange, if_neg hseq]; exact hr₀, hw.trans hjoin⟩
        · rcases List.mem_cons.1 hx with rfl | hx
          · exact absurd hxs.symm hseq
          · exact Or.inr ⟨x, hx, hxs⟩
    · rw [hlen] at g5
      rcases g5 with g5 | g5
      · rw [g5, hcur]
        rcases join_max c.curCellRange r with h' | h'
        · exact Or.inr (by rw [h']; exact hrmax)
        · exact Or.inl h'
      · exact Or.inr g5
    · intro i hi
      cases i with
      | zero =>
        apply g3.covers
        rw [hcur]
        apply (within_join_right _ _).covers
        rw [← hr]
        exact extend_covers _ _
      | succ i =>
        rw [show loc + (i + 1) = loc + 1 + i by omega]
        exact g6 i (by simp only [List.length_cons] at hi; omega)

/-! ## CopyPrefix -/

theorem mem_copyCell (srcSeq dstSeq len seq : Int) (cell : CacheCell) :
    seq ∈ (copyCell srcSeq dstSeq len cell).sequences ↔
      if seq = dstSeq then srcSeq ≠ dstSeq ∧ srcSeq ∈ cell.sequences ∧ cell.pos < len else seq ∈ cell.sequences := by
  unfold copyCell
  by_cases hs : seq = dstSeq
  · subst hs
    by_cases hc : srcSeq ∈ cell.sequences.filter (· ≠ seq) ∧ cell.pos < len
    · simp only [hc, and_self, if_true]
      simp only [List.mem_filter, decide_eq_true_eq] at hc
      simp [hc.1.1, hc.1.2]
    · simp only [hc, if_false, if_true]
      simp only [List.mem_filter, decide_eq_true_eq] at hc ⊢
      constructor
      · rintro ⟨_, h⟩
        exact absurd rfl h
      · rintro ⟨h1, h2, h3⟩
        exact absurd ⟨⟨h2, h1⟩, h3⟩ hc
  · simp only [hs, if_false]
    split <;> simp [hs]

theorem copyCell_pos (srcSeq dstSeq len : Int) (cell : CacheCell) :
    (copyCell srcSeq dstSeq len cell).pos = cell.pos := by
  unfold copyCell
  dsimp only
  split <;> rfl

theorem copyCell_default (srcSeq dstSeq len : Int) : copyCell srcSeq dstSeq len {} = {} := by
  simp [copyCell]

theorem copyPrefix_cell (srcSeq dstSeq len : Int) (c : Causal κ ν) (j : Nat) :
    (c.copyPrefix srcSeq dstSeq len).cell j = copyCell srcSeq dstSeq len (c.cell j) :=
  cellAt_map _ _ (copyCell_default _ _ _) j

/-! ## Remove -/

/-- What `Remove` makes of a cell it gets past. -/
def removeCell (seq beginIndex endIndex offset : Int) (cell : CacheCell) : CacheCell :=
  if seq ∈ cell.sequences then
    if cell.pos ≥ beginIndex ∧ cell.pos < endIndex then
      { cell with sequences := cell.sequences.filter (· ≠ seq) }
    else if cell.pos ≥ endIndex then
      { cell with pos := int32 (cell.pos + offset) }
    else
      cell
  else
    cell

/-- A cell that `Remove` leaves to its sequence. -/
def staysCell (seq beginIndex endIndex : Int) (cell : CacheCell) : Bool :=
  seq ∈ cell.sequences ∧ ¬(cell.pos ≥ beginIndex ∧ cell.pos < endIndex)

/-- A cell that stops `Remove`: it would be shifted and another sequence references it. -/
def blocksCell (seq beginIndex endIndex : Int) (cell : CacheCell) : Prop :=
  seq ∈ cell.sequences ∧ ¬(cell.pos ≥ beginIndex ∧ cell.pos < endIndex) ∧ cell.pos ≥ endIndex ∧
    ∃ s ∈ cell.sequences, s ≠ seq

/-- The loop gets past a cell that does not stop it. -/
theorem removeFrom_pass (seq b e off : Int) (x : CacheCell) (cells : List CacheCell) (i : Nat) (r : CellRange)
    (h : ¬blocksCell seq b e x) : removeFrom seq b e off (x :: cells) i r =
      (removeCell seq b e off x ::
          (removeFrom seq b e off cells (i + 1) (if staysCell seq b e x then r.extend i else r)).1,
        (removeFrom seq b e off cells (i + 1) (if staysCell seq b e x then r.extend i else r)).2) := by
  by_cases hs : seq ∈ x.sequences
  · by_cases hin : x.pos ≥ b ∧ x.pos < e
    · simp [removeFrom, removeCell, staysCell, hs, hin]
    · have hstay : staysCell seq b e x = true := decide_eq_true ⟨hs, hin⟩
      by_cases hge : x.pos ≥ e
      · have hany : ¬x.sequences.any (· ≠ seq) = true := by
          intro hany
          simp only [List.any_eq_true, decide_eq_true_eq] at hany
          exact h ⟨hs, hin, hge, hany⟩
        simp only [removeFrom, removeCell, hstay, if_true, if_pos hs, if_neg hin, if_pos hge, if_neg hany]
      · simp only [removeFrom, removeCell, hstay, if_true, if_pos hs, if_neg hin, if_neg hge]
  · simp [removeFrom, removeCell, staysCell, hs]

/-- The loop ends at a cell that stops it. -/
theorem removeFrom_block (seq b e off : Int) (x : CacheCell) (cells : List CacheCell) (i : Nat) (r : CellRange)
    (h : blocksCell seq b e x) : removeFrom seq b e off (x :: cells) i r = (x :: cells, r, true) := by
  obtain ⟨hs, hin, hge, hany⟩ := h
  have hany' : x.sequences.any (· ≠ seq) = true := by
    simpa only [List.any_eq_true, decide_eq_true_eq] using hany
  simp only [removeFrom, if_pos hs, if_neg hin, if_pos hge, if_pos hany']

/-- How the loop of `Remove` ends: past every cell, with the range of those that stay, or at the first cell that stops
it, with the cells from there on as they were. -/
theorem removeFrom_cases (seq b e off : Int) (cells : List CacheCell) (i : Nat) (r : CellRange) :
    (removeFrom seq b e off cells i r = (cells.map (removeCell seq b e off),
      rangeFrom (staysCell seq b e) cells i r, false) ∧ ∀ x ∈ cells, ¬blocksCell seq b e x) ∨
    (∃ pre x post, cells = pre ++ x :: post ∧ blocksCell seq b e x ∧ (∀ y ∈ pre, ¬blocksCell seq b e y) ∧
      (removeFrom seq b e off cells i r).1 = pre.map (removeCell seq b e off) ++ x :: post ∧
      (removeFrom seq b e off cells i r).2.2 = true) := by
  induction cells generalizing i r with
  | nil => exact Or.inl ⟨rfl, by simp⟩
  | cons x cells ih =>
    by_cases hx : blocksCell seq b e x
    · rw [removeFrom_block seq b e off x cells i r hx]
      exact Or.inr ⟨[], x, cells, rfl, hx, by simp, rfl, rfl⟩
    · rw [removeFrom_pass seq b e off x cells i r hx]
      rcases ih (i + 1) (if staysCell seq b e x then r.extend i else r) with ⟨h1, h2⟩ |
        ⟨pre, z, post, h1, h2, h3, h4, h5⟩
      · refine Or.inl ⟨by rw [h1]; rfl, ?_⟩
        intro z hz
        rcases List.mem_cons.1 hz with rfl | hz
        · exact hx
        · exact h2 z hz
      · refine Or.inr ⟨x :: pre, z, post, by rw [h1]; rfl, h2, ?_, by rw [h4]; rfl, h5⟩
        intro y hy
        rcases List.mem_cons.1 hy with rfl | hy
        · exact hx
        · exact h3 y hy

theorem removeCell_default (seq b e off : Int) : removeCell seq b e off {} = {} := by
  simp [removeCell]

/-- `Remove` gives a cell to no sequence. -/
theorem mem_of_mem_removeCell {seq b e off s : Int} {cell : CacheCell}
    (h : s ∈ (removeCell seq b e off cell).sequences) : s ∈ cell.sequences := by
  unfold removeCell at h
  split at h
  · split at h
    · exact (List.mem_filter.1 h).1
    · split at h <;> exact h
  · exact h

/-- The sequence itself keeps a cell exactly when the cell stays. -/
theorem mem_removeCell_self (seq b e off : Int) (cell : CacheCell) :
    seq ∈ (removeCell seq b e off cell).sequences ↔ staysCell seq b e cell = true := by
  unfold removeCell staysCell
  by_cases hs : seq ∈ cell.sequences
  · by_cases hin : cell.pos ≥ b ∧ cell.pos < e
    · simp [hs, hin]
    · simp only [if_pos hs, if_neg hin]
      split <;> simp [hs, hin]
  · simp [hs]

end Ollama.Kvcache
