import Ollama.Kvcache.KvMap

/-!
# What each call does to the entries

`Causal.Holds` is the map of a cache as a relation, without asking that positions are distinct. One lemma for each
call says which entries it leaves; where positions are distinct the relation is the map (`view_eq_some_iff`).
-/

namespace Ollama.Kvcache

open Lib

variable {κ ν : Type}

/-! ## The cells of a batch -/

/-- `StartForward` when it finds a place at once: the batch is written over empty cells, and nothing else changes. -/
theorem startForward_cell {ctx : Ctx} {positions seqs : List Int} {c c' : Causal κ ν} {err : Option Err}
    (hq : { c with curBatchSize := positions.length }.findStartLoc ≠ none)
    (hs : c.startForward ctx positions seqs = some (c', err)) :
    ∃ loc, positions.length ≤ seqs.length ∧ (∀ j, loc ≤ j → j < loc + positions.length → (c.cell j).empty) ∧
      c'.layers = c.layers ∧ c'.curLoc = loc ∧ c'.curBatchSize = positions.length ∧
      ∀ j, c'.cell j = if loc ≤ j then
        (((positions.zip seqs)[j - loc]?).map (fun x => (⟨x.1, [x.2]⟩ : CacheCell))).getD (c.cell j) else c.cell j := by
  simp only [Causal.startForward] at hs
  split at hs
  · rename_i loc hloc
    obtain ⟨hle, hempty⟩ := findStartLoc_spec hloc
    obtain ⟨hlen, _, hb⟩ := place_eq hs
    clear hs
    obtain ⟨range, mask, rfl⟩ := buildMask_frame hb
    clear hb
    have hzip : (positions.zip seqs).length = positions.length := by
      rw [List.length_zip]
      omega
    obtain ⟨_, _, _, f4, f5, _, f7, _⟩ := store_frame (positions.zip seqs)
      { c with curBatchSize := positions.length, curLoc := loc, curCellRange := newRange } loc
    exact ⟨loc, hlen, hempty, f7, f5, f4, store_cell (positions.zip seqs)
      { c with curBatchSize := positions.length, curLoc := loc, curCellRange := newRange } loc (hzip.symm ▸ hle)⟩
  · rename_i hnone
    exact absurd hnone hq

/-- The locations of a batch that has been stored, and the others. -/
theorem stored_cell {positions seqs : List Int} {c c' : Causal κ ν} {loc : Nat}
    (hcell : ∀ j, c'.cell j = if loc ≤ j then
      (((positions.zip seqs)[j - loc]?).map (fun x => (⟨x.1, [x.2]⟩ : CacheCell))).getD (c.cell j) else c.cell j)
    (s : Int) (j : Nat) :
    s ∈ (c'.cell j).sequences ↔
      (s ∈ (c.cell j).sequences ∧ c'.cell j = c.cell j ∧ (j < loc ∨ loc + (positions.zip seqs).length ≤ j)) ∨
      ∃ i p, j = loc + i ∧ (positions.zip seqs)[i]? = some (p, s) ∧ c'.cell j = ⟨p, [s]⟩ := by
  by_cases hin : loc ≤ j ∧ j - loc < (positions.zip seqs).length
  · obtain ⟨hle, hlt⟩ := hin
    have hget := List.getElem?_eq_getElem hlt
    have hj := hcell j
    rw [if_pos hle, hget] at hj
    simp only [Option.map_some, Option.getD_some] at hj
    constructor
    · intro hs
      rw [hj, List.mem_singleton] at hs
      exact Or.inr ⟨j - loc, (positions.zip seqs)[j - loc].1, by omega, by rw [hget, hs], by rw [hj, hs]⟩
    · rintro (⟨_, _, h⟩ | ⟨i, p, _, _, h⟩)
      · omega
      · rw [h]
        exact List.mem_singleton.2 rfl
  · have hj : c'.cell j = c.cell j := by
      rw [hcell j]
      split
      · rw [List.getElem?_eq_none (by omega)]
        rfl
      · rfl
    constructor
    · intro hs
      exact Or.inl ⟨hj ▸ hs, hj, by omega⟩
    · rintro (⟨h, _, _⟩ | ⟨i, p, hji, hget, _⟩)
      · rw [hj]
        exact h
      · have := (List.getElem?_eq_some_iff.1 hget).1
        omega

variable [Zero κ] [Zero ν] {n : Nat}

/-! ## Entries -/

/-- Some location holds the row for the sequence at the position. -/
def Causal.Holds (n : Nat) (c : Causal κ ν) (s p : Int) (r : Row n κ ν) : Prop :=
  ∃ j, s ∈ (c.cell j).sequences ∧ (c.cell j).pos = p ∧ c.row n j = r

/-- Where positions are distinct, the map of a cache has the entries its locations hold. -/
theorem view_eq_some_iff {c : Causal κ ν} (hd : c.Distinct) (s p : Int) (r : Row n κ ν) :
    c.view n s p = some r ↔ c.Holds n s p r := by
  simp only [Causal.view, Option.map_eq_some_iff]
  constructor
  · rintro ⟨j, hj, hr⟩
    have := List.find?_some hj
    simp only [decide_eq_true_eq] at this
    exact ⟨j, this.1, this.2, hr⟩
  · rintro ⟨j, hs, hp, hr⟩
    have hsome : ((List.range c.cells.length).find? (fun j => s ∈ (c.cell j).sequences ∧
      (c.cell j).pos = p)).isSome := by
      rw [List.find?_isSome]
      exact ⟨j, List.mem_range.2 (lt_length_of_mem hs), decide_eq_true ⟨hs, hp⟩⟩
    obtain ⟨j', hj'⟩ := Option.isSome_iff_exists.1 hsome
    have hj := List.find?_some hj'
    simp only [decide_eq_true_eq] at hj
    have : j' = j := hd s j' j hj.1 hs (hj.2.trans hp.symm)
    exact ⟨j', hj', this ▸ hr⟩

/-- Two caches with distinct positions that hold the same entries for a sequence have the same map there. -/
theorem view_congr {c c' : Causal κ ν} (hd : c.Distinct) (hd' : c'.Distinct) {s : Int}
    (h : ∀ p r, c'.Holds n s p r ↔ c.Holds n s p r) : c'.view n s = c.view n s := by
  funext p
  apply Option.ext
  intro r
  rw [view_eq_some_iff hd', view_eq_some_iff hd]
  exact h p r

/-! ## Put -/

theorem layer_setLayer (c : Causal κ ν) (l i : Nat) : (c.setLayer l).layer i = c.layer i := by
  unfold Causal.layer Causal.setLayer
  by_cases hi : i < c.layers.length
  · simp [List.getElem?_append_left hi]
  · rw [List.getElem?_append_right (by omega), List.getElem?_eq_none (by omega : c.layers.length ≤ i)]
    rcases hx : (List.replicate (l + 1 - c.layers.length) (none : Option (Layer κ ν)))[i - c.layers.length]? with _ | x
    · rfl
    · have := List.eq_of_mem_replicate (List.mem_of_getElem? hx)
      rw [this]
      rfl

/-- What `Put` writes: the rows of the batch, at the batch's locations of the current layer. -/
theorem put_layer {c c' : Causal κ ν} {rows : List (κ × ν)} (h : c.put rows = some c') :
    rows.length = c.curBatchSize ∧ c'.cells = c.cells ∧ c'.curLoc = c.curLoc ∧ c'.curBatchSize = c.curBatchSize ∧
      ∀ i, c'.layer i = if i = c.curLayer then
        ⟨putRows (rows.map Prod.fst) c.curLoc (c.layer i).key, putRows (rows.map Prod.snd) c.curLoc (c.layer i).value⟩
      else c.layer i := by
  simp only [Causal.put] at h
  split at h
  · cases h
  · rename_i hlen
    split at h
    · cases h
    · rename_i l hl
      simp only [Option.some.injEq] at h
      subst h
      refine ⟨by omega, rfl, rfl, rfl, fun i => ?_⟩
      obtain ⟨hlt, hget⟩ := List.getElem?_eq_some_iff.1 hl
      by_cases hi : i = c.curLayer
      · subst hi
        simp [Causal.layer, hlt, hget]
      · simp [Causal.layer, List.getElem?_set_ne (Ne.symm hi), hi]

/-- What the calls of `Put` for each layer from `i` on write. -/
theorem putLayers_layer {rows : List (List (κ × ν))} {i : Nat} {c c' : Causal κ ν} (h : c.putLayers rows i = some c') :
    (∀ x ∈ rows, x.length = c.curBatchSize) ∧ c'.cells = c.cells ∧
      ∀ l, c'.layer l = if h : i ≤ l ∧ l - i < rows.length then
        ⟨putRows (rows[l - i].map Prod.fst) c.curLoc (c.layer l).key,
          putRows (rows[l - i].map Prod.snd) c.curLoc (c.layer l).value⟩
      else c.layer l := by
  induction rows generalizing i c with
  | nil =>
    simp only [Causal.putLayers, Option.some.injEq] at h
    subst h
    simp
  | cons x rows ih =>
    simp only [Causal.putLayers, Option.bind_eq_some_iff] at h
    obtain ⟨c₁, hput, hrest⟩ := h
    obtain ⟨hlen, hcells, hloc, hbatch, hlayer⟩ := put_layer hput
    obtain ⟨ihlen, ihcells, ihlayer⟩ := ih hrest
    refine ⟨?_, ihcells.trans hcells, fun l => ?_⟩
    · intro y hy
      rcases List.mem_cons.1 hy with rfl | hy
      · exact hlen
      · exact (ihlen y hy).trans hbatch
    · have hl := hlayer l
      rw [layer_setLayer] at hl
      have hcur : (c.setLayer i).curLayer = i := rfl
      have hcurLoc : (c.setLayer i).curLoc = c.curLoc := rfl
      rw [hcur, hcurLoc] at hl
      rw [hcurLoc] at hloc
      rw [ihlayer l]
      by_cases hli : l = i
      · subst hli
        rw [dif_neg (by omega), hl, if_pos rfl, dif_pos (by simp)]
        simp
      · rw [if_neg hli] at hl
        by_cases hin : i + 1 ≤ l ∧ l - (i + 1) < rows.length
        · have hidx : l - i = l - (i + 1) + 1 := by omega
          rw [dif_pos hin, dif_pos (by simp only [List.length_cons]; omega), hl, hloc]
          simp only [hidx, List.getElem_cons_succ]
        · rw [dif_neg hin, dif_neg (by simp only [List.length_cons]; omega), hl]

/-- The row `Put` for each layer leaves at a location of the batch. -/
theorem row_putLayers_of_mem {rows : List (List (κ × ν))} {c c' : Causal κ ν} (h : c.putLayers rows 0 = some c')
    (hn : rows.length = n) {i : Nat} (hi : i < c.curBatchSize) : c'.row n (c.curLoc + i) = batchRow n rows i := by
  obtain ⟨hlen, _, hlayer⟩ := putLayers_layer h
  funext l
  have hl : l.val < rows.length := hn ▸ l.isLt
  have hrow : i < rows[l.val].length := (hlen _ (List.getElem_mem hl)).symm ▸ hi
  simp only [Causal.row, hlayer, Nat.sub_zero, Nat.zero_le, true_and, hl, dif_pos, batchRow]
  rw [putRows_of_mem _ _ _ _ (by simpa using hrow), putRows_of_mem _ _ _ _ (by simpa using hrow)]
  simp [hl, hrow]

/-- The rows `Put` for each layer leaves at the other locations. -/
theorem row_putLayers_of_not_mem {rows : List (List (κ × ν))} {c c' : Causal κ ν} (h : c.putLayers rows 0 = some c')
    {j : Nat} (hj : j < c.curLoc ∨ c.curLoc + c.curBatchSize ≤ j) : c'.row n j = c.row n j := by
  obtain ⟨hlen, _, hlayer⟩ := putLayers_layer h
  funext l
  simp only [Causal.row, hlayer]
  split
  · rename_i hl
    have hrow := hlen _ (List.getElem_mem hl.2)
    dsimp only
    rw [putRows_of_not_mem _ _ _ _ (by rw [List.length_map]; omega),
      putRows_of_not_mem _ _ _ _ (by rw [List.length_map]; omega)]
  · rfl

/-! ## Forward -/

theorem row_of_layers {c c' : Causal κ ν} (h : c'.layers = c.layers) (j : Nat) : c'.row n j = c.row n j := by
  unfold Causal.row Causal.layer
  rw [h]

/-- The entries of a cache after a batch is written over empty cells, when the rows elsewhere stay. -/
theorem stored_holds {positions seqs : List Int} {c c' : Causal κ ν} {loc : Nat}
    (hempty : ∀ j, loc ≤ j → j < loc + (positions.zip seqs).length → (c.cell j).empty)
    (hcell : ∀ j, c'.cell j = if loc ≤ j then
      (((positions.zip seqs)[j - loc]?).map (fun x => (⟨x.1, [x.2]⟩ : CacheCell))).getD (c.cell j) else c.cell j)
    (hrow : ∀ j, j < loc ∨ loc + (positions.zip seqs).length ≤ j → c'.row n j = c.row n j) (s p : Int) (r : Row n κ ν) :
    c'.Holds n s p r ↔ c.Holds n s p r ∨ ∃ i, (positions.zip seqs)[i]? = some (p, s) ∧ c'.row n (loc + i) = r := by
  constructor
  · rintro ⟨j, hsj, hp, hr⟩
    rcases (stored_cell hcell s j).1 hsj with ⟨hold, hsame, hj⟩ | ⟨i, q, rfl, hget, hnew⟩
    · exact Or.inl ⟨j, hold, hsame ▸ hp, hrow j hj ▸ hr⟩
    · rw [hnew] at hp
      exact Or.inr ⟨i, hp ▸ hget, hr⟩
  · rintro (⟨j, hsj, hp, hr⟩ | ⟨i, hget, hr⟩)
    · -- the locations of the batch were empty, so the entry is at another
      have hj : j < loc ∨ loc + (positions.zip seqs).length ≤ j := by
        by_contra hno
        have := hempty j (by omega) (by omega)
        rw [empty_iff] at this
        rw [this] at hsj
        nomatch hsj
      have hsame : c'.cell j = c.cell j := by
        rw [hcell j]
        split
        · rw [List.getElem?_eq_none (by omega)]
          rfl
        · rfl
      exact ⟨j, hsame ▸ hsj, hsame ▸ hp, (hrow j hj).trans hr⟩
    · have hnew : c'.cell (loc + i) = ⟨p, [s]⟩ := by
        rw [hcell, if_pos (Nat.le_add_right _ _), Nat.add_sub_cancel_left, hget]
        rfl
      refine ⟨loc + i, ?_, ?_, hr⟩
      · rw [hnew]
        exact List.mem_singleton.2 rfl
      · rw [hnew]

/-- The entries after a forward pass, with or without an error: the old ones and some for the batch, which are the
rows of the batch when there is no error. -/
theorem forward_holds {ctx : Ctx} {positions seqs : List Int} {rows : List (List (κ × ν))} {c c' : Causal κ ν}
    {err : Option Err} (hq : { c with curBatchSize := positions.length }.findStartLoc ≠ none) (hn : rows.length = n)
    (h : c.forward ctx positions seqs rows = some (c', err)) :
    ∃ row : Nat → Row n κ ν, (∀ s p r, c'.Holds n s p r ↔
        c.Holds n s p r ∨ ∃ i, (positions.zip seqs)[i]? = some (p, s) ∧ row i = r) ∧
      (err = none → ∀ i, i < (positions.zip seqs).length → row i = batchRow n rows i) := by
  unfold Causal.forward at h
  split at h
  · rename_i c₁ hs
    simp only [Option.map_eq_some_iff, Prod.mk.injEq] at h
    obtain ⟨c'', hput, rfl, rfl⟩ := h
    obtain ⟨loc, hlen, hempty, hlayers, hloc, hbatch, hcell⟩ := startForward_cell hq hs
    have hzip : (positions.zip seqs).length = positions.length := by
      rw [List.length_zip]
      omega
    refine ⟨fun i => c''.row n (loc + i), stored_holds (hzip.symm ▸ hempty) (fun j => ?_) (fun j hj => ?_),
      fun _ i hi => ?_⟩
    · rw [← hcell j]
      unfold Causal.cell
      rw [(putLayers_layer hput).2.1]
    · rw [row_putLayers_of_not_mem hput (by rw [hloc, hbatch, ← hzip]; exact hj), row_of_layers hlayers]
    · rw [← hloc]
      exact row_putLayers_of_mem hput hn (by rw [hbatch, ← hzip]; exact hi)
  · rename_i hno
    have herr : err ≠ none := by
      rintro rfl
      exact hno c' h
    obtain ⟨loc, hlen, hempty, hlayers, hloc, hbatch, hcell⟩ := startForward_cell hq h
    have hzip : (positions.zip seqs).length = positions.length := by
      rw [List.length_zip]
      omega
    exact ⟨fun i => c'.row n (loc + i), stored_holds (hzip.symm ▸ hempty) hcell (fun j _ => row_of_layers hlayers j),
      fun he => absurd he herr⟩

/-! ## CopyPrefix -/

/-- `CopyPrefix` gives `dst` the entries of `src` below `len`, and no other sequence any. -/
theorem copyPrefix_holds {src dst len : Int} (hne : src ≠ dst) (c : Causal κ ν) (s p : Int) (r : Row n κ ν) :
    (c.copyPrefix src dst len).Holds n s p r ↔ if s = dst then c.Holds n src p r ∧ p < len else c.Holds n s p r := by
  have hrow : ∀ j, (c.copyPrefix src dst len).row n j = c.row n j := fun j => rfl
  have hmem : ∀ j, s ∈ ((c.copyPrefix src dst len).cell j).sequences ↔
      if s = dst then src ∈ (c.cell j).sequences ∧ (c.cell j).pos < len else s ∈ (c.cell j).sequences := by
    intro j
    rw [copyPrefix_cell, mem_copyCell]
    simp only [hne, ne_eq, not_false_eq_true, true_and]
  have hpos : ∀ j, ((c.copyPrefix src dst len).cell j).pos = (c.cell j).pos := fun j => by
    rw [copyPrefix_cell, copyCell_pos]
  simp only [Causal.Holds, hrow, hmem, hpos]
  by_cases hs : s = dst
  · simp only [hs, if_true]
    constructor
    · rintro ⟨j, ⟨h1, h2⟩, rfl, h4⟩
      exact ⟨⟨j, h1, rfl, h4⟩, h2⟩
    · rintro ⟨⟨j, h1, rfl, h4⟩, h2⟩
      exact ⟨j, ⟨h1, h2⟩, rfl, h4⟩
  · simp only [hs, if_false]

/-! ## Remove -/

/-- The shift function leaves keys that do not move as they are. -/
def ShiftsByOffset (shiftFn : Option (Nat → κ → Int → κ)) : Prop := ∀ f, shiftFn = some f → ∀ i k, f i k 0 = k

omit [Zero κ] [Zero ν] in
theorem rotateRow_zero {c : Causal κ ν} (hf : ShiftsByOffset c.shiftFn) (r : Row n κ ν) : c.rotateRow 0 r = r := by
  funext i
  unfold Causal.rotateRow
  split
  · rename_i f h
    rw [hf f h]
    split <;> rfl
  · rfl

omit [Zero κ] [Zero ν] in
/-- A layer lies beyond the ones of the cache, holds no tensors or holds some. -/
theorem layer_cases (c : Causal κ ν) (i : Nat) :
    c.layers[i]? = none ∨ c.layers[i]? = some none ∨ ∃ l, c.layers[i]? = some (some l) := by
  rcases c.layers[i]? with _ | _ | l
  · exact Or.inl rfl
  · exact Or.inr (Or.inl rfl)
  · exact Or.inr (Or.inr ⟨l, rfl⟩)

/-- The rows `shift` leaves: those of the range of the sequence are rotated, by `offset` or by 0. -/
theorem shift_row {ctx : Ctx} {seq beginIndex offset : Int} {c c' : Causal κ ν}
    (h : c.shift ctx seq beginIndex offset = some (c', none)) (j : Nat) :
    c'.row n j = if ((c.cellRanges seq).getD ⟨0, 0⟩).Covers j then
      c.rotateRow (if seq ∈ (c.cell j).sequences ∧ (c.cell j).pos ≥ beginIndex then offset else 0) (c.row n j)
    else c.row n j := by
  simp only [Causal.shift] at h
  split at h
  · simp at h
  · rename_i f hf
    split at h
    · cases h
    · split at h
      · simp at h
      · simp only [Option.some.injEq, Prod.mk.injEq, and_true] at h
        subst h
        by_cases hj : ((c.cellRanges seq).getD ⟨0, 0⟩).Covers j
        · rw [if_pos hj]
          unfold CellRange.Covers at hj
          funext i
          simp only [Causal.row, Causal.layer, Causal.rotateRow, Causal.stored, hf, List.getElem?_mapIdx]
          rcases layer_cases c i with hl | hl | ⟨l, hl⟩
          · simp [hl]
          · simp [hl]
          · simp [hl, hj]
        · rw [if_neg hj]
          unfold CellRange.Covers at hj
          funext i
          simp only [Causal.row, Causal.layer, List.getElem?_mapIdx]
          rcases layer_cases c i with hl | hl | ⟨l, hl⟩
          · simp [hl]
          · simp [hl]
          · simp [hl, hj]

omit [Zero κ] [Zero ν] in
/-- How `Remove` ends: at a shared cell, or past every cell, with the rows as they were or shifted. -/
theorem remove_cases {ctx : Ctx} {seq b e off : Int} {c c' : Causal κ ν} {err : Option Err} (hinv : CacheInv c)
    (hoff : off = if e ≠ maxInt32 then int32 (b - e) else 0) (hr : c.remove ctx seq b e = some (c', err)) :
    (c'.cells = (removeFrom seq b e off c.cells 0 newRange).1 ∧ c'.layers = c.layers ∧ err = some .sharedCells) ∨
    ((∀ j, ¬blocksCell seq b e (c.cell j)) ∧ (∀ j, c'.cell j = removeCell seq b e off (c.cell j)) ∧
      ((c'.layers = c.layers ∧ (err = none → e ≠ maxInt32 → ∀ j, seq ∉ (c'.cell j).sequences)) ∨
        ∃ c₁ : Causal κ ν, c₁.layers = c.layers ∧ c₁.shiftFn = c.shiftFn ∧ c₁.cells = c'.cells ∧
          (∀ j, seq ∈ (c'.cell j).sequences → ((c₁.cellRanges seq).getD ⟨0, 0⟩).Covers j) ∧
          e ≠ maxInt32 ∧ err = none ∧ c₁.shift ctx seq (int32 (e + off)) off = some (c', none))) := by
  simp only [Causal.remove] at hr
  rw [← hoff] at hr
  rcases removeFrom_cases seq b e off c.cells 0 newRange with ⟨hout, hno⟩ | ⟨_, _, _, _, _, _, _, hflag⟩
  · right
    have hblock : ∀ j, ¬blocksCell seq b e (c.cell j) := by
      intro j hj
      have hlt := lt_length_of_mem hj.1
      rw [Causal.cell, cellAt_eq_getElem hlt] at hj
      exact hno _ (List.getElem_mem hlt) hj
    have hcell : ∀ j, cellAt (c.cells.map (removeCell seq b e off)) j = removeCell seq b e off (c.cell j) :=
      fun j => cellAt_map _ _ (removeCell_default _ _ _ _) j
    have hself : ∀ j, seq ∈ (removeCell seq b e off (c.cell j)).sequences →
        (rangeFrom (staysCell seq b e) c.cells 0 newRange).Covers j := fun j hj =>
      rangeFrom_covers_zero _ _ (lt_length_of_mem (mem_of_mem_removeCell hj)) ((mem_removeCell_self seq b e off _).1 hj)
    simp only [hout, Bool.false_eq_true, if_false] at hr
    refine ⟨hblock, ?_⟩
    split at hr
    · rename_i hnew
      simp only [Option.some.injEq, Prod.mk.injEq] at hr
      obtain ⟨rfl, _⟩ := hr
      refine ⟨hcell, Or.inl ⟨rfl, fun _ _ j hj => ?_⟩⟩
      have hj' : seq ∈ (cellAt (c.cells.map (removeCell seq b e off)) j).sequences := hj
      rw [hcell] at hj'
      have hlt : j < c.capacity := hinv.length ▸ lt_length_of_mem (mem_of_mem_removeCell hj')
      exact ne_newRange_of_covers (hself j hj') (Nat.lt_trans hlt hinv.small) hnew
    · split at hr
      · rename_i he
        obtain ⟨ls, hls, hfail⟩ := shift_frame hr
        have hc' : ∀ j, c'.cell j = removeCell seq b e off (c.cell j) := fun j => by
          rw [hls]
          exact hcell j
        refine ⟨hc', ?_⟩
        cases err with
        | none =>
          refine Or.inr ⟨{ c with
            cells := c.cells.map (removeCell seq b e off)
            cellRanges := Function.update c.cellRanges seq (some (rangeFrom (staysCell seq b e) c.cells 0 newRange)) },
            rfl, rfl, by rw [hls], fun j hj => ?_, he, rfl, hr⟩
          simp only [Function.update_self, Option.getD_some]
          exact hself j (hc' j ▸ hj)
        | some err =>
          refine Or.inl ⟨?_, fun hnone => (by cases hnone)⟩
          rw [hls]
          exact hfail (fun hnone => by cases hnone)
      · rename_i he
        simp only [Option.some.injEq, Prod.mk.injEq] at hr
        obtain ⟨rfl, _⟩ := hr
        exact ⟨hcell, Or.inl ⟨rfl, fun _ h => absurd h he⟩⟩
  · left
    simp only [hflag, if_true, Option.some.injEq, Prod.mk.injEq] at hr
    obtain ⟨rfl, rfl⟩ := hr
    exact ⟨rfl, rfl, rfl⟩

/-- The offset of a removal, as an integer. -/
def removeOffset (b e : Int) : Int := if e ≠ maxInt32 then b - e else 0

/-- Offsets of removals of blocks of positions do not wrap around. -/
theorem int32_removeOffset {b e : Int} (hb : 0 ≤ b) (hbe : b ≤ e) (he : e ≤ maxInt32) :
    removeOffset b e = (if e ≠ maxInt32 then int32 (b - e) else 0) ∧ int32 (e + (b - e)) = b := by
  unfold removeOffset int32 maxInt32 at *
  constructor
  · split
    · rw [Int.bmod_eq_of_le] <;> omega
    · rfl
  · rw [Int.bmod_eq_of_le] <;> omega

/-- A cell that is kept for another sequence keeps its position. -/
theorem removeCell_of_ne {seq b e s : Int} (off : Int) {cell : CacheCell} (hs : s ≠ seq)
    (hb : ¬blocksCell seq b e cell) :
    (s ∈ (removeCell seq b e off cell).sequences ↔ s ∈ cell.sequences) ∧
      (s ∈ cell.sequences → (removeCell seq b e off cell).pos = cell.pos) := by
  unfold removeCell
  by_cases hm : seq ∈ cell.sequences
  · by_cases hin : cell.pos ≥ b ∧ cell.pos < e
    · simp [hm, hin, hs]
    · by_cases hge : cell.pos ≥ e
      · simp only [if_pos hm, if_neg hin, if_pos hge, true_and]
        exact fun h => absurd ⟨hm, hin, hge, s, h, hs⟩ hb
      · simp [hm, hin, hge]
  · simp [hm]

/-- A cell that stays with the sequence: it lies before the block or after it, and moves in the second case. -/
theorem removeCell_self {seq b e : Int} {cell : CacheCell} (hb : 0 ≤ b) (hbe : b ≤ e) (he : e ≤ maxInt32)
    (hp : IsInt32 cell.pos) (hm : seq ∈ (removeCell seq b e (removeOffset b e) cell).sequences) :
    seq ∈ cell.sequences ∧ ((cell.pos < b ∧ (removeCell seq b e (removeOffset b e) cell).pos = cell.pos) ∨
      (cell.pos ≥ e ∧ (removeCell seq b e (removeOffset b e) cell).pos = cell.pos + removeOffset b e)) := by
  have hstay := (mem_removeCell_self seq b e _ cell).1 hm
  simp only [staysCell, decide_eq_true_eq] at hstay
  obtain ⟨hs, hin⟩ := hstay
  refine ⟨hs, ?_⟩
  unfold removeCell
  simp only [if_pos hs, if_neg hin]
  by_cases hge : cell.pos ≥ e
  · refine Or.inr ⟨hge, ?_⟩
    simp only [if_pos hge]
    unfold IsInt32 at hp
    unfold maxInt32 at he
    have hoff : removeOffset b e = b - e ∨ removeOffset b e = 0 := by
      unfold removeOffset
      split
      · exact Or.inl rfl
      · exact Or.inr rfl
    unfold int32
    rw [Int.bmod_eq_of_le] <;> omega
  · refine Or.inl ⟨by omega, ?_⟩
    simp only [if_neg hge]

/-! ## What no call changes -/

/-- The capacity and the shift function of a cache. -/
def Causal.fixed (c : Causal κ ν) : Nat × Option (Nat → κ → Int → κ) := (c.capacity, c.shiftFn)

omit [Zero κ] [Zero ν] in
theorem place_fixed {ctx : Ctx} {positions seqs : List Int} {loc : Nat} {c c' : Causal κ ν} {err : Option Err}
    (h : c.place ctx positions seqs loc = some (c', err)) : c'.fixed = c.fixed := by
  obtain ⟨_, _, hb⟩ := place_eq h
  obtain ⟨range, mask, rfl⟩ := buildMask_frame hb
  obtain ⟨h1, _, _, _, _, h6, _⟩ :=
    store_frame (positions.zip seqs) { c with curLoc := loc, curCellRange := newRange } loc
  exact Prod.ext h1 h6

omit [Zero κ] [Zero ν] in
theorem startForward_fixed {ctx : Ctx} {positions seqs : List Int} {c c' : Causal κ ν} {err : Option Err}
    (h : c.startForward ctx positions seqs = some (c', err)) : c'.fixed = c.fixed := by
  simp only [Causal.startForward] at h
  split at h
  · exact (place_fixed h).trans rfl
  · split at h
    · cases h
    · rename_i c₁ hd
      have hfixed : c₁.fixed = c.fixed := by
        simp only [Causal.defrag] at hd
        split at hd
        · cases hd
        · rw [← Option.some.inj hd]
          rfl
      split at h
      · exact (place_fixed h).trans hfixed
      · rw [← (Prod.mk.inj (Option.some.inj h)).1]
        exact hfixed

/-- `Put` for each layer keeps the invariant. -/
theorem putLayers_frame {rows : List (List (κ × ν))} {i : Nat} {c c' : Causal κ ν} (hinv : CacheInv c)
    (h : c.putLayers rows i = some c') : CacheInv c' ∧ c'.fixed = c.fixed := by
  induction rows generalizing i c with
  | nil =>
    simp only [Causal.putLayers, Option.some.injEq] at h
    exact h ▸ ⟨hinv, rfl⟩
  | cons x rows ih =>
    simp only [Causal.putLayers, Option.bind_eq_some_iff] at h
    obtain ⟨c₁, hput, hrest⟩ := h
    obtain ⟨h1, h2⟩ := ih ((hinv.setLayer i).put hput) hrest
    refine ⟨h1, h2.trans ?_⟩
    simp only [Causal.put] at hput
    split at hput
    · cases hput
    · split at hput
      · cases hput
      · simp only [Option.some.injEq] at hput
        rw [← hput]
        rfl

theorem forward_fixed {ctx : Ctx} {positions seqs : List Int} {rows : List (List (κ × ν))} {c c' : Causal κ ν}
    {err : Option Err} (hinv : CacheInv c) (h : c.forward ctx positions seqs rows = some (c', err)) :
    CacheInv c' ∧ c'.fixed = c.fixed := by
  unfold Causal.forward at h
  split at h
  · rename_i c₁ hs
    simp only [Option.map_eq_some_iff, Prod.mk.injEq] at h
    obtain ⟨c'', hput, rfl, _⟩ := h
    obtain ⟨h1, h2⟩ := putLayers_frame (hinv.startForward hs) hput
    exact ⟨h1, h2.trans (startForward_fixed hs)⟩
  · exact ⟨hinv.startForward h, startForward_fixed h⟩

omit [Zero κ] [Zero ν] in
theorem remove_fixed {ctx : Ctx} {seq b e : Int} {c c' : Causal κ ν} {err : Option Err}
    (h : c.remove ctx seq b e = some (c', err)) : c'.fixed = c.fixed := by
  simp only [Causal.remove] at h
  generalize (if e ≠ maxInt32 then int32 (b - e) else 0) = off at h
  split at h
  · rw [← (Prod.mk.inj (Option.some.inj h)).1]
    rfl
  · split at h
    · rw [← (Prod.mk.inj (Option.some.inj h)).1]
      rfl
    · split at h
      · obtain ⟨ls, rfl, _⟩ := shift_frame h
        rfl
      · rw [← (Prod.mk.inj (Option.some.inj h)).1]
        rfl

end Ollama.Kvcache
