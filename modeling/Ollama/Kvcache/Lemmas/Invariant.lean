import Ollama.Kvcache.Lemmas.Defrag
import Ollama.Kvcache.Lemmas.Ops

/-!
# The invariant of the cache

The capacity is a multiple of the padding, every range covers the locations of its sequence, and no range leaves the
cache. It holds after `Init` and every call keeps it, whether the call succeeds or returns an error
(`CacheInv.reachable`).
-/

namespace Ollama.Kvcache

variable {κ ν : Type}

/-- What holds of a cache between any two calls. -/
structure CacheInv (c : Causal κ ν) : Prop where
  length : c.cells.length = c.capacity
  small : c.capacity < 2 ^ 31
  padding : 0 < c.config.cachePadding
  batchPadding : 0 < c.config.maskBatchPadding
  aligned : c.config.cachePadding ∣ c.capacity
  covered : Covered c
  bounded : Bounded c
  window : IsInt32 c.windowSize

/-! ## Rounding -/

/-- Rounding down does not make larger. -/
theorem roundDown_le (x pad : Nat) : roundDown x pad ≤ x := Nat.div_mul_le_self x pad

/-- The padding divides what is rounded down. -/
theorem dvd_roundDown (x pad : Nat) : pad ∣ roundDown x pad := Nat.dvd_mul_left pad _

/-- The padding divides what is rounded up. -/
theorem dvd_roundUp (x pad : Nat) : pad ∣ roundUp x pad := Nat.dvd_mul_left pad _

/-- Rounding up does not make smaller. -/
theorem le_roundUp (x pad : Nat) (h : 0 < pad) : x ≤ roundUp x pad := by
  unfold roundUp
  have h1 := Nat.div_add_mod (x + pad - 1) pad
  have h2 := Nat.mod_lt (x + pad - 1) h
  rw [Nat.mul_comm] at h1
  omega

/-- Rounding up does not pass a multiple of the padding. -/
theorem roundUp_le {x pad n : Nat} (h : 0 < pad) (hx : x ≤ n) (hd : pad ∣ n) : roundUp x pad ≤ n := by
  obtain ⟨k, rfl⟩ := hd
  unfold roundUp
  rw [Nat.mul_comm pad k]
  apply Nat.mul_le_mul_right
  rw [← Nat.lt_succ_iff, Nat.div_lt_iff_lt_mul h, Nat.succ_mul, Nat.mul_comm k pad]
  omega

/-! ## Init -/

/-- `Init` leaves a cache with the invariant. -/
theorem cacheInv_init {windowSize : Int} {shiftFn : Option (Nat → κ → Int → κ)} {config : CacheConfig} {capacity : Nat}
    {c : Causal κ ν} (hw : IsInt32 windowSize) (h : Causal.init windowSize shiftFn config capacity = some c) :
    CacheInv c := by
  unfold Causal.init at h
  rw [Option.ite_none_right_eq_some, Option.some.injEq] at h
  obtain ⟨hs, rfl⟩ := h
  refine ⟨by simp, hs, ?_, ?_, dvd_roundUp _ _, ?_, ?_, hw⟩
  · show 0 < if config.cachePadding = 0 then 1 else config.cachePadding
    split <;> omega
  · show 0 < if config.maskBatchPadding = 0 then 1 else config.maskBatchPadding
    split <;> omega
  · intro j seq hm
    have hj := lt_length_of_mem hm
    rw [Causal.cell, cellAt_eq_getElem hj] at hm
    simp at hm
  · intro seq r hr
    simp at hr

/-! ## Ranges of cells -/

/-- The range of some cells does not go beyond them. -/
theorem rangeFrom_bounded (p : CacheCell → Bool) (cells : List CacheCell) :
    cells.length = 0 ∨ (rangeFrom p cells 0 newRange).max < cells.length := by
  rcases rangeFrom_max p cells 0 newRange with h | h
  · rw [h]
    simp only [newRange]
    omega
  · omega

/-- The range of some cells covers each of them. -/
theorem rangeFrom_covers_zero (p : CacheCell → Bool) (cells : List CacheCell) {j : Nat} (hj : j < cells.length)
    (hp : p (cellAt cells j)) : (rangeFrom p cells 0 newRange).Covers j := by
  have := rangeFrom_covers p cells 0 newRange j hj hp
  rwa [Nat.zero_add] at this

/-- A range that covers a location of a cache is not the range of a sequence that has none. -/
theorem ne_newRange_of_covers {r : CellRange} {j : Nat} (hc : r.Covers j) (hj : j < 2 ^ 31) : r ≠ newRange := by
  rintro rfl
  have := hc.1
  simp only [newRange, maxInt] at this
  omega

/-! ## Each call -/

/-- `SetLayer` keeps the invariant. -/
theorem CacheInv.setLayer {c : Causal κ ν} (h : CacheInv c) (layer : Nat) : CacheInv (c.setLayer layer) :=
  ⟨h.length, h.small, h.padding, h.batchPadding, h.aligned, h.covered, h.bounded, h.window⟩

/-- `Put` keeps the invariant. -/
theorem CacheInv.put [Zero κ] [Zero ν] {c c' : Causal κ ν} (h : CacheInv c) {rows : List (κ × ν)}
    (hp : c.put rows = some c') : CacheInv c' := by
  simp only [Causal.put] at hp
  split at hp
  · nomatch hp
  · split at hp
    · nomatch hp
    · simp only [Option.some.injEq] at hp
      subst hp
      exact ⟨h.length, h.small, h.padding, h.batchPadding, h.aligned, h.covered, h.bounded, h.window⟩

/-- `CopyPrefix` keeps the invariant. -/
theorem CacheInv.copyPrefix {c : Causal κ ν} (h : CacheInv c) (srcSeq dstSeq len : Int) :
    CacheInv (c.copyPrefix srcSeq dstSeq len) := by
  have hlen : (c.copyPrefix srcSeq dstSeq len).cells.length = c.cells.length := by simp [Causal.copyPrefix]
  refine ⟨hlen.trans h.length, h.small, h.padding, h.batchPadding, h.aligned, ?_, ?_, h.window⟩
  · intro j seq hm
    by_cases hs : seq = dstSeq
    · subst hs
      have hj := lt_length_of_mem hm
      refine ⟨_, Function.update_self .., rangeFrom_covers_zero _ _ hj ?_⟩
      exact decide_eq_true hm
    · rw [copyPrefix_cell, mem_copyCell, if_neg hs] at hm
      obtain ⟨r, hr, hc⟩ := h.covered j seq hm
      exact ⟨r, by simpa [Causal.copyPrefix, Function.update_of_ne hs] using hr, hc⟩
  · intro seq r hr
    by_cases hs : seq = dstSeq
    · subst hs
      simp only [Causal.copyPrefix, Function.update_self, Option.some.injEq] at hr
      rw [← hr]
      exact rangeFrom_bounded _ _
    · simp only [Causal.copyPrefix, Function.update_of_ne hs] at hr
      rw [hlen]
      exact h.bounded seq r hr

/-- What `shift` leaves alone: everything but the keys, and these too when it fails. -/
theorem shift_frame {ctx : Ctx} {seq beginIndex offset : Int} {c c' : Causal κ ν} {err : Option Err}
    (hs : c.shift ctx seq beginIndex offset = some (c', err)) :
    ∃ ls, c' = { c with layers := ls } ∧ (err ≠ none → ls = c.layers) := by
  simp only [Causal.shift] at hs
  split at hs
  · simp only [Option.some.injEq, Prod.mk.injEq] at hs
    exact ⟨c.layers, hs.1.symm, fun _ => rfl⟩
  · split at hs
    · nomatch hs
    · split at hs
      · simp only [Option.some.injEq, Prod.mk.injEq] at hs
        exact ⟨c.layers, hs.1.symm, fun _ => rfl⟩
      · simp only [Option.some.injEq, Prod.mk.injEq] at hs
        exact ⟨_, hs.1.symm, fun he => absurd hs.2.symm he⟩

/-- The invariant says nothing of the layers. -/
theorem CacheInv.withLayers {c : Causal κ ν} (h : CacheInv c) (ls : Layers κ ν) : CacheInv { c with layers := ls } :=
  ⟨h.length, h.small, h.padding, h.batchPadding, h.aligned, h.covered, h.bounded, h.window⟩

/-- The cells `Remove` leaves: each is as it was or what `Remove` makes of it. -/
theorem removeFrom_cell (seq b e off : Int) (cells : List CacheCell) (j : Nat) :
    (removeFrom seq b e off cells 0 newRange).1.length = cells.length ∧
      (cellAt (removeFrom seq b e off cells 0 newRange).1 j = cellAt cells j ∨
        (cellAt (removeFrom seq b e off cells 0 newRange).1 j = removeCell seq b e off (cellAt cells j) ∧
          ¬blocksCell seq b e (cellAt cells j))) := by
  rcases removeFrom_cases seq b e off cells 0 newRange with ⟨h, hno⟩ | ⟨pre, x, post, hcells, _, hpre, h, _⟩
  · rw [h]
    refine ⟨by simp, ?_⟩
    rw [cellAt_map _ _ (removeCell_default _ _ _ _)]
    by_cases hj : j < cells.length
    · refine Or.inr ⟨rfl, hno _ ?_⟩
      rw [cellAt_eq_getElem hj]
      exact List.getElem_mem hj
    · rw [cellAt_eq_default (by omega), removeCell_default]
      exact Or.inl rfl
  · rw [h, hcells]
    refine ⟨by simp, ?_⟩
    by_cases hj : j < pre.length
    · refine Or.inr ⟨?_, hpre _ ?_⟩
      · simp [cellAt, List.getElem?_append_left, hj]
      · simp [cellAt, List.getElem?_append_left, hj]
    · left
      simp [cellAt, List.getElem?_append_right (by omega : pre.length ≤ j),
        List.getElem?_append_right (by simp; omega : (pre.map (removeCell seq b e off)).length ≤ j)]

/-- `Remove` gives no cell to a sequence, whether it gets past every cell or not. -/
theorem mem_of_mem_removeFrom {seq b e off s : Int} {cells : List CacheCell} {j : Nat}
    (h : s ∈ (cellAt (removeFrom seq b e off cells 0 newRange).1 j).sequences) : s ∈ (cellAt cells j).sequences := by
  rcases (removeFrom_cell seq b e off cells j).2 with hc | ⟨hc, _⟩
  · rwa [hc] at h
  · rw [hc] at h
    exact mem_of_mem_removeCell h

/-- `Remove` keeps the invariant, also when it fails. -/
theorem CacheInv.remove {ctx : Ctx} {seq b e : Int} {c c' : Causal κ ν} {err : Option Err} (h : CacheInv c)
    (hr : c.remove ctx seq b e = some (c', err)) : CacheInv c' := by
  simp only [Causal.remove] at hr
  generalize hoff : (if e ≠ maxInt32 then int32 (b - e) else 0) = off at hr
  generalize hout : removeFrom seq b e off c.cells 0 newRange = out at hr
  have hlen : out.1.length = c.cells.length := by
    rw [← hout]
    exact (removeFrom_cell seq b e off c.cells 0).1
  have hmem : ∀ j s, s ∈ (cellAt out.1 j).sequences → s ∈ (c.cell j).sequences := by
    intro j s hs
    rw [← hout] at hs
    exact mem_of_mem_removeFrom hs
  -- the cache with the cells `Remove` leaves and the ranges of another cache
  have base : ∀ ranges : Int → Option CellRange,
      (∀ j s, s ∈ (cellAt out.1 j).sequences → ∃ r, ranges s = some r ∧ r.Covers j) →
      (∀ s r, ranges s = some r → c.cells.length = 0 ∨ r.max < c.cells.length) →
      CacheInv { c with cells := out.1, cellRanges := ranges } := by
    intro ranges h1 h2
    exact ⟨hlen.trans h.length, h.small, h.padding, h.batchPadding, h.aligned, h1, fun s r hs => by
      simp only [hlen]
      exact h2 s r hs, h.window⟩
  have old : ∀ j s, s ∈ (cellAt out.1 j).sequences → ∃ r, c.cellRanges s = some r ∧ r.Covers j :=
    fun j s hs => h.covered j s (hmem j s hs)
  split at hr
  · simp only [Option.some.injEq, Prod.mk.injEq] at hr
    rw [← hr.1]
    exact base c.cellRanges old h.bounded
  · rename_i hflag
    have hok : out = (c.cells.map (removeCell seq b e off), rangeFrom (staysCell seq b e) c.cells 0 newRange,
      false) := by
      rcases removeFrom_cases seq b e off c.cells 0 newRange with ⟨h', _⟩ | ⟨_, _, _, _, _, _, _, h'⟩
      · rw [← hout, h']
      · rw [hout] at h'
        exact absurd h' hflag
    have hself : ∀ j, seq ∈ (cellAt out.1 j).sequences → out.2.1.Covers j := by
      intro j hj
      have hjl := lt_length_of_mem hj
      rw [hok] at hj ⊢
      simp only [cellAt_map _ _ (removeCell_default _ _ _ _)] at hj
      exact rangeFrom_covers_zero _ _ (by omega) ((mem_removeCell_self seq b e off _).1 hj)
    split at hr
    · rename_i hnew
      simp only [Option.some.injEq, Prod.mk.injEq] at hr
      rw [← hr.1]
      refine base _ (fun j s hs => ?_) (fun s r hs => ?_)
      · by_cases hseq : s = seq
        · subst hseq
          have hjl := lt_length_of_mem hs
          have hcap := h.length
          have hsmall := h.small
          exact absurd hnew (ne_newRange_of_covers (hself j hs) (by omega))
        · rw [Function.update_of_ne hseq]
          exact old j s hs
      · by_cases hseq : s = seq
        · subst hseq
          simp at hs
        · rw [Function.update_of_ne hseq] at hs
          exact h.bounded s r hs
    · have hinv : CacheInv
          { c with cells := out.1, cellRanges := Function.update c.cellRanges seq (some out.2.1) } := by
        refine base _ (fun j s hs => ?_) (fun s r hs => ?_)
        · by_cases hseq : s = seq
          · subst hseq
            exact ⟨_, Function.update_self .., hself j hs⟩
          · rw [Function.update_of_ne hseq]
            exact old j s hs
        · by_cases hseq : s = seq
          · subst hseq
            simp only [Function.update_self, Option.some.injEq] at hs
            rw [← hs, hok]
            exact rangeFrom_bounded _ _
          · rw [Function.update_of_ne hseq] at hs
            exact h.bounded s r hs
      split at hr
      · obtain ⟨ls, rfl, _⟩ := shift_frame hr
        exact hinv.withLayers ls
      · simp only [Option.some.injEq, Prod.mk.injEq] at hr
        rw [← hr.1]
        exact hinv

/-- `defrag` keeps the invariant. -/
theorem CacheInv.defrag {ctx : Ctx} {c c' : Causal κ ν} (h : CacheInv c) (hd : c.defrag ctx = some c') :
    CacheInv c' := by
  simp only [Causal.defrag] at hd
  split at hd
  · nomatch hd
  · simp only [Option.some.injEq] at hd
    obtain ⟨hcells, _, _⟩ := DefragAux.defragSt_layers (ctx.maxTensors / (6 * c.storedLayers)) c
    generalize c.defragSt (ctx.maxTensors / (6 * c.storedLayers)) = s at hd hcells
    have hlen : s.cells.length = c.cells.length := by
      obtain ⟨_, _, hp⟩ := DefragAux.planInv_planAfter c.cells c.cells.length
      rw [hcells]
      exact hp.length
    subst hd
    refine ⟨hlen.trans h.length, h.small, h.padding, h.batchPadding, h.aligned, ?_, ?_, h.window⟩
    · intro j seq hm
      simp only [Causal.cell] at hm
      have hj := lt_length_of_mem hm
      -- the cell was taken from one that held the sequence, so the sequence has a range
      have hne : ¬(cellAt (Plan.final c.cells).cells j).empty := by
        rw [← hcells, empty_iff]
        exact List.ne_nil_of_mem hm
      have hold : seq ∈ (c.cell ((Plan.final c.cells).origin j)).sequences := by
        rw [Causal.cell, ← DefragAux.final_taken c.cells j hne, ← hcells]
        exact hm
      obtain ⟨r, hr, _⟩ := h.covered _ seq hold
      refine ⟨rangeFrom (fun x => decide (seq ∈ x.sequences)) s.cells 0 newRange, ?_, rangeFrom_covers_zero _ _ hj ?_⟩
      · simp only [hr, Option.map_some]
      · exact decide_eq_true hm
    · intro seq r hr
      simp only [Option.map_eq_some_iff] at hr
      obtain ⟨_, _, rfl⟩ := hr
      exact rangeFrom_bounded _ _

/-- What the rest of `StartForward` leaves, once a place for the batch is found: the stored batch with its mask, and
the error of the backend if it has one. -/
theorem place_eq {ctx : Ctx} {positions seqs : List Int} {loc : Nat} {c c' : Causal κ ν} {err : Option Err}
    (h : c.place ctx positions seqs loc = some (c', err)) :
    positions.length ≤ seqs.length ∧ err = ctx.floatErr ∧
      (({ c with curLoc := loc, curCellRange := newRange }).store (positions.zip seqs) loc).buildMask
        (positions.zip seqs) = some c' := by
  simp only [Causal.place] at h
  split at h
  · nomatch h
  · rename_i hlen
    split at h
    · nomatch h
    · rename_i c₁ hb
      simp only [Option.some.injEq, Prod.mk.injEq] at h
      exact ⟨by omega, h.2.symm, by rw [hb, h.1]⟩

/-- `buildMask` changes the range and the mask only. -/
theorem buildMask_frame {c c' : Causal κ ν} {batch : List (Int × Int)} (h : c.buildMask batch = some c') :
    ∃ range mask, c' = { c with curCellRange := range, curMask := mask } := by
  simp only [Causal.buildMask] at h
  split at h
  · nomatch h
  · simp only [Option.some.injEq] at h
    exact ⟨_, _, h.symm⟩

/-- Placing a batch keeps the invariant, also when the context fails. -/
theorem CacheInv.place {ctx : Ctx} {positions seqs : List Int} {loc : Nat} {c c' : Causal κ ν} {err : Option Err}
    (h : CacheInv c) (hloc : loc + positions.length ≤ c.cells.length)
    (hp : c.place ctx positions seqs loc = some (c', err)) : CacheInv c' := by
  obtain ⟨_, _, hb⟩ := place_eq hp
  clear hp
  obtain ⟨range, mask, rfl⟩ := buildMask_frame hb
  clear hb
  have hzip : (positions.zip seqs).length ≤ positions.length := by
    rw [List.length_zip]
    exact Nat.min_le_left _ _
  obtain ⟨hcov, hbnd, _⟩ := store_ranges (positions.zip seqs) { c with curLoc := loc, curCellRange := newRange } loc
    (by simp only; omega) h.covered h.bounded
  obtain ⟨h1, h2, h3, _, _, _, _, h8⟩ :=
    store_frame (positions.zip seqs) { c with curLoc := loc, curCellRange := newRange } loc
  refine ⟨?_, ?_, ?_, ?_, ?_, hcov, hbnd, ?_⟩
  · exact h8.trans (h.length.trans h1.symm)
  · exact h1.symm ▸ h.small
  · exact h3.symm ▸ h.padding
  · exact h3.symm ▸ h.batchPadding
  · simp only [h1, h3]
    exact h.aligned
  · exact h2.symm ▸ h.window

/-- `StartForward` finds a place for the batch in the cache or in the cache defragmented, or fails and leaves one of
the two. -/
theorem startForward_cases {ctx : Ctx} {positions seqs : List Int} {c c' : Causal κ ν} {err : Option Err}
    (h : CacheInv c) (hs : c.startForward ctx positions seqs = some (c', err)) :
    ∃ c₁ : Causal κ ν, CacheInv c₁ ∧ c₁.curBatchSize = positions.length ∧
      (c₁ = { c with curBatchSize := positions.length } ∨
        { c with curBatchSize := positions.length }.findStartLoc = none ∧
          { c with curBatchSize := positions.length }.defrag ctx = some c₁) ∧
      ((∃ loc, c₁.findStartLoc = some loc ∧ loc + positions.length ≤ c₁.cells.length ∧
          c₁.place ctx positions seqs loc = some (c', err)) ∨
        c' = { c₁ with curLoc := 0 } ∧ err = some (.kvCacheFull c₁.capacity)) := by
  have h₀ : CacheInv { c with curBatchSize := positions.length } :=
    ⟨h.length, h.small, h.padding, h.batchPadding, h.aligned, h.covered, h.bounded, h.window⟩
  simp only [Causal.startForward] at hs
  split at hs
  · rename_i loc hloc
    exact ⟨_, h₀, rfl, Or.inl rfl, Or.inl ⟨loc, hloc, (findStartLoc_spec hloc).1, hs⟩⟩
  · rename_i hnone
    split at hs
    · nomatch hs
    · rename_i c₁ hd
      have hinv := h₀.defrag hd
      have hbatch : c₁.curBatchSize = positions.length := by
        simp only [Causal.defrag] at hd
        split at hd
        · nomatch hd
        · simp only [Option.some.injEq] at hd
          rw [← hd]
      refine ⟨c₁, hinv, hbatch, Or.inr ⟨hnone, hd⟩, ?_⟩
      split at hs
      · rename_i loc hloc
        have := (findStartLoc_spec hloc).1
        exact Or.inl ⟨loc, hloc, by omega, hs⟩
      · simp only [Option.some.injEq, Prod.mk.injEq] at hs
        exact Or.inr ⟨hs.1.symm, hs.2.symm⟩

/-- `StartForward` keeps the invariant, also when it fails. -/
theorem CacheInv.startForward {ctx : Ctx} {positions seqs : List Int} {c c' : Causal κ ν} {err : Option Err}
    (h : CacheInv c) (hs : c.startForward ctx positions seqs = some (c', err)) : CacheInv c' := by
  obtain ⟨c₁, h₁, _, _, ⟨loc, _, hle, hp⟩ | ⟨rfl, _⟩⟩ := startForward_cases h hs
  · exact h₁.place hle hp
  · exact ⟨h₁.length, h₁.small, h₁.padding, h₁.batchPadding, h₁.aligned, h₁.covered, h₁.bounded, h₁.window⟩

/-- Every call keeps the invariant, with or without an error. -/
theorem CacheInv.run [Zero κ] [Zero ν] {c c' : Causal κ ν} {op : Op κ ν} {err : Option Err} (h : CacheInv c)
    (hr : op.run c = some (c', err)) : CacheInv c' := by
  cases op with
  | startForward ctx positions seqs => exact h.startForward hr
  | setLayer layer =>
    simp only [Op.run, Option.some.injEq, Prod.mk.injEq] at hr
    exact hr.1 ▸ h.setLayer layer
  | put rows =>
    simp only [Op.run, Option.map_eq_some_iff, Prod.mk.injEq] at hr
    obtain ⟨_, hp, rfl, _⟩ := hr
    exact h.put hp
  | copyPrefix srcSeq dstSeq len =>
    simp only [Op.run, Option.some.injEq, Prod.mk.injEq] at hr
    exact hr.1 ▸ h.copyPrefix srcSeq dstSeq len
  | remove ctx seq b e => exact h.remove hr
  | defrag ctx =>
    simp only [Op.run, Option.map_eq_some_iff, Prod.mk.injEq] at hr
    obtain ⟨_, hd, rfl, _⟩ := hr
    exact h.defrag hd

/-- The invariant holds of every cache a run reaches. -/
theorem CacheInv.reachable [Zero κ] [Zero ν] {c : Causal κ ν} (h : (system κ ν).Reachable c) : CacheInv c := by
  apply h.invariant
  · rintro c ⟨_, _, _, _, hw, hi⟩
    exact cacheInv_init hw hi
  · rintro c c' hc ⟨op, err, hr⟩
    exact hc.run hr

end Ollama.Kvcache
