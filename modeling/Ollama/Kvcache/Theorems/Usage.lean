import Ollama.Kvcache.Usage
import Ollama.Kvcache.Lemmas.Counts
import Ollama.Kvcache.Theorems.Fullness
import Ollama.Kvcache.Theorems.Mask

/-!
# When a cache panics

In every run, a call panics in two cases only: a batch finds no place while no layer holds keys, so that `defrag`
divides by zero, or rows are stored before any layer is set. The ends of ranges that stand for no location, and the
ranges that a failed `Remove` leaves behind, never reach an index or a length (`Usable`).
-/

namespace Ollama.Kvcache

open Lib

variable {κ ν : Type}

namespace UsageAux

/-- What a batch leaves for `Put` and `Get`. -/
def Causal.started (c : Causal κ ν) : Nat × Nat × Nat × CellRange × Mask :=
  (c.capacity, c.curLoc, c.curBatchSize, c.curCellRange, c.curMask)

/-- The invariant of a cache in use: the rows and the range of the batch that was started lie in the tensors. -/
structure Usable (u : User κ ν) : Prop where
  inv : CacheInv u.cache
  rows : u.ready = true → u.cache.curLoc + u.cache.curBatchSize ≤ u.cache.capacity
  range : u.ready = true → u.cache.curCellRange.min + u.cache.curMask.length ≤ u.cache.capacity

/-- A call that leaves the batch alone. -/
theorem Usable.frame {u : User κ ν} (h : Usable u) {c : Causal κ ν} (hinv : CacheInv c)
    (hkept : Causal.started c = Causal.started u.cache) :
    Usable { u with cache := c } := by
  unfold Causal.started at hkept
  simp only [Prod.mk.injEq] at hkept
  obtain ⟨hcapacity, hloc, hsize, hrange, hmask⟩ := hkept
  refine ⟨hinv, fun hready => ?_, fun hready => ?_⟩
  · show c.curLoc + c.curBatchSize ≤ c.capacity
    rw [hloc, hsize, hcapacity]
    exact h.rows hready
  · show c.curCellRange.min + c.curMask.length ≤ c.capacity
    rw [hrange, hmask, hcapacity]
    exact h.range hready

/-- `Remove` leaves what was started. -/
theorem started_remove {ctx : Ctx} {seq b e : Int} {c c' : Causal κ ν} {err : Option Err}
    (hr : c.remove ctx seq b e = some (c', err)) :
    Causal.started c' = Causal.started c := by
  simp only [Causal.remove] at hr
  generalize (if e ≠ maxInt32 then int32 (b - e) else 0) = off at hr
  split at hr
  · rw [← (Prod.mk.inj (Option.some.inj hr)).1]
    rfl
  · split at hr
    · rw [← (Prod.mk.inj (Option.some.inj hr)).1]
      rfl
    · split at hr
      · obtain ⟨ls, rfl, _⟩ := shift_frame hr
        rfl
      · rw [← (Prod.mk.inj (Option.some.inj hr)).1]
        rfl

/-- `Put` leaves what was started. -/
theorem started_put [Zero κ] [Zero ν] {c c' : Causal κ ν} {rows : List (κ × ν)} (hp : c.put rows = some c') :
    Causal.started c' = Causal.started c := by
  unfold Causal.put at hp
  split at hp
  · nomatch hp
  · split at hp
    · nomatch hp
    · rw [← Option.some.inj hp]
      rfl

/-! ## StartForward -/

/-- The range of a batch, rounded, lies in the cache. -/
theorem rounded_range {c : Causal κ ν} (h : CacheInv c) {batch : List (Int × Int)} (hne : batch ≠ []) {loc : Nat}
    (hloc : loc + batch.length ≤ c.cells.length) :
    let c₂ := ({ c with curLoc := loc, curCellRange := newRange } : Causal κ ν).store batch loc
    roundDown c₂.curCellRange.min c₂.config.cachePadding ≤
      roundUp (c₂.curCellRange.max + 1) c₂.config.cachePadding - 1 ∧
      roundUp (c₂.curCellRange.max + 1) c₂.config.cachePadding - 1 < c.cells.length := by
  intro c₂
  have hpos : 0 < batch.length := List.length_pos_iff.2 hne
  obtain ⟨_, hmax, hmin⟩ := MaskAux.stored_range h hloc (by omega)
  have hle : c₂.curCellRange.min ≤ c₂.curCellRange.max := hmin hne
  have hmax' : c₂.curCellRange.max < c.cells.length := hmax
  have hconfig : c₂.config = c.config :=
    (store_frame batch { c with curLoc := loc, curCellRange := newRange } loc).2.2.1
  rw [hconfig]
  have hdown := roundDown_le c₂.curCellRange.min c.config.cachePadding
  have hup := le_roundUp (c₂.curCellRange.max + 1) c.config.cachePadding h.padding
  have hcap := roundUp_le h.padding (x := c₂.curCellRange.max + 1) (n := c.capacity)
    (by rw [← h.length]; omega) h.aligned
  rw [← h.length] at hcap
  exact ⟨by omega, by omega⟩

/-- Placing a batch where there is room does not panic. -/
theorem place_isSome {ctx : Ctx} {positions seqs : List Int} {loc : Nat} {c : Causal κ ν} (h : CacheInv c)
    (hne : positions ≠ []) (hlen : positions.length = seqs.length) (hloc : loc + positions.length ≤ c.cells.length) :
    ∃ out, c.place ctx positions seqs loc = some out := by
  have hzip : (positions.zip seqs).length = positions.length := by
    rw [List.length_zip, ← hlen, Nat.min_self]
  have hzne : positions.zip seqs ≠ [] := by
    intro hnil
    rw [hnil] at hzip
    exact hne (List.length_eq_zero_iff.1 hzip.symm)
  have hloc' : loc + (positions.zip seqs).length ≤ c.cells.length := by
    rw [hzip]
    exact hloc
  obtain ⟨hle, hlt⟩ := rounded_range h hzne hloc'
  obtain ⟨_, _, hconfig, _, _, _, _, hcells⟩ :=
    store_frame (positions.zip seqs) { c with curLoc := loc, curCellRange := newRange } loc
  have hpadding :
      (({ c with curLoc := loc, curCellRange := newRange } : Causal κ ν).store
        (positions.zip seqs) loc).config.cachePadding ≠ 0 := by
    rw [hconfig]
    exact Nat.ne_of_gt h.padding
  have hbatch :
      (({ c with curLoc := loc, curCellRange := newRange } : Causal κ ν).store
        (positions.zip seqs) loc).config.maskBatchPadding ≠ 0 := by
    rw [hconfig]
    exact Nat.ne_of_gt h.batchPadding
  unfold Causal.place
  rw [if_neg (by omega)]
  dsimp only
  unfold Causal.buildMask
  dsimp only
  rw [if_neg]
  · exact ⟨_, rfl⟩
  · rw [hcells]
    rintro (hzero | hzero | ⟨_, hneg | ⟨_, hout⟩⟩)
    · exact hpadding hzero
    · exact hbatch hzero
    · omega
    · exact absurd hlt (Nat.not_lt.2 hout)

/-- A batch panics only when it finds no place and no layer holds keys. -/
theorem startForward_isSome_iff (ctx : Ctx) {positions seqs : List Int} {c : Causal κ ν} (h : CacheInv c)
    (hne : positions ≠ []) (hlen : positions.length = seqs.length) :
    (∃ out, c.startForward ctx positions seqs = some out) ↔
      { c with curBatchSize := positions.length }.findStartLoc ≠ none ∨ c.storedLayers ≠ 0 := by
  have h₀ : CacheInv { c with curBatchSize := positions.length } :=
    ⟨h.length, h.small, h.padding, h.batchPadding, h.aligned, h.covered, h.bounded, h.window⟩
  unfold Causal.startForward
  dsimp only
  rcases hloc : Causal.findStartLoc { c with curBatchSize := positions.length } with _ | loc
  · dsimp only
    constructor
    · rintro ⟨out, hout⟩
      refine .inr fun hzero => ?_
      have hnone : Causal.defrag ctx { c with curBatchSize := positions.length } = none := if_pos hzero
      rw [hnone] at hout
      nomatch hout
    · rintro (hno | hstored)
      · exact absurd rfl hno
      · have hsome : ∃ c₁, Causal.defrag ctx { c with curBatchSize := positions.length } = some c₁ :=
          ⟨_, if_neg hstored⟩
        obtain ⟨c₁, hc₁⟩ := hsome
        rw [hc₁]
        dsimp only
        split
        · rename_i loc hloc
          have hsize : c₁.curBatchSize = positions.length := (defrag_cells hc₁).2
          have hle := (findStartLoc_spec hloc).1
          rw [hsize] at hle
          exact place_isSome (h₀.defrag hc₁) hne hlen hle
        · exact ⟨_, rfl⟩
  · dsimp only
    have hle : loc + positions.length ≤ c.cells.length := (findStartLoc_spec hloc).1
    exact ⟨fun _ => .inl nofun, fun _ => place_isSome h₀ hne hlen hle⟩

/-- A batch that `StartForward` takes lies in the cache, and so does its range. -/
theorem usable_startForward {ctx : Ctx} {positions seqs : List Int} {c c' : Causal κ ν} {err : Option Err}
    (h : CacheInv c) (hne : positions ≠ []) (hs : c.startForward ctx positions seqs = some (c', err)) :
    Usable ⟨c', err.isNone⟩ := by
  refine ⟨h.startForward hs, fun hready => ?_, fun hready => ?_⟩ <;> obtain rfl : err = none :=
    Option.isNone_iff_eq_none.1 hready
  · obtain ⟨c₁, loc, h₁, hsize, _, hle, _, hmask⟩ := MaskAux.startForward_place h hs
    obtain ⟨range, mask, rfl⟩ := buildMask_frame hmask
    obtain ⟨hcapacity, _, _, hbatch, hloc, _⟩ :=
      store_frame (positions.zip seqs) { c₁ with curLoc := loc, curCellRange := newRange } loc
    show Causal.curLoc (Causal.store _ _ _) + Causal.curBatchSize (Causal.store _ _ _) ≤
      Causal.capacity (Causal.store _ _ _)
    rw [hloc, hbatch, hcapacity]
    show loc + c₁.curBatchSize ≤ c₁.capacity
    rw [hsize, ← h₁.length]
    exact hle
  · obtain ⟨c₁, loc, h₁, hsize, hlen, hle, _, hmask⟩ := MaskAux.startForward_place h hs
    have hzip : (positions.zip seqs).length = positions.length := by
      rw [List.length_zip]
      omega
    have hzne : positions.zip seqs ≠ [] := by
      intro hnil
      rw [hnil] at hzip
      exact hne (List.length_eq_zero_iff.1 hzip.symm)
    have hloc : loc + (positions.zip seqs).length ≤ c₁.cells.length := by
      rw [hzip]
      exact hle
    have hrange := rounded_range h₁ hzne hloc
    obtain ⟨hcapacity, _⟩ := store_frame (positions.zip seqs) { c₁ with curLoc := loc, curCellRange := newRange } loc
    obtain ⟨lo, hi, hlo, hhi, rfl⟩ := MaskAux.buildMask_eq hmask
    dsimp only at hrange
    rw [← hlo, ← hhi] at hrange
    show lo + (hi + 1 - lo) ≤ Causal.capacity (Causal.store _ _ _)
    rw [hcapacity]
    show _ ≤ c₁.capacity
    rw [← h₁.length]
    omega

/-! ## Remove -/

/-- A removal returns: its range is that of cells that stay. -/
theorem remove_isSome (ctx : Ctx) (seq b e : Int) (c : Causal κ ν) : ∃ out, c.remove ctx seq b e = some out := by
  simp only [Causal.remove]
  generalize (if e ≠ maxInt32 then int32 (b - e) else 0) = off
  split
  · exact ⟨_, rfl⟩
  · rename_i hflag
    split
    · exact ⟨_, rfl⟩
    · rename_i hne
      split
      · rcases removeFrom_cases seq b e off c.cells 0 newRange with ⟨hout, _⟩ | ⟨_, _, _, _, _, _, _, hstop⟩
        · rw [hout] at hne ⊢
          obtain ⟨j, hmin, hmax⟩ := (rangeFrom_eq_or_covers (staysCell seq b e) c.cells 0 newRange).resolve_left hne
          have hend : (rangeFrom (staysCell seq b e) c.cells 0 newRange).max < c.cells.length := by
            rcases rangeFrom_bounded (staysCell seq b e) c.cells with hnil | hlt
            · exact absurd (by rw [List.length_eq_zero_iff.1 hnil]; rfl) hne
            · exact hlt
          unfold Causal.shift
          split
          · exact ⟨_, rfl⟩
          · dsimp only
            rw [Function.update_self, Option.getD_some, List.length_map, if_neg (by omega)]
            split <;> exact ⟨_, rfl⟩
        · exact absurd hstop hflag
      · exact ⟨_, rfl⟩

/-! ## Every call -/

variable [Zero κ] [Zero ν]

/-- At first the cache can be used. -/
theorem usable_init {u : User κ ν} (h : (usage κ ν).init u) : Usable u := by
  obtain ⟨windowSize, shiftFn, config, capacity, hwindow, _, hinit, hready⟩ := h
  refine ⟨cacheInv_init hwindow hinit, fun h => ?_, fun h => ?_⟩ <;> exact absurd (hready.symm.trans h) nofun

/-- An admitted call leaves a cache that can be used. -/
theorem usable_run {u u' : User κ ν} (h : Usable u) {call : Use κ ν} (hadm : call.Admitted u)
    (hr : call.run u = some u') :
    Usable u' := by
  cases call with
  | startForward ctx batch =>
    obtain ⟨⟨c', err⟩, hs, rfl⟩ := Option.map_eq_some_iff.1 hr
    exact usable_startForward h.inv (fun hnil => hadm.2.1 (List.map_eq_nil_iff.1 hnil)) hs
  | setLayer layer =>
    rw [← Option.some.inj hr]
    exact h.frame (h.inv.setLayer layer) rfl
  | put rows =>
    obtain ⟨c', hp, rfl⟩ := Option.map_eq_some_iff.1 hr
    exact h.frame (h.inv.put hp) (started_put hp)
  | get =>
    obtain ⟨_, _, rfl⟩ := Option.map_eq_some_iff.1 hr
    exact h
  | copyPrefix srcSeq dstSeq len =>
    rw [← Option.some.inj hr]
    exact h.frame (h.inv.copyPrefix srcSeq dstSeq len) rfl
  | remove ctx seq b e =>
    obtain ⟨⟨c', err⟩, hremove, rfl⟩ := Option.map_eq_some_iff.1 hr
    exact h.frame (h.inv.remove hremove) (started_remove hremove)

/-- `Put` does not panic exactly when its layer is one of the layers. -/
theorem put_isSome_iff {u : User κ ν} (h : Usable u) {rows : List (κ × ν)} (hready : u.ready = true)
    (hlen : rows.length = u.cache.curBatchSize) :
    (∃ c, u.cache.put rows = some c) ↔ u.cache.curLayer < u.cache.layers.length := by
  have hrows := h.rows hready
  unfold Causal.put
  rw [if_neg (by omega)]
  constructor
  · rintro ⟨c, hc⟩
    by_contra hge
    rw [List.getElem?_eq_none (Nat.le_of_not_lt hge)] at hc
    nomatch hc
  · intro hlt
    rw [List.getElem?_eq_getElem hlt]
    exact ⟨_, rfl⟩

omit [Zero κ] [Zero ν] in
/-- `Get` does not panic where something was put. -/
theorem get_isSome {u : User κ ν} (h : Usable u) (hready : u.ready = true)
    (hlayer : ((u.cache.layers[u.cache.curLayer]?).join).isSome) : ∃ out, u.cache.get = some out := by
  obtain ⟨l, hl⟩ := Option.isSome_iff_exists.1 hlayer
  unfold Causal.get
  rw [hl]
  dsimp only
  rw [if_neg (Nat.not_lt.2 (h.range hready))]
  exact ⟨_, rfl⟩

/-- Every reachable cache can be used. -/
theorem usable_reachable {u : User κ ν} (h : (usage κ ν).Reachable u) : Usable u := by
  refine h.invariant (I := Usable) (fun u hu => usable_init hu) ?_
  rintro u u' husable ⟨call, hadm, hr⟩
  exact usable_run husable hadm hr

end UsageAux

open UsageAux in
/-- In every run of a cache in use, a call that is admitted returns if and only if it is safe. -/
theorem call_returns_iff [Zero κ] [Zero ν] {u : User κ ν} (h : (usage κ ν).Reachable u) {call : Use κ ν}
    (hadm : call.Admitted u) :
    (∃ u', call.run u = some u') ↔ call.Safe u := by
  have husable := usable_reachable h
  cases call with
  | startForward ctx batch =>
    have hne : batch.map Prod.fst ≠ [] := fun hnil => hadm.2.1 (List.map_eq_nil_iff.1 hnil)
    have hlen : (batch.map Prod.fst).length = (batch.map Prod.snd).length := by
      rw [List.length_map, List.length_map]
    have hiff := startForward_isSome_iff ctx husable.inv hne hlen
    rw [List.length_map] at hiff
    rw [Use.Safe, ← hiff]
    constructor
    · rintro ⟨_, hr⟩
      obtain ⟨out, hs, _⟩ := Option.map_eq_some_iff.1 hr
      exact ⟨out, hs⟩
    · rintro ⟨out, hs⟩
      exact ⟨_, Option.map_eq_some_iff.2 ⟨out, hs, rfl⟩⟩
  | setLayer layer => exact ⟨fun _ => trivial, fun _ => ⟨_, rfl⟩⟩
  | put rows =>
    rw [Use.Safe, ← put_isSome_iff husable hadm.1 hadm.2]
    constructor
    · rintro ⟨_, hr⟩
      obtain ⟨c, hp, _⟩ := Option.map_eq_some_iff.1 hr
      exact ⟨c, hp⟩
    · rintro ⟨c, hp⟩
      exact ⟨_, Option.map_eq_some_iff.2 ⟨c, hp, rfl⟩⟩
  | get =>
    obtain ⟨out, hget⟩ := get_isSome husable hadm.1 hadm.2
    exact ⟨fun _ => trivial, fun _ => ⟨_, Option.map_eq_some_iff.2 ⟨out, hget, rfl⟩⟩⟩
  | copyPrefix srcSeq dstSeq len => exact ⟨fun _ => trivial, fun _ => ⟨_, rfl⟩⟩
  | remove ctx seq b e =>
    obtain ⟨out, hremove⟩ := remove_isSome ctx seq b e u.cache
    exact ⟨fun _ => trivial, fun _ => ⟨_, Option.map_eq_some_iff.2 ⟨out, hremove, rfl⟩⟩⟩

namespace UsageWitness

/-- A cache of two locations after `Init`. -/
def start : User Nat Nat :=
  { cache := {
      capacity := 2, windowSize := maxInt32, config := ⟨1, 1⟩, shiftFn := none, cells := List.replicate 2 {} } }

/-- The first cache of the example is reached. -/
theorem start_reachable : (usage Nat Nat).Reachable start :=
  Lib.System.Reachable.init ⟨maxInt32, none, {}, 2, by decide, by decide, rfl, rfl⟩

end UsageWitness

open UsageWitness in
/-- After a token with its row, a batch that does not fit returns. -/
theorem call_returns_iff_row : ∃ u u', (usage Nat Nat).Reachable u ∧ u.cache.free = 1 ∧
    (Use.startForward { maxTensors := 1 } [(1, 0), (2, 0)]).run u = some u' := by
  let call : Use Nat Nat := .startForward { maxTensors := 1 } [(0, 0)]
  have h₁ : (call.run start).map (fun u => (u.ready, u.cache.curBatchSize)) = some (true, 1) := by decide +kernel
  obtain ⟨u₁, hu₁, hout₁⟩ := Option.map_eq_some_iff.1 h₁
  obtain ⟨hready, hsize⟩ := Prod.mk.inj hout₁
  have hreach₁ : (usage Nat Nat).Reachable u₁ := start_reachable.step ⟨call, ⟨by decide, by decide, by decide⟩, hu₁⟩
  have hreach₂ : (usage Nat Nat).Reachable { u₁ with cache := u₁.cache.setLayer 0 } :=
    hreach₁.step ⟨.setLayer 0, trivial, rfl⟩
  have h₃ : ((call.run start).bind (fun u => Use.run { u with cache := u.cache.setLayer 0 } (.put [(7, 8)]))).map
      (fun u => (u.cache.free, u.cache.storedLayers)) = some (1, 1) := by decide +kernel
  rw [hu₁, Option.bind_some] at h₃
  obtain ⟨u₃, hu₃, hout₃⟩ := Option.map_eq_some_iff.1 h₃
  obtain ⟨hfree, hstored⟩ := Prod.mk.inj hout₃
  have hreach₃ : (usage Nat Nat).Reachable u₃ := hreach₂.step ⟨.put [(7, 8)], ⟨hready, hsize.symm⟩, hu₃⟩
  have hadm : (Use.startForward { maxTensors := 1 } [(1, 0), (2, 0)] : Use Nat Nat).Admitted u₃ :=
    ⟨by decide, by decide, by decide⟩
  have hsafe : (Use.startForward { maxTensors := 1 } [(1, 0), (2, 0)] : Use Nat Nat).Safe u₃ :=
    .inr (by rw [hstored]; decide)
  obtain ⟨u', hu'⟩ := (call_returns_iff hreach₃ hadm).2 hsafe
  exact ⟨u₃, u', hreach₃, hfree, hu'⟩

open UsageWitness in
/-- Three tokens do not fit in a cache of two locations, and no layer holds keys yet. -/
theorem first_batch_panics : (usage Nat Nat).Reachable start ∧
    (Use.startForward { maxTensors := 10 } [(0, 0), (1, 0), (2, 0)] : Use Nat Nat).Admitted start ∧
    (Use.startForward { maxTensors := 10 } [(0, 0), (1, 0), (2, 0)] : Use Nat Nat).run start = none := by
  refine ⟨start_reachable, ⟨by decide, by decide, by decide⟩, ?_⟩
  have hnone :
      ((Use.startForward { maxTensors := 10 } [(0, 0), (1, 0), (2, 0)] : Use Nat Nat).run start).isNone = true := by
    decide +kernel
  exact Option.isNone_iff_eq_none.1 hnone

end Ollama.Kvcache
