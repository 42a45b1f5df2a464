import Ollama.Kvcache.Lemmas.Counts
import Ollama.Kvcache.Theorems.Defrag

/-!
# A cache is full when it is

`defrag` loses no cell: the cells in use are the same as before, they lie in front, and the range of every sequence
ends at its first and its last location. So `StartForward` fails with `ErrKvCacheFull` only when the batch is longer
than there are free cells, and then it has taken no position from a sequence and given it none.
-/

namespace Ollama.Kvcache

open Lib

variable {κ ν : Type}

/-- The positions a cache holds for a sequence. -/
def Causal.heldPositions (c : Causal κ ν) (seq : Int) : Set Int := {p | ∃ x ∈ c.cells, seq ∈ x.sequences ∧ x.pos = p}

/-- The number of free cells. -/
def Causal.free (c : Causal κ ν) : Nat := c.cells.countP CacheCell.empty

/-- The cells in use, in the order of their locations. -/
def Causal.occupied (c : Causal κ ν) : List CacheCell := c.cells.filter (fun x => !x.empty)

theorem mem_heldPositions {c : Causal κ ν} {seq p : Int} : p ∈ c.heldPositions seq ↔ 0 < c.count seq p := by
  unfold Causal.heldPositions Causal.count
  rw [List.countP_pos_iff]
  refine exists_congr fun x => and_congr_right fun _ => ?_
  exact decide_eq_true_iff.symm

/-- A cache holds what its counts say. -/
theorem heldPositions_congr {c c' : Causal κ ν} {seq : Int} (h : ∀ p, c'.count seq p = c.count seq p) :
    c'.heldPositions seq = c.heldPositions seq := by
  ext p
  rw [mem_heldPositions, mem_heldPositions, h]

theorem used_add_free (c : Causal κ ν) : c.used + c.free = c.cells.length := by
  have h := List.length_eq_countP_add_countP CacheCell.empty (l := c.cells)
  have hused : c.used = c.cells.countP (fun x => ¬x.empty = true) := by
    refine List.countP_congr fun x _ => ?_
    cases x.empty <;> rfl
  rw [hused, Causal.free]
  omega

namespace FullAux

/-- Two lists of cells with the same counts have the same cells in use. -/
theorem perm_occupied {cells cells' : List CacheCell} (h : ∀ q, OfUsed q → cells'.countP q = cells.countP q) :
    (cells'.filter (fun x => !x.empty)).Perm (cells.filter (fun x => !x.empty)) := by
  rw [List.perm_iff_count]
  intro x
  have hcount : ∀ l : List CacheCell, (l.filter (fun x => !x.empty)).count x =
    l.countP (fun y => y == x && !y.empty) := by
    intro l
    rw [List.count, List.countP_filter]
  rw [hcount, hcount]
  refine h _ fun y hy => ?_
  rw [hy, Bool.not_true, Bool.and_false]

theorem length_defrag {ctx : Ctx} {c c' : Causal κ ν} (h : c.defrag ctx = some c') :
    c'.cells.length = c.cells.length := by
  obtain ⟨_, _, hp⟩ := DefragAux.planInv_planAfter c.cells c.cells.length
  rw [(defrag_cells h).1]
  exact hp.length

theorem countP_defrag {q : CacheCell → Bool} (hq : OfUsed q) {ctx : Ctx} {c c' : Causal κ ν}
    (h : c.defrag ctx = some c') :
    c'.cells.countP q = c.cells.countP q := by
  rw [(defrag_cells h).1]
  exact DefragAux.countP_final hq c.cells

theorem free_defrag {ctx : Ctx} {c c' : Causal κ ν} (h : c.defrag ctx = some c') : c'.free = c.free := by
  have h₁ := used_add_free c
  have h₂ := used_add_free c'
  have hused : c'.used = c.used := countP_defrag ofUsed_used h
  rw [length_defrag h] at h₂
  omega

theorem defrag_isSome {c : Causal κ ν} (h : c.storedLayers ≠ 0) (ctx : Ctx) : ∃ c', c.defrag ctx = some c' := by
  rw [Causal.defrag, if_neg h]
  exact ⟨_, rfl⟩

/-- The cells in use are the first ones. -/
theorem front_defrag {ctx : Ctx} {c c' : Causal κ ν} (h : c.defrag ctx = some c') (j : Nat) :
    ¬(c'.cell j).empty ↔ j < c.used := by
  obtain ⟨t, hpacked⟩ := packed_final c.cells
  have ht : t = c.used := hpacked.used.symm.trans (DefragAux.countP_final ofUsed_used c.cells)
  obtain ⟨_, hbefore, hafter⟩ := hpacked
  rw [Causal.cell, (defrag_cells h).1, ← ht]
  constructor
  · intro hne
    by_contra hle
    exact hne (hafter j (Nat.le_of_not_lt hle))
  · exact hbefore j

/-- The range of a sequence is made anew. -/
theorem ranges_defrag {ctx : Ctx} {c c' : Causal κ ν} (hinv : CacheInv c) (h : c.defrag ctx = some c') {seq : Int}
    (hseq : ∃ j, seq ∈ (c'.cell j).sequences) :
    ∃ r, c'.cellRanges seq = some r ∧ IsLeast {j | seq ∈ (c'.cell j).sequences} r.min ∧
      IsGreatest {j | seq ∈ (c'.cell j).sequences} r.max := by
  obtain ⟨j, hj⟩ := hseq
  obtain ⟨r, hr, _⟩ := (hinv.defrag h).covered j seq hj
  have hlen : c'.cells.length ≤ maxInt := by
    have hsmall := (hinv.defrag h).small
    rw [(hinv.defrag h).length, maxInt]
    omega
  have hmade : r = rangeFrom (fun x => seq ∈ x.sequences) c'.cells 0 newRange := by
    rw [Causal.defrag] at h
    split at h
    · cases h
    · obtain rfl := Option.some.inj h
      obtain ⟨_, _, heq⟩ := Option.map_eq_some_iff.1 hr
      exact heq.symm
  have hset : {j | j < c'.cells.length ∧ decide (seq ∈ (cellAt c'.cells j).sequences) = true} =
    {j | seq ∈ (c'.cell j).sequences} := by
    ext k
    constructor
    · exact fun hk => decide_eq_true_iff.1 hk.2
    · exact fun hk => ⟨lt_length_of_mem hk, decide_eq_true hk⟩
  have hexact := rangeFrom_exact (fun x => seq ∈ x.sequences) hlen (lt_length_of_mem hj) (decide_eq_true hj)
  rw [hset, ← hmade] at hexact
  exact ⟨r, hr, hexact⟩

/-- A place for a batch has as many free cells as the batch is long. -/
theorem batch_le_free {c : Causal κ ν} {loc : Nat} (h : c.findStartLoc = some loc) : c.curBatchSize ≤ c.free := by
  obtain ⟨hle, hempty⟩ := findStartLoc_spec h
  have hblock : ((c.cells.drop loc).take c.curBatchSize).countP CacheCell.empty = c.curBatchSize := by
    have hlen : ((c.cells.drop loc).take c.curBatchSize).length = c.curBatchSize := by
      rw [List.length_take, List.length_drop]
      omega
    rw [List.countP_eq_length.2, hlen]
    intro x hx
    obtain ⟨i, hi, rfl⟩ := List.mem_iff_getElem.1 hx
    have hfree := hempty (loc + i) (by omega) (by omega)
    rw [Causal.cell, cellAt_eq_getElem (by omega)] at hfree
    rwa [List.getElem_take, List.getElem_drop]
  rw [← hblock]
  exact ((List.take_sublist _ _).trans (List.drop_sublist _ _)).countP_le

/-- A batch that is longer than the free cells are many finds no place, not even after a defragmentation. -/
theorem startForward_full {c : Causal κ ν} (hstored : c.storedLayers ≠ 0) (ctx : Ctx) {positions : List Int}
    (seqs : List Int) (h : c.free < positions.length) :
    ∃ c', c.startForward ctx positions seqs = some (c', some (.kvCacheFull c.capacity)) := by
  have hno : ∀ c₁ : Causal κ ν, c₁.free = c.free → c₁.curBatchSize = positions.length → c₁.findStartLoc = none := by
    intro c₁ hfree hsize
    rcases hloc : c₁.findStartLoc with _ | loc
    · rfl
    · have hle := batch_le_free hloc
      omega
  let c₀ : Causal κ ν := { c with curBatchSize := positions.length }
  obtain ⟨c₁, hc₁⟩ := defrag_isSome (show c₀.storedLayers ≠ 0 from hstored) ctx
  have hcapacity : c₁.capacity = c.capacity := by
    rw [Causal.defrag] at hc₁
    split at hc₁
    · cases hc₁
    · rw [← Option.some.inj hc₁]
  have hnone : c₀.findStartLoc = none := hno c₀ rfl rfl
  have hfree : c₁.free = c₀.free := free_defrag hc₁
  have hnone' : c₁.findStartLoc = none := hno c₁ hfree (defrag_cells hc₁).2
  refine ⟨{ c₁ with curLoc := 0 }, ?_⟩
  unfold Causal.startForward
  dsimp only
  rw [show Causal.findStartLoc { c with curBatchSize := positions.length } = none from hnone]
  dsimp only
  rw [show Causal.defrag ctx { c with curBatchSize := positions.length } = some c₁ from hc₁]
  dsimp only
  rw [hnone', hcapacity]

/-- The cells in use when `StartForward` finds no place. -/
theorem countP_full {q : CacheCell → Bool} (hq : OfUsed q) {ctx : Ctx} {positions seqs : List Int}
    {c c' : Causal κ ν} {m : Nat} (hinv : CacheInv c) (hctx : ∀ m, ctx.floatErr ≠ some (.kvCacheFull m))
    (h : c.startForward ctx positions seqs = some (c', some (.kvCacheFull m))) :
    c'.cells.countP q = c.cells.countP q := by
  obtain ⟨c₁, _, _, hfrom, hend⟩ := startForward_cases hinv h
  have hcount : c₁.cells.countP q = c.cells.countP q := by
    rcases hfrom with rfl | ⟨_, hd⟩
    · rfl
    · have hkept := countP_defrag hq hd
      exact hkept
  rcases hend with ⟨loc, _, _, hplace⟩ | ⟨rfl, _⟩
  · exact absurd (place_eq hplace).2.1.symm (hctx m)
  · exact hcount

end FullAux

open FullAux in
/-- In every cache with a layer that holds keys, `defrag` returns, with the same cells in use as the first ones of the
cache and with exact ranges; and `StartForward` returns `ErrKvCacheFull` exactly when the batch is longer than there
are free cells, with the same positions held. The error is not one of the backend's. -/
theorem full_iff [Zero κ] [Zero ν] {c : Causal κ ν} (h : (system κ ν).Reachable c) (hstored : c.storedLayers ≠ 0)
    (ctx : Ctx) (hctx : ∀ m, ctx.floatErr ≠ some (.kvCacheFull m)) :
    (∃ c', c.defrag ctx = some c' ∧ c'.occupied.Perm c.occupied ∧ (∀ j, ¬(c'.cell j).empty ↔ j < c.used) ∧
      ∀ seq, (∃ j, seq ∈ (c'.cell j).sequences) → ∃ r, c'.cellRanges seq = some r ∧
        IsLeast {j | seq ∈ (c'.cell j).sequences} r.min ∧ IsGreatest {j | seq ∈ (c'.cell j).sequences} r.max) ∧
    ∀ positions seqs : List Int, 0 < positions.length →
      ((∃ c' m, c.startForward ctx positions seqs = some (c', some (.kvCacheFull m))) ↔ c.free < positions.length) ∧
      ∀ c' m, c.startForward ctx positions seqs = some (c', some (.kvCacheFull m)) →
        ∀ seq, c'.heldPositions seq = c.heldPositions seq := by
  have hinv := CacheInv.reachable h
  constructor
  · obtain ⟨c', hc'⟩ := defrag_isSome hstored ctx
    exact ⟨c', hc', perm_occupied fun q hq => countP_defrag hq hc', front_defrag hc',
      fun seq hseq => ranges_defrag hinv hc' hseq⟩
  · intro positions seqs hpos
    refine ⟨⟨?_, fun hfull => ?_⟩, fun c' m hfull seq => ?_⟩
    · rintro ⟨c', m, hfull⟩
      by_contra hroom
      have hall := used_add_free c
      exact hctx m (startForward_not_full hpos (by omega) hfull).symm
    · obtain ⟨c', hc'⟩ := startForward_full hstored ctx seqs hfull
      exact ⟨c', c.capacity, hc'⟩
    · exact heldPositions_congr fun p => countP_full (ofUsed_mem seq p) hinv hctx hfull

open SwapWitness in
/-- Four locations of which the first two are free: after a defragmentation the last two are, and a batch of three
finds no place. -/
theorem full_iff_four : ∃ c c', (system Nat Nat).Reachable c ∧ c.free = 2 ∧ c.defrag { maxTensors := 10 } = some c' ∧
    ¬(c'.cell 1).empty ∧ ∃ c'' m, c.startForward { maxTensors := 10 } [2, 3, 4] [1, 1, 1] =
      some (c'', some (.kvCacheFull m)) := by
  have hc : (run start ops).map (fun c => (c.free, c.storedLayers, c.used)) = some (2, 1, 2) := by decide +kernel
  obtain ⟨c, hr, hc⟩ := Option.map_eq_some_iff.1 hc
  rw [Prod.mk.injEq, Prod.mk.injEq] at hc
  obtain ⟨hfree, hstored, hused⟩ := hc
  have hreach := reachable_run start_reachable hr
  obtain ⟨⟨c', hc', _, hfront, _⟩, hfull⟩ := full_iff hreach (by omega) { maxTensors := 10 } (fun _ => nofun)
  have hthree := hfull [2, 3, 4] [1, 1, 1] (by decide)
  exact ⟨c, c', hreach, hfree, hc', (hfront 1).2 (by omega), hthree.1.2 (by rw [hfree]; decide)⟩

end Ollama.Kvcache
