import Ollama.Kvcache.Lemmas.Defrag
import Mathlib.Logic.Nontrivial.Defs

/-!
# Defragmentation: metadata and data

`defrag` moves the metadata of a cell at once and its data in runs. A move extends the pending run when its cell lies
just below the run's and its hole just above: the source then copies the run from its lowest cell to its lowest hole,
so that rows arrive in the order of the cells while the metadata went in the opposite one. So `defrag` keeps data and
metadata together, whatever the rows are, exactly when no move extends a run (`Mergeable` decides this from the cells
alone) and some layer holds keys: with none, the division by the number of layers panics.
-/

namespace Ollama.Kvcache

open Lib DefragAux

variable {κ ν : Type}

/-- The location the metadata of each cell was taken from by `defrag`. -/
def Causal.defragOrigin (ctx : Ctx) (c : Causal κ ν) : Nat → Nat :=
  (c.defragSt (ctx.maxTensors / (6 * c.storedLayers))).origin

/-- `defrag` returns, and every occupied cell holds in every layer the key row and the value row of the location its
metadata was taken from. -/
def KeepsRows (ctx : Ctx) (c : Causal κ ν) : Prop :=
  ∃ c', c.defrag ctx = some c' ∧ ∀ d, ¬(c'.cell d).empty → c'.cell d = c.cell (c.defragOrigin ctx d) ∧
    ∀ (i : Nat) (l : Layer κ ν), c.layers[i]? = some (some l) → ∃ l', c'.layers[i]? = some (some l') ∧
      l'.key d = l.key (c.defragOrigin ctx d) ∧ l'.value d = l.value (c.defragOrigin ctx d)

/-- Layers with keys at the same places. -/
def SameShape (ls ls' : Layers κ ν) : Prop := ls.map Option.isSome = ls'.map Option.isSome

namespace DefragAux

/-- The number of layers that hold keys is read off the shape. -/
theorem storedLayers_eq (c : Causal κ ν) : c.storedLayers = (c.layers.map Option.isSome).countP id := by
  simp [Causal.storedLayers, List.countP_map]

/-- Data and metadata stay together exactly when the rows the copies bring are the rows of the locations the metadata came
from. -/
theorem keepsRows_iff (ctx : Ctx) (c : Causal κ ν) :
    KeepsRows ctx c ↔ c.storedLayers ≠ 0 ∧ ∀ d, ¬(cellAt (Plan.final c.cells).cells d).empty →
      ∀ (i : Nat) (l : Layer κ ν), c.layers[i]? = some (some l) →
        l.key (pull (Plan.final c.cells).all d) = l.key ((Plan.final c.cells).origin d) ∧
        l.value (pull (Plan.final c.cells).all d) = l.value ((Plan.final c.cells).origin d) := by
  obtain ⟨hcells, horigin, hlayers⟩ := defragSt_layers (ctx.maxTensors / (6 * c.storedLayers)) c
  have hlayer : ∀ {i : Nat} {l : Layer κ ν}, c.layers[i]? = some (some l) →
      (compute (Plan.final c.cells).all c.layers)[i]? =
        some (some ⟨l.key ∘ pull (Plan.final c.cells).all, l.value ∘ pull (Plan.final c.cells).all⟩) := by
    intro i l h
    simp [compute, h, foldl_move]
  by_cases hs : c.storedLayers = 0
  · simp [KeepsRows, Causal.defrag, hs]
  · constructor
    · rintro ⟨c', hc', h⟩
      refine ⟨hs, fun d hd i l hl => ?_⟩
      simp only [Causal.defrag, if_neg hs, Option.some.injEq] at hc'
      subst hc'
      obtain ⟨l', hl', hk, hv⟩ := (h d (by simpa [Causal.cell, hcells] using hd)).2 i l hl
      simp only [hlayers, hlayer hl, Option.some.injEq] at hl'
      subst hl'
      simp only [Causal.defragOrigin, horigin] at hk hv
      exact ⟨hk, hv⟩
    · rintro ⟨_, h⟩
      refine ⟨_, by rw [Causal.defrag, if_neg hs], fun d hd => ?_⟩
      simp only [Causal.cell, hcells] at hd ⊢
      simp only [Causal.defragOrigin, horigin, hlayers]
      refine ⟨final_taken c.cells d hd, fun i l hl => ⟨_, hlayer hl, ?_⟩⟩
      exact h d hd i l hl

/-- A layer that holds keys, when some layer does. -/
theorem exists_layer {c : Causal κ ν} (h : c.storedLayers ≠ 0) :
    ∃ (i : Nat) (l : Layer κ ν), c.layers[i]? = some (some l) := by
  obtain ⟨x, hm, hsome⟩ := List.countP_pos_iff.1 (Nat.pos_of_ne_zero h)
  obtain ⟨l, rfl⟩ := Option.isSome_iff_exists.1 hsome
  obtain ⟨i, hi⟩ := List.mem_iff_getElem?.1 hm
  exact ⟨i, l, hi⟩

end DefragAux

/-- `defrag` keeps data and metadata together, whatever rows the layers hold, if and only if some layer holds keys and
the cells are not mergeable. -/
theorem defrag_keeps_rows_iff [Nontrivial κ] (ctx : Ctx) (c : Causal κ ν) :
    (∀ ls, SameShape ls c.layers → KeepsRows ctx { c with layers := ls }) ↔
      c.storedLayers ≠ 0 ∧ ¬Mergeable c.cells := by
  have hstored : ∀ {ls}, SameShape ls c.layers → Causal.storedLayers { c with layers := ls } = c.storedLayers := by
    intro ls h
    rw [storedLayers_eq, storedLayers_eq]
    exact congrArg _ h
  constructor
  · intro h
    have hs : c.storedLayers ≠ 0 := ((keepsRows_iff ctx _).1 (h c.layers rfl)).1
    refine ⟨hs, fun hm => ?_⟩
    obtain ⟨d, hd, hne⟩ := (final_pull c.cells).2 hm
    obtain ⟨i, l, hl⟩ := exists_layer hs
    obtain ⟨a, b, hab⟩ := exists_pair_ne κ
    -- one key row at the location the metadata came from, another everywhere else
    let key : Nat → κ := fun j => if j = (Plan.final c.cells).origin d then a else b
    let ls : Layers κ ν := c.layers.map (Option.map (fun l => { l with key := key }))
    have hshape : SameShape ls c.layers := by
      simp [SameShape, ls, List.map_map, Function.comp_def]
    have hkey := (((keepsRows_iff ctx _).1 (h ls hshape)).2 d hd i { l with key := key } (by simp [ls, hl])).1
    simp only [key, if_neg hne, if_true] at hkey
    exact hab hkey.symm
  · rintro ⟨hs, hm⟩ ls hshape
    rw [keepsRows_iff]
    refine ⟨by rw [hstored hshape]; exact hs, fun d hd i l _ => ?_⟩
    rw [(final_pull c.cells).1 hm d hd]
    exact ⟨rfl, rfl⟩

/-- Two locations, of which the second is occupied, are moved with their rows. -/
theorem defrag_keeps_rows_two :
    Nontrivial Nat ∧ ∀ ls : Layers Nat Nat, SameShape ls [some ⟨fun j => j, fun j => j⟩] → KeepsRows {}
      { capacity := 2, windowSize := maxInt32, config := ⟨1, 1⟩, shiftFn := none, cells := [⟨0, []⟩,
        ⟨0, [0]⟩], layers := ls } := by
  have hnat : Nontrivial Nat := ⟨0, 1, by decide⟩
  refine ⟨hnat, (defrag_keeps_rows_iff {}
    { capacity := 2, windowSize := maxInt32, config := ⟨1, 1⟩, shiftFn := none, cells := [⟨0, []⟩, ⟨0, [0]⟩],
      layers := [some ⟨fun j => j, fun j => j⟩] }).2 ⟨by decide, ?_⟩⟩
  rintro ⟨h, t, hlt, _, _, _, ht, _⟩
  have hlen := lt_length_of_not_empty ht
  simp only [List.length_cons, List.length_nil] at hlen
  omega

/-! ## A cache of four locations whose rows are swapped -/

namespace SwapWitness

/-- Two tokens of sequence 0 and two of sequence 1, with the rows 10 to 13, and sequence 0 removed. -/
def ops : List (Op Nat Nat) :=
  [.startForward {} [0, 1, 0, 1] [0, 0, 1, 1], .setLayer 0, .put [(10, 10), (11, 11), (12, 12), (13, 13)],
    .remove {} 0 0 maxInt32]

/-- The cells these calls leave: the first two locations are free. -/
def cells : List CacheCell := [⟨0, []⟩, ⟨1, []⟩, ⟨0, [1]⟩, ⟨1, [1]⟩]

/-- A run of calls that all return without an error. -/
def run (c : Causal Nat Nat) : List (Op Nat Nat) → Option (Causal Nat Nat)
  | [] => some c
  | op :: ops => (op.run c).bind (fun out => run out.1 ops)

theorem reachable_run {c c' : Causal Nat Nat} {ops : List (Op Nat Nat)} (h : (system Nat Nat).Reachable c)
    (hr : run c ops = some c') : (system Nat Nat).Reachable c' := by
  induction ops generalizing c with
  | nil =>
    simp only [run, Option.some.injEq] at hr
    exact hr ▸ h
  | cons op ops ih =>
    simp only [run, Option.bind_eq_some_iff] at hr
    obtain ⟨⟨c₁, err⟩, h₁, h₂⟩ := hr
    exact ih (h.step ⟨op, err, h₁⟩) h₂

/-- The cache before the calls: four locations, no padding, no shift function. -/
def start : Causal Nat Nat :=
  { capacity := 4, windowSize := maxInt32, config := ⟨1, 1⟩, shiftFn := none, cells := List.replicate 4 {} }

theorem start_reachable : (system Nat Nat).Reachable start :=
  Lib.System.Reachable.init ⟨maxInt32, none, {}, 4, by decide, rfl⟩

end SwapWitness

open SwapWitness in
/-- A reachable cache on which `defrag` swaps two rows: the cell at location 0 is the one of location 3, and its row
is the one of location 2. -/
theorem defrag_swaps_rows : ∃ c, (system Nat Nat).Reachable c ∧ ¬KeepsRows { maxTensors := 10 } c := by
  have hc : (run start ops).isSome := by decide +kernel
  obtain ⟨c, hr⟩ := Option.isSome_iff_exists.1 hc
  refine ⟨c, reachable_run start_reachable hr, fun h => ?_⟩
  have hcells : c.cells = cells := by
    have : (run start ops).map Causal.cells = some cells := by decide +kernel
    simpa [hr] using this
  have hlayer : ∃ l, c.layers[0]? = some (some l) ∧ l.key 2 = 12 ∧ l.key 3 = 13 := by
    have : ((run start ops).bind (fun c => (c.layers[0]?).join.map (fun l => (l.key 2, l.key 3)))) = some (12, 13) := by
      decide +kernel
    rw [hr] at this
    simp only [Option.bind_some, Option.map_eq_some_iff, Option.join_eq_some_iff, Prod.mk.injEq] at this
    exact this
  obtain ⟨l, hl, h2, h3⟩ := hlayer
  rw [keepsRows_iff] at h
  have hkey := (h.2 0 (by rw [hcells]; decide +kernel) 0 l hl).1
  have hpull : pull (Plan.final c.cells).all 0 = 2 := by rw [hcells]; decide +kernel
  have horigin : (Plan.final c.cells).origin 0 = 3 := by rw [hcells]; decide +kernel
  rw [hpull, horigin, h2, h3] at hkey
  exact absurd hkey (by decide)

end Ollama.Kvcache
