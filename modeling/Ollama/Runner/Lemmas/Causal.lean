import Ollama.Runner.CausalCache
import Ollama.Runner.Lemmas.Capacity

/-!
# Runs over a causal cache

A server over the causal cache that `NewInputCache` makes is a server over a cache that keeps the contract, so what
holds of those holds of it. Besides, the cache has a cell for every place in the contexts of the slots, and the shift
function of its model (`causalInv_reachable`).
-/

namespace Ollama.Runner

open Kvcache

variable {κ ν μ : Type} [Zero κ] [Zero ν] {B : Backend κ ν μ} {m : CausalModel κ}

/-- No call changes the capacity and the shift function. -/
theorem kept_fixed (B : Backend κ ν μ) : Kept (causalCache B) (fun kv => kv.cache.fixed) where
  forward := by
    intro batch kv kv' h
    exact (forward_fixed kv.inv (CausalState.forward_eq_some h)).2
  copyPrefix _ _ _ _ := rfl
  remove seq b e kv := by
    rcases CausalState.remove_cases B seq b e kv with ⟨_, _, _, err, hr, _⟩ | ⟨hsame, _⟩
    · exact remove_fixed hr
    · show ((CausalState.remove B seq b e kv).1).cache.fixed = _
      rw [hsame]

/-- What holds of a server over a causal cache between two sections. -/
structure CausalInv (B : Backend κ ν μ) (m : CausalModel κ) (s : Server (CausalState κ ν) μ) : Prop where
  inv : ServerInv (causalCache B) s
  ready : Ready s
  fit : Fit (causalCache B) s
  shiftFn : ∀ kv, s.cache.cache = some kv → kv.cache.shiftFn = m.shiftFn
  capacity : ∀ kv, s.cache.cache = some kv → s.cache.slots.length * s.cache.numCtx ≤ kv.cache.capacity

/-- A server that `NewInputCache` has made the cache for is a server over a cache without rows. -/
theorem causal_init {s : Server (CausalState κ ν) μ} (h : (causalSystem B m).init s) :
    (system (causalCache B)).init s ∧ ∃ kv, s.cache.cache = some kv ∧ (∀ seq p, (causalCache B).entries kv seq p = 0) ∧
      kv.cache.shiftFn = m.shiftFn ∧ s.cache.slots.length * s.cache.numCtx ≤ kv.cache.capacity := by
  obtain ⟨kvSize, numSlots, batchSize, multiUserCache, cache, hnew, rfl⟩ := h
  unfold newInputCache at hnew
  split at hnew
  · cases hnew
  · rename_i hctx
    rw [Option.map_eq_some_iff] at hnew
    obtain ⟨kv, hkv, rfl⟩ := hnew
    unfold CausalState.init at hkv
    split at hkv
    · rename_i c hinit
      obtain rfl := Option.some.inj hkv
      obtain ⟨hcells, hcapacity, hshift⟩ := cells_init hinit
      have hsmall := (cacheInv_init m.window hinit).small
      have hempty : ∀ (seq : Nat) (p : Int),
          (causalCache B).entries ⟨c, cacheInv_init m.window hinit, inRange_init hinit, 0⟩ seq p = 0 := by
        intro seq p
        have hzero : c.count seq p = 0 := by
          rw [Causal.count, hcells, List.countP_eq_zero]
          intro x hx
          rw [List.eq_of_mem_replicate hx]
          simp
        show Multiset.replicate (c.count seq p) () = 0
        rw [hzero]
        rfl
      have hsize : kvSize / numSlots ≤ kvSize := Nat.div_le_self _ _
      refine ⟨⟨numSlots, batchSize, kvSize / numSlots, multiUserCache, _, by omega, ?_, ?_, rfl⟩, _, rfl, hempty,
        hshift, ?_⟩
      · unfold maxInt32
        omega
      · intro kv hkv
        rw [← Option.some.inj hkv]
        exact hempty
      · show (List.replicate numSlots ({} : InputCacheSlot μ)).length * (kvSize / numSlots) ≤ c.capacity
        rw [List.length_replicate]
        have := Nat.mul_div_le kvSize numSlots
        omega
    · cases hkv

/-- The steps keep what the shape of the server and the fixed part of the cache say. -/
theorem CausalInv.of_step {s s' : Server (CausalState κ ν) μ} (h : CausalInv B m s)
    (hinv : ServerInv (causalCache B) s') (hready : Ready s')
    (hfit : Fit (causalCache B) s') (hshape : SameShape s s')
    (hkept : s'.cache.cache.map (fun kv => kv.cache.fixed) = s.cache.cache.map (fun kv => kv.cache.fixed)) :
    CausalInv B m s' := by
  have hfixed : ∀ kv', s'.cache.cache = some kv' → ∃ kv, s.cache.cache = some kv ∧
    kv'.cache.fixed = kv.cache.fixed := by
    intro kv' hkv'
    rw [hkv', Option.map_some] at hkept
    obtain ⟨kv, hkv, heq⟩ := Option.map_eq_some_iff.1 hkept.symm
    exact ⟨kv, hkv, heq.symm⟩
  refine ⟨hinv, hready, hfit, fun kv' hkv' => ?_, fun kv' hkv' => ?_⟩
  · obtain ⟨kv, hkv, heq⟩ := hfixed kv' hkv'
    exact (congrArg Prod.snd heq).trans (h.shiftFn kv hkv)
  · obtain ⟨kv, hkv, heq⟩ := hfixed kv' hkv'
    have hcapacity : kv'.cache.capacity = kv.cache.capacity := congrArg Prod.fst heq
    rw [hshape.slots, hshape.numCtx, hcapacity]
    exact h.capacity kv hkv

/-- The invariant holds in every run. -/
theorem causalInv_reachable {s : Server (CausalState κ ν) μ} (h : (causalSystem B m).Reachable s) :
    CausalInv B m s := by
  refine h.invariant (I := CausalInv B m) (fun s hs => ?_) (fun s s' hI hstep => ?_)
  · obtain ⟨hinit, kv, hkv, hempty, hshift, hcapacity⟩ := causal_init hs
    refine ⟨serverInv_init hinit, ready_init hinit, ⟨kv, hkv, fun id k => ?_⟩, fun kv' hkv' => ?_, fun kv' hkv' => ?_⟩
    · rw [hempty]
      exact ⟨Nat.zero_le _, fun hne => absurd rfl hne⟩
    · rw [← Option.some.inj (hkv.symm.trans hkv')]
      exact hshift
    · rw [← Option.some.inj (hkv.symm.trans hkv')]
      exact hcapacity
  · rcases hstep with ⟨req, hc⟩ | ⟨env, hp⟩
    · obtain ⟨hshape, hready⟩ := ready_completion hI.inv hI.ready hc
      exact hI.of_step (serverInv_completion hI.inv hc) hready (fit_completion hI.inv hI.fit hc) hshape
        ((kept_fixed B).completion hc)
    · obtain ⟨hshape, hready⟩ := ready_processBatch hI.inv hI.ready hp
      exact hI.of_step (serverInv_processBatch hI.inv hp) hready (fit_processBatch hI.inv hI.ready hI.fit hp) hshape
        ((kept_fixed B).processBatch hI.inv hI.ready hI.fit hp)

end Ollama.Runner
