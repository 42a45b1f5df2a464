import Ollama.Runner.Handlers
import Ollama.Runner.Lemmas.Ready

/-!
# What the handlers and the loop do to the slots

The places of a server and its slots are an allocation: a place holds the slot of its sequence, and a slot is in use
or not. A turn of a loop of `processBatch` leaves it alone or releases the slot of the sequence it removes; a handler
that puts its sequence in place claims a free slot for an empty place. `Balanced` is what this keeps, with the permits
counted.
-/

namespace Ollama.Runner

open Lib

variable {σ ρ μ : Type} {K : KvCache σ ρ μ}

/-- The slots of the sequences, and which slots are in use. -/
def Server.allocation (s : Server σ μ) : Allocation :=
  ⟨s.seqs.map (Option.map Sequence.cache), s.cache.slots.map InputCacheSlot.inUse⟩

theorem allocation_places {s : Server σ μ} {i key : Nat} :
    s.allocation.places[i]? = some (some key) ↔ ∃ seq, s.seq i = some seq ∧ seq.cache = key := by
  unfold Server.allocation Server.seq
  rw [List.getElem?_map, Option.map_eq_some_iff]
  constructor
  · rintro ⟨o, ho, hkey⟩
    obtain ⟨seq, rfl, hcache⟩ := Option.map_eq_some_iff.1 hkey
    exact ⟨seq, by rw [ho]; rfl, hcache⟩
  · rintro ⟨seq, hseq, rfl⟩
    exact ⟨some seq, Option.join_eq_some_iff.1 hseq, rfl⟩

theorem allocation_used {s : Server σ μ} {key : Nat} :
    s.allocation.used[key]? = some true ↔ ∃ slot, s.cache.slots[key]? = some slot ∧ slot.inUse = true := by
  unfold Server.allocation
  rw [List.getElem?_map, Option.map_eq_some_iff]

theorem allocation_live (s : Server σ μ) : s.allocation.live = s.seqs.countP Option.isSome := by
  unfold Server.allocation Allocation.live
  rw [List.countP_map]
  refine List.countP_congr (fun o _ => ?_)
  cases o <;> rfl

/-! ## Turns -/

/-- A slot that stays in use or free. -/
theorem inUse_setSlot (c : InputCache σ μ) (i : Nat) (slot : InputCacheSlot μ) (h : slot.inUse = (c.slot i).inUse) :
    (c.setSlot i slot).slots.map InputCacheSlot.inUse = c.slots.map InputCacheSlot.inUse := by
  unfold InputCache.setSlot
  rw [List.map_set, h]
  unfold InputCache.slot
  by_cases hi : i < c.slots.length
  · have hi' : i < (c.slots.map InputCacheSlot.inUse).length := by rwa [List.length_map]
    have hget : (c.slots[i]?.getD {}).inUse = (c.slots.map InputCacheSlot.inUse)[i] := by
      rw [List.getElem?_eq_getElem hi, Option.getD_some, List.getElem_map]
    rw [hget, List.set_getElem_self]
  · rw [List.set_eq_of_length_le (by rw [List.length_map]; exact Nat.le_of_not_lt hi)]

/-- A sequence that keeps its slot. -/
theorem cache_setSeq {s : Server σ μ} {i : Nat} {seq seq' : Sequence μ} (hs : s.seq i = some seq)
    (h : seq'.cache = seq.cache) :
    (s.setSeq i (some seq')).seqs.map (Option.map Sequence.cache) = s.seqs.map (Option.map Sequence.cache) := by
  obtain ⟨hi, hget⟩ := List.getElem?_eq_some_iff.1 (Option.join_eq_some_iff.1 hs)
  have hi' : i < (s.seqs.map (Option.map Sequence.cache)).length := by rwa [List.length_map]
  have hself : Option.map Sequence.cache (some seq') = (s.seqs.map (Option.map Sequence.cache))[i] := by
    rw [List.getElem_map, hget, Option.map_some, Option.map_some, h]
  show (s.seqs.set i (some seq')).map (Option.map Sequence.cache) = _
  rw [List.map_set, hself, List.set_getElem_self]

theorem allocation_removeSequence (env : Env) (i : Nat) (seq : Sequence μ) (s : Server σ μ) :
    (s.removeSequence env i seq).allocation = s.allocation.release i seq.cache := by
  unfold Server.removeSequence Server.setSeq InputCache.setSlot Server.allocation Allocation.release
  rw [Allocation.mk.injEq, List.map_set, List.map_set]
  exact ⟨rfl, rfl⟩

/-- What a turn of a loop of `processBatch` does to places and slots: nothing, or it removes the sequence of a place. -/
structure Turned (s s' : Server σ μ) : Prop where
  numCtx : s'.cache.numCtx = s.cache.numCtx
  policy : s'.cache.multiUserCache = s.cache.multiUserCache
  outcome : (s'.allocation = s.allocation ∧ s'.finished.length = s.finished.length) ∨
    ∃ i key, s.allocation.places[i]? = some (some key) ∧ s'.allocation = s.allocation.release i key ∧
      s'.finished.length = s.finished.length + 1

theorem Turned.refl (s : Server σ μ) : Turned s s := ⟨rfl, rfl, .inl ⟨rfl, rfl⟩⟩

theorem turned_removeSequence {s : Server σ μ} (env : Env) {i : Nat} {seq seq' : Sequence μ} (hs : s.seq i = some seq)
    (hcache : seq'.cache = seq.cache) : Turned s (s.removeSequence env i seq') := by
  refine ⟨rfl, rfl, .inr ⟨i, seq'.cache, allocation_places.2 ⟨seq, hs, hcache.symm⟩,
    allocation_removeSequence env i seq' s, ?_⟩⟩
  exact List.length_append

/-- The inputs of slots are no part of the allocation. -/
theorem allocation_setInputs (s : Server σ μ) (i : Nat) (inputs : List (Input μ)) :
    (s.setInputs i inputs).allocation = s.allocation := by
  have hslots := inUse_setSlot s.cache i { s.cache.slot i with inputs := inputs } rfl
  unfold Server.allocation
  rw [Allocation.mk.injEq]
  exact ⟨rfl, hslots⟩

theorem turned_gatherSeq {env : Env} {s s' : Server σ μ} {idx : Nat} {options options' : Options μ}
    (hg : gatherSeq K env idx s options = some (s', options')) : Turned s s' := by
  unfold gatherSeq at hg
  split at hg
  · obtain ⟨rfl, rfl⟩ := Prod.mk.inj (Option.some.inj hg)
    exact .refl s
  · rename_i seq hs
    split at hg
    · obtain ⟨rfl, rfl⟩ := Prod.mk.inj (Option.some.inj hg)
      exact turned_removeSequence env hs rfl
    · rw [Option.map_eq_some_iff] at hg
      obtain ⟨g, hg, heq⟩ := hg
      obtain ⟨rfl, rfl⟩ := Prod.mk.inj heq
      have hkept := gather_kept
        (fun g => (g.seq.cache, g.cache.slots.map InputCacheSlot.inUse, g.cache.numCtx, g.cache.multiUserCache))
        (fun _ _ _ _ => rfl) (fun _ _ => rfl)
        (fun g inputs cache => congrArg (fun used => (g.seq.cache, used, g.cache.numCtx, g.cache.multiUserCache))
          (inUse_setSlot g.cache g.seq.cache _ rfl)) hg
      rw [Prod.mk.injEq, Prod.mk.injEq, Prod.mk.injEq] at hkept
      obtain ⟨hcache, hslots, hctx, hpolicy⟩ := hkept
      -- without a KV cache the inputs of the slot have been taken from it
      have hstart : ∀ (seq₁ : Sequence μ) (s₁ : Server σ μ), seq₁.cache = seq.cache → s₁.seqs = s.seqs →
        s₁.finished = s.finished →
          s₁.cache.numCtx = s.cache.numCtx → s₁.cache.multiUserCache = s.cache.multiUserCache →
          s₁.allocation = s.allocation →
          g.seq.cache = seq₁.cache → g.cache.slots.map InputCacheSlot.inUse = s₁.cache.slots.map InputCacheSlot.inUse →
          g.cache.numCtx = s₁.cache.numCtx → g.cache.multiUserCache = s₁.cache.multiUserCache →
          Turned s { s₁.setSeq idx (some { g.seq with inputs := g.seq.inputs.drop g.seq.pendingInputs.length }) with
            cache := g.cache, nextSeq := g.nextSeq } := by
        intro seq₁ s₁ hseq₁ hseqs hfinished hctx₁ hpolicy₁ halloc hcache hslots hctx hpolicy
        refine ⟨hctx.trans hctx₁, hpolicy.trans hpolicy₁, .inl ⟨?_, congrArg List.length hfinished⟩⟩
        rw [← halloc]
        unfold Server.allocation
        rw [Allocation.mk.injEq]
        have hs₁ : s₁.seq idx = some seq := by
          rw [Server.seq, hseqs]
          exact hs
        exact ⟨cache_setSeq hs₁ (hcache.trans hseq₁), hslots⟩
      by_cases hdis : s.cache.cache.isNone = true
      · simp only [hdis, if_true] at hcache hslots hctx hpolicy ⊢
        exact hstart { seq with inputs := (s.cache.slot seq.cache).inputs ++ seq.inputs }
          (s.setInputs seq.cache []) rfl rfl rfl rfl rfl
          (allocation_setInputs s seq.cache []) hcache hslots hctx hpolicy
      · simp only [hdis, Bool.false_eq_true, if_false] at hcache hslots hctx hpolicy ⊢
        exact hstart seq s rfl rfl rfl rfl rfl rfl hcache hslots hctx hpolicy

theorem turned_finishSeq {env : Env} {i : Nat} {s s' : Server σ μ} (hf : finishSeq env i s = some s') :
    Turned s s' := by
  rcases hs : s.seq i with _ | seq
  · rw [finishSeq, hs] at hf
    rw [← Option.some.inj hf]
    exact .refl s
  · have hinputs : ∀ inputs, Turned s (s.setInputs seq.cache inputs) :=
      fun inputs => ⟨rfl, rfl, .inl ⟨allocation_setInputs s _ inputs, rfl⟩⟩
    rcases finishSeq_cases hs hf with ⟨seq', hon, rfl⟩ | ⟨seq', n, hcache, _, rfl⟩
    · refine ⟨rfl, rfl, .inl ⟨?_, rfl⟩⟩
      rw [← allocation_setInputs s seq.cache ((s.cache.slot seq.cache).inputs ++ seq.pendingInputs)]
      unfold Server.allocation
      rw [Allocation.mk.injEq]
      exact ⟨cache_setSeq hs hon.cache, rfl⟩
    · generalize ((s.cache.slot seq.cache).inputs ++ seq.pendingInputs).take n = inputs
      have hremoved : Turned (s.setInputs seq.cache inputs)
        ((s.setInputs seq.cache inputs).removeSequence env i seq') := turned_removeSequence env hs hcache
      have hsame := allocation_setInputs s seq.cache inputs
      obtain ⟨hctx, hpolicy, hout⟩ := hremoved
      rw [hsame] at hout
      exact ⟨hctx, hpolicy, hout⟩

/-- The forward pass is on the KV cache only. -/
theorem allocation_forward {s s' : Server σ μ} {rows : List (BatchRow μ)} (h : s.forward K rows = some s') :
    s'.allocation = s.allocation ∧ s'.cache.numCtx = s.cache.numCtx ∧ s'.cache.multiUserCache = s.cache.multiUserCache ∧
      s'.seqs.length = s.seqs.length ∧ s'.finished = s.finished := by
  rcases forward_cases h with ⟨_, rfl⟩ | ⟨_, _, _, _, rfl⟩
  · exact ⟨rfl, rfl, rfl, rfl, rfl⟩
  · exact ⟨rfl, rfl, rfl, rfl, rfl⟩

/-! ## The section of a handler -/

/-- `findLongestCacheSlot` finds a slot where one is free. -/
theorem longestFrom_isSome (prompt : List (Input μ)) (slots : List (InputCacheSlot μ)) (i : Nat)
    (best : Option (Nat × Nat)) (h : best.isSome = true ∨ ∃ s ∈ slots, s.inUse = false) :
    (longestFrom prompt slots i best).isSome = true := by
  induction slots generalizing i best with
  | nil =>
    rcases h with hbest | ⟨_, hmem, _⟩
    · exact hbest
    · cases hmem
  | cons s rest ih =>
    rw [longestFrom]
    split
    · rename_i huse
      refine ih (i + 1) best ?_
      rcases h with hbest | ⟨s', hmem, hfree⟩
      · exact .inl hbest
      · rcases List.mem_cons.1 hmem with rfl | hmem
        · cases huse.symm.trans hfree
        · exact .inr ⟨s', hmem, hfree⟩
    · refine ih (i + 1) _ (.inl ?_)
      cases best with
      | none => rfl
      | some b => split <;> rfl

/-- By the policy of a single user, a prompt gets a free slot, without an error. -/
theorem loadCacheSlot_single {c : InputCache σ μ} (hpolicy : c.multiUserCache = false) {j : Nat}
    (hfree : IsFree c.slots j) {prompt : List (Input μ)} (hne : prompt ≠ []) (now later : Nat) (cachePrompt : Bool) :
    ∃ c' i rest, c.loadCacheSlot K now later prompt cachePrompt = some (c', some (i, rest)) ∧ IsFree c.slots i ∧
      c'.slots.map InputCacheSlot.inUse = (c.slots.map InputCacheSlot.inUse).set i true ∧ c'.numCtx = c.numCtx ∧
      c'.multiUserCache = c.multiUserCache := by
  obtain ⟨s, hs, hsfree⟩ := hfree
  have hsome := longestFrom_isSome prompt c.slots 0 none (.inr ⟨s, List.mem_of_getElem? hs, hsfree⟩)
  obtain ⟨⟨i, count⟩, hfound⟩ := Option.isSome_iff_exists.1 hsome
  have hi : IsFree c.slots i :=
    (longestFrom_spec prompt c.slots c.slots 0 none rfl (fun _ _ h => nomatch h) (fun _ _ h => nomatch h)).2 i
      count hfound
  have hfind : c.findSlot K now prompt = some (c, some (i, count)) := by
    rw [InputCache.findSlot, hpolicy, ← hfound]
    rfl
  have hlen : prompt.length ≠ 0 := fun h => hne (List.length_eq_zero_iff.1 h)
  have hslots : ∀ inputs, let c₁ := c.setSlot i { c.slot i with inUse := true, lastUsed := later }
      (c₁.setSlot i { c₁.slot i with inputs := inputs }).slots.map InputCacheSlot.inUse =
        (c.slots.map InputCacheSlot.inUse).set i true := by
    intro inputs c₁
    exact (inUse_setSlot c₁ i { c₁.slot i with inputs := inputs } rfl).trans List.map_set
  unfold InputCache.loadCacheSlot
  rw [hfind]
  dsimp only
  rw [if_neg hlen]
  generalize (if (if cachePrompt = true then count else 0) =
    prompt.length then (if cachePrompt = true then count else 0) - 1
    else if cachePrompt = true then count else 0) = numPast
  split
  · exact ⟨_, i, _, rfl, hi, hslots _, rfl, rfl⟩
  · split
    · rw [if_neg (by rw [K.remove_all]; decide)]
      exact ⟨_, i, _, rfl, hi, hslots _, rfl, rfl⟩
    · exact ⟨_, i, _, rfl, hi, hslots _, rfl, rfl⟩

/-- A handler with inputs claims a free slot for an empty place, where there is one, without an error. -/
theorem insert_claims {s : Server σ μ} (hpolicy : s.cache.multiUserCache = false) (hmatched : s.allocation.Matched)
    (hlen : s.allocation.used.length = s.allocation.places.length)
    (hempty : s.allocation.live < s.allocation.places.length) {prompt : List (Input μ)} (hne : prompt ≠ [])
    (req : Request μ) (numKeep : Nat) :
    ∃ s' i key, s.insert K req prompt numKeep = some (s', none) ∧ s.allocation.places[i]? = some none ∧
      s.allocation.used[key]? = some false ∧ s'.allocation = s.allocation.claim i key ∧
        s'.cache.numCtx = s.cache.numCtx ∧
      s'.cache.multiUserCache = s.cache.multiUserCache ∧ s'.seqs.length = s.seqs.length := by
  obtain ⟨key, hkey⟩ := hmatched.exists_free hlen hempty
  have hfree : IsFree s.cache.slots key := by
    unfold Server.allocation at hkey
    rw [List.getElem?_map, Option.map_eq_some_iff] at hkey
    exact hkey
  obtain ⟨c', slot, rest, hload, hslot, hinUse, hctx, hpolicy'⟩ :=
    loadCacheSlot_single (K := K) hpolicy hfree hne req.now req.later req.cachePrompt
  have hplace : ∃ i, s.seqs.findIdx? Option.isNone = some i := by
    have hnone := Allocation.exists_empty hempty
    obtain ⟨o, ho, heq⟩ := List.mem_map.1 hnone
    rw [Option.map_eq_none_iff] at heq
    subst heq
    exact Option.isSome_iff_exists.1 (List.findIdx?_isSome.trans (List.any_eq_true.2 ⟨none, ho, rfl⟩))
  obtain ⟨i, hi⟩ := hplace
  obtain ⟨hlt, hnone, _⟩ := List.findIdx?_eq_some_iff_getElem.1 hi
  let seq : Sequence μ :=
    { inputs := rest, cache := slot, numPredict := req.numPredict, numKeep := numKeep, stop := req.stop
      embeddingOnly := req.embeddingOnly }
  refine ⟨{ s.setSeq i (some seq) with cache := c' }, i, slot, ?_, ?_, ?_, ?_, hctx, hpolicy', List.length_set⟩
  · rw [Server.insert, hi]
    dsimp only
    rw [hload]
    rfl
  · show (s.seqs.map (Option.map Sequence.cache))[i]? = some none
    rw [List.getElem?_map, List.getElem?_eq_getElem hlt, Option.isNone_iff_eq_none.1 hnone]
    rfl
  · obtain ⟨sl, hsl, hfree⟩ := hslot
    show (s.cache.slots.map InputCacheSlot.inUse)[slot]? = some false
    rw [List.getElem?_map, hsl, Option.map_some, hfree]
  · unfold Server.allocation Allocation.claim
    rw [Allocation.mk.injEq]
    exact ⟨List.map_set, hinUse⟩

end Ollama.Runner
