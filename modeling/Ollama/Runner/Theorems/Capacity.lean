import Ollama.Runner.Lemmas.Causal

/-!
# The KV cache never overflows

The cache of a runner has a cell for every place in the contexts of its slots. In every run the cells in use and the
batch that is gathered fit in these places: each is one row of a slot at a position within its context, stale rows and
the rows a fork shares included. So `StartForward` finds a place for the batch, at once or after a defragmentation
(`startForward_has_room`).
-/

namespace Ollama.Runner

open Kvcache

variable {κ ν μ : Type} [Zero κ] [Zero ν] {B : Backend κ ν μ} {m : CausalModel κ}

namespace CapacityAux

/-- The cells that a batch will have. -/
def batchCells (batch : List (BatchRow μ)) : List CacheCell := batch.map (fun x => ⟨x.pos, [(x.seq : Int)]⟩)

theorem countP_batchCells (batch : List (BatchRow μ)) (s p : Nat) :
    (batchCells batch).countP (fun x => (s : Int) ∈ x.sequences ∧ x.pos = (p : Int)) =
      (batch.filter (fun x => x.seq = s ∧ x.pos = (p : Int))).length := by
  rw [batchCells, List.countP_map, ← List.countP_eq_length_filter]
  refine List.countP_congr (fun x _ => ?_)
  simp only [Function.comp_apply, decide_eq_true_eq, List.mem_singleton, Int.natCast_inj]
  exact and_congr_left (fun _ => eq_comm)

theorem used_batchCells (batch : List (BatchRow μ)) : (batchCells batch).countP (fun x => !x.empty) = batch.length := by
  have hlen : (batchCells batch).length = batch.length := List.length_map _
  rw [← hlen, List.countP_eq_length]
  intro x hx
  obtain ⟨y, _, rfl⟩ := List.mem_map.1 hx
  rfl

/-- The cells in use and the batch are no more than the places in the contexts. -/
theorem used_add_batch_le {s : Server (CausalState κ ν) μ} {batch : List (BatchRow μ)}
    (h : Gathering (causalCache B) s batch) {kv : CausalState κ ν} (hkv : s.cache.cache = some kv)
    (hc : Compact (causalCache B) s.cache.slots.length s.cache.numCtx kv) :
    kv.cache.used + batch.length ≤ s.cache.slots.length * s.cache.numCtx := by
  have hentries : ∀ id k : Nat, (causalCache B).entries kv id k = Multiset.replicate (kv.cache.count id k) () :=
    fun _ _ => rfl
  have hcount : ∀ id k : Nat, kv.cache.count id k +
    (batch.filter (fun x => x.seq = id ∧ x.pos = (k : Int))).length ≤ 1 := by
    intro id k
    have hone := (h.batch_entries hkv hc id k).1
    rwa [hentries, Multiset.card_replicate] at hone
  have hall : (kv.cache.cells ++ batchCells batch).countP (fun x => !x.empty) ≤
    s.cache.slots.length * s.cache.numCtx := by
    refine used_le (fun x hx hne => ?_) (fun id k => ?_)
    · rcases List.mem_append.1 hx with hx | hx
      · -- a cell in use is the row of a slot at its position
        rw [empty_iff] at hne
        obtain ⟨seq, hseq⟩ := List.exists_mem_of_ne_nil _ hne
        obtain ⟨h1, h2, _⟩ := kv.range x hx seq hseq
        obtain ⟨id, rfl⟩ := Int.eq_ofNat_of_zero_le h1
        obtain ⟨k, hk⟩ := Int.eq_ofNat_of_zero_le h2
        have hpos : 0 < kv.cache.count id k := List.countP_pos_iff.2 ⟨x, hx, decide_eq_true ⟨hseq, hk⟩⟩
        have hne' : (causalCache B).entries kv id k ≠ 0 := by
          intro hzero
          have hcard := congrArg Multiset.card hzero
          rw [hentries, Multiset.card_replicate, Multiset.card_zero] at hcard
          omega
        obtain ⟨h3, h4⟩ := (hc id k).2 hne'
        exact ⟨id, h3, k, h4, hseq, hk⟩
      · obtain ⟨y, hy, rfl⟩ := List.mem_map.1 hx
        obtain ⟨k, hk⟩ := h.exists_pos hy
        have hmem : y ∈ batch.filter (fun x => x.seq = y.seq ∧ x.pos = (k : Int)) :=
          List.mem_filter.2 ⟨hy, decide_eq_true ⟨rfl, hk⟩⟩
        obtain ⟨h3, h4⟩ := (h.batch_entries hkv hc y.seq k).2 (List.length_pos_of_mem hmem)
        exact ⟨y.seq, h3, k, h4, List.mem_singleton.2 rfl, hk⟩
    · rw [List.countP_append, countP_batchCells]
      exact hcount id k
  rw [List.countP_append, used_batchCells] at hall
  exact hall

end CapacityAux

open CapacityAux in
/-- In every run over the cache that `NewInputCache` makes, the batch that `processBatch` gathers has positions of a
context, and the call of `StartForward` for it does not return `ErrKvCacheFull`, whatever else the backend answers. -/
theorem startForward_has_room {s s₁ : Server (CausalState κ ν) μ} {env : Env} {options : Options μ}
    (h : (causalSystem B m).Reachable s) (hg : gatherAll (causalCache B) env s.order s {} = some (s₁, options))
    (hne : options.rows ≠ []) :
    ∃ kv, s₁.cache.cache = some kv ∧ (∀ x ∈ options.rows, 0 ≤ x.pos ∧ x.pos < maxInt32) ∧
      ∀ ctx : Ctx, (∀ n, ctx.floatErr ≠ some (.kvCacheFull n)) → ∀ c' n,
        kv.cache.startForward ctx (positions options.rows) (sequences options.rows) ≠
          some (c', some (.kvCacheFull n)) := by
  have hinv := causalInv_reachable h
  obtain ⟨hgathering, kv, hkv, hc⟩ := fit_gatherAll hinv.inv hinv.ready hinv.fit hg
  refine ⟨kv, hkv, fun x hx => ?_, fun ctx hctx c' n hfull => ?_⟩
  · obtain ⟨k, hk⟩ := hgathering.exists_pos hx
    have hmem : x ∈ options.rows.filter (fun y => y.seq = x.seq ∧ y.pos = (k : Int)) :=
      List.mem_filter.2 ⟨hx, decide_eq_true ⟨rfl, hk⟩⟩
    have hlt := ((hgathering.batch_entries hkv hc x.seq k).2 (List.length_pos_of_mem hmem)).2
    have hsmall := hgathering.placed.small
    omega
  · have hused := used_add_batch_le hgathering hkv hc
    have hshape := (from_gatherAll (nodup_rotate _ _) hg).1
    have hcapacity : s₁.cache.slots.length * s₁.cache.numCtx ≤ kv.cache.capacity := by
      obtain ⟨kv₀, hkv₀, _⟩ := hinv.fit
      have hkept := (kept_fixed B).gatherAll hinv.inv hinv.ready hinv.fit hg
      rw [hkv, hkv₀, Option.map_some, Option.map_some, Option.some.injEq] at hkept
      have hsame : kv.cache.capacity = kv₀.cache.capacity := congrArg Prod.fst hkept
      rw [hshape.slots, hshape.numCtx, hsame]
      exact hinv.capacity kv₀ hkv₀
    have hlen : (positions options.rows).length = options.rows.length := List.length_map _
    have hpos : 0 < options.rows.length := List.length_pos_iff.2 hne
    have herr := startForward_not_full (by rw [hlen]; exact hpos) (by rw [hlen, kv.inv.length]; omega) hfull
    exact hctx n herr.symm

/-- A backend that answers every call, and a model of one layer. -/
def oneLayer : Backend Int Int Unit :=
  ⟨fun _ => { maxTensors := 100 }, fun _ _ batch => [batch.map (fun x => (x.pos, x.input.token))]⟩

/-- A model whose keys are positions. -/
def positionKeys : CausalModel Int := ⟨maxInt32, by decide, some (fun _ key offset => key + offset), {}⟩

/-- The first state of a run with the cache of this model. -/
def firstServer (kvSize numSlots batchSize : Nat) (multiUserCache : Bool) :
    Option (Server (CausalState Int Int) Unit) :=
  (newInputCache positionKeys kvSize numSlots multiUserCache).map (fun cache =>
    { seqs := List.replicate numSlots none, batchSize := batchSize, cache := cache })

theorem reachable_firstServer {kvSize numSlots batchSize : Nat} {multiUserCache : Bool}
    {s : Server (CausalState Int Int) Unit} (h : firstServer kvSize numSlots batchSize multiUserCache = some s) :
    (causalSystem oneLayer positionKeys).Reachable s := by
  obtain ⟨cache, hcache, rfl⟩ := Option.map_eq_some_iff.1 h
  exact Lib.System.Reachable.init ⟨kvSize, numSlots, batchSize, multiUserCache, cache, hcache, rfl⟩

/-- A prompt of four tokens in a cache of two contexts of four: there is room for the first batch. -/
theorem startForward_has_room_four : ∃ (s s₁ : Server (CausalState Int Int) Unit) (options : Options Unit) (env : Env)
    (kv : CausalState Int Int),
    (causalSystem oneLayer positionKeys).Reachable s ∧ gatherAll (causalCache oneLayer) env s.order s {} =
      some (s₁, options) ∧ options.rows.length = 4 ∧ s₁.cache.cache = some kv ∧
    ∀ c' n, kv.cache.startForward {} (positions options.rows) (sequences options.rows) ≠
      some (c', some (.kvCacheFull n)) := by
  let prompt : List (Input Unit) := [{ token := 1 }, { token := 2 }, { token := 3 }, { token := 4 }]
  let req : Request Unit := ⟨prompt, true, 0, -1, [], false, 1, 2⟩
  let env : Env := ⟨fun _ _ => some 9, fun _ => false, fun _ => some [], fun _ => true⟩
  have hrun : ((firstServer 8 2 4 true).bind (Server.completion (causalCache oneLayer) req)).bind (fun s =>
      (gatherAll (causalCache oneLayer) env s.order s {}).map (fun out => out.2.rows.length)) =
        some 4 := by decide +kernel
  rw [Option.bind_eq_some_iff] at hrun
  obtain ⟨s, hs, hrun⟩ := hrun
  rw [Option.bind_eq_some_iff] at hs
  obtain ⟨s₀, hs₀, hs⟩ := hs
  rw [Option.map_eq_some_iff] at hrun
  obtain ⟨⟨s₁, options⟩, hg, hlen⟩ := hrun
  have hreach : (causalSystem oneLayer positionKeys).Reachable s := (reachable_firstServer hs₀).step (Or.inl ⟨req, hs⟩)
  have hne : options.rows ≠ [] := by
    intro hnil
    rw [hnil] at hlen
    nomatch hlen
  obtain ⟨kv, hkv, _, hroom⟩ := startForward_has_room hreach hg hne
  exact ⟨s, s₁, options, env, kv, hreach, hg, hlen, hkv, hroom {} nofun⟩

end Ollama.Runner
