import Ollama.Runner.Lemmas.Batch
import Ollama.Runner.Lemmas.Ready

/-!
# What the KV cache holds for all slots

The KV cache holds at most one row for a slot at a position, for the slots of the runner and within their contexts
only (`Compact`). This is so for the slots that are not in use as well: what a stop leaves behind the inputs of a slot
lies within its context, and is removed before the slot is used again.
-/

namespace Ollama.Runner

open Kvcache (maxInt32)

variable {σ ρ μ : Type} {K : KvCache σ ρ μ}

/-! ## The sequences still to be visited -/

/-- A batch is being gathered and the sequences at some places are still to be visited. -/
structure Waiting (K : KvCache σ ρ μ) (idxs : List Nat) (s : Server σ μ) (rows : List (BatchRow μ)) : Prop where
  gathering : Gathering K s rows
  pending : ∀ idx ∈ idxs, ∀ seq, s.seq idx = some seq → seq.pendingInputs = []
  inputs : ∀ idx ∈ idxs, ∀ seq, s.seq idx = some seq → seq.inputs ≠ []
  keeps : ∀ idx ∈ idxs, ∀ seq, s.seq idx = some seq → seq.numKeep < s.cache.numCtx

/-- Between two sections every sequence is still to be visited. -/
theorem ServerInv.waiting {s : Server σ μ} (h : ServerInv K s) (hready : Ready s) (idxs : List Nat) :
    Waiting K idxs s ({} : Options μ).rows :=
  ⟨h, fun _ _ _ hs => h.pending_nil hs, fun idx _ => hready.inputs idx, fun idx _ => hready.keeps idx⟩

/-- A visit, and what is left. -/
theorem Waiting.visit {env : Env} {idx : Nat} {idxs : List Nat} {kv : σ} {s s' : Server σ μ}
    {options options' : Options μ} (h : Waiting K (idx :: idxs) s options.rows) (hnot : idx ∉ idxs)
    (hg : gatherSeq K env idx s options = some (s', options')) (hv : Visit K idx kv s s') :
    Waiting K idxs s' options'.rows := by
  have hsame : ∀ {j seq}, j ∈ idxs → s'.seq j = some seq → j ∈ idx :: idxs ∧ s.seq j = some seq := by
    intro j seq hj hs
    refine ⟨List.mem_cons_of_mem _ hj, ?_⟩
    rwa [hv.seqs j (fun heq => hnot (heq ▸ hj))] at hs
  refine ⟨(gathering_gatherSeq h.gathering (h.pending idx (List.mem_cons_self ..)) hg).1, fun j hj seq hs => ?_,
    fun j hj seq hs => ?_, fun j hj seq hs => ?_⟩
  · obtain ⟨hmem, hs⟩ := hsame hj hs
    exact h.pending j hmem seq hs
  · obtain ⟨hmem, hs⟩ := hsame hj hs
    exact h.inputs j hmem seq hs
  · obtain ⟨hmem, hs⟩ := hsame hj hs
    rw [hv.numCtx]
    exact h.keeps j hmem seq hs

/-- The first visit of those still to come. -/
theorem Waiting.first {env : Env} {idx : Nat} {idxs : List Nat} {kv : σ} {s : Server σ μ} {options : Options μ}
    (h : Waiting K (idx :: idxs) s options.rows) (hkv : s.cache.cache = some kv) :
    (∃ seq, s.Shifts idx seq ∧ (s.shiftKv K seq kv).2 = true ∧ gatherSeq K env idx s options = none) ∨
    ∃ s' options', gatherSeq K env idx s options = some (s', options') ∧ Visit K idx kv s s' :=
  gatherSeq_visit h.gathering.placed hkv (h.pending idx (List.mem_cons_self ..)) (h.inputs idx (List.mem_cons_self ..))
    (h.keeps idx (List.mem_cons_self ..))

/-- The KV cache after a visit. -/
theorem Visit.exists_kv {idx : Nat} {kv : σ} {s s' : Server σ μ} (h : Visit K idx kv s s') :
    ∃ kv', s'.cache.cache = some kv' := by
  rcases h.kv with ⟨_, hkv⟩ | ⟨seq, _, _, hkv⟩
  · exact ⟨_, hkv⟩
  · exact ⟨_, hkv⟩

/-- What every visit keeps is kept by the loop over the sequences. -/
theorem gatherAll_invariant {I : Server σ μ → Prop}
    (hvisit : ∀ idx kv s s', s.cache.cache = some kv → Visit K idx kv s s' → I s → I s') {env : Env}
    {idxs : List Nat} (hnodup : idxs.Nodup) {kv : σ} {s s' : Server σ μ} {options options' : Options μ}
    (h : Waiting K idxs s options.rows) (hkv : s.cache.cache = some kv) (hI : I s)
    (hg : gatherAll K env idxs s options = some (s', options')) : I s' := by
  induction idxs generalizing s options kv with
  | nil =>
    obtain ⟨rfl, rfl⟩ := Prod.mk.inj (Option.some.inj hg)
    exact hI
  | cons idx idxs ih =>
    obtain ⟨hnot, hnodup'⟩ := List.nodup_cons.1 hnodup
    rw [gatherAll, Option.bind_eq_some_iff] at hg
    obtain ⟨⟨s₁, options₁⟩, h₁, hg⟩ := hg
    rcases h.first hkv with ⟨_, _, _, hnone⟩ | ⟨s₂, options₂, h₂, hv⟩
    · cases hnone.symm.trans h₁
    · obtain ⟨rfl, rfl⟩ := Prod.mk.inj (Option.some.inj (h₂.symm.trans h₁))
      obtain ⟨kv', hkv'⟩ := hv.exists_kv
      exact ih hnodup' (h.visit hnot h₁ hv) hkv' (hvisit idx kv s s₂ hkv hv hI) hg

/-! ## One row at a position -/

/-- At most one row for a slot at a position, of the first `n` slots and within the context. -/
def Compact (K : KvCache σ ρ μ) (n numCtx : Nat) (kv : σ) : Prop :=
  ∀ id k : Nat, (K.entries kv id k).card ≤ 1 ∧ (K.entries kv id k ≠ 0 → id < n ∧ k < numCtx)

/-- A cache stays compact when a sequence is shifted. -/
theorem Compact.shift {n numCtx : Nat} {kv : σ} (h : Compact K n numCtx kv) {seq keep discard : Nat}
    (hok : (K.remove seq keep (keep + discard) kv).2 = false) :
    Compact K n numCtx (K.remove seq keep (keep + discard) kv).1 := by
  intro id k
  by_cases hid : id = seq
  · subst hid
    rw [K.remove_spec (by omega) (by omega) hok]
    split
    · exact h id k
    · split
      · exact ⟨Nat.zero_le _, fun hne => absurd rfl hne⟩
      · have hpos : (k : Int) + (keep + discard - keep) = ((k + discard : Nat) : Int) := by omega
        rw [hpos, Multiset.card_map]
        obtain ⟨hone, hin⟩ := h id (k + discard)
        refine ⟨hone, fun hne => ?_⟩
        obtain ⟨h1, h2⟩ := hin (fun hzero => hne (by rw [hzero, Multiset.map_zero]))
        exact ⟨h1, by omega⟩
  · rw [K.remove_others id hid]
    exact h id k

/-- The KV cache after a slot is loaded. -/
theorem Compact.loaded {n numCtx : Nat} {kv kv' : σ} (h : Compact K n numCtx kv) {i : Nat} {ins : List (Input μ)}
    (hi : i < n) (hlen : ins.length ≤ numCtx) (hothers : ∀ j, j ≠ i → ∀ p, K.entries kv' j p = K.entries kv j p)
    (hholds : HoldsInputs K kv' i ins) (hends : EndsAt K kv' i ins.length) : Compact K n numCtx kv' := by
  intro id k
  by_cases hid : id = i
  · subst hid
    by_cases hk : k < ins.length
    · obtain ⟨rows, hrows, hone⟩ := hholds
      have hk' : k < rows.length := hrows ▸ hk
      obtain ⟨hentry, _⟩ := hone k rows[k] ins[k] (List.getElem?_eq_getElem hk') (List.getElem?_eq_getElem hk)
      rw [hentry]
      exact ⟨Nat.le_of_eq (Multiset.card_singleton _), fun _ => ⟨hi, by omega⟩⟩
    · rw [hends k (by omega)]
      exact ⟨Nat.zero_le _, fun hne => absurd rfl hne⟩
  · rw [hothers id hid]
    exact h id k

/-- The KV cache with the rows of a batch, as many as are counted for a slot at a position. -/
theorem Gathering.batch_entries {s : Server σ μ} {batch : List (BatchRow μ)} (h : Gathering K s batch) {kv : σ}
    (hkv : s.cache.cache = some kv) (hc : Compact K s.cache.slots.length s.cache.numCtx kv) (id k : Nat) :
    (K.entries kv id k).card + (batch.filter (fun x => x.seq = id ∧ x.pos = (k : Int))).length ≤ 1 ∧
      (0 < (batch.filter (fun x => x.seq = id ∧ x.pos = (k : Int))).length → id < s.cache.slots.length ∧
        k < s.cache.numCtx) := by
  have hfilter : batch.filter (fun x => x.seq = id ∧ x.pos = (k : Int)) =
      (batch.filter (fun x => x.seq = id)).filter (fun x => x.pos = (k : Int)) := by
    rw [List.filter_filter]
    congr 1
    funext x
    rw [Bool.decide_and, Bool.and_comm]
  rw [hfilter]
  by_cases hlive : ∃ i seq, s.seq i = some seq ∧ seq.cache = id
  · obtain ⟨i, seq, hs, rfl⟩ := hlive
    obtain ⟨slot, hslot, _, hroom⟩ := h.placed.live i seq hs
    rw [h.pending i seq slot hs hslot, filter_pendingRows]
    split
    · rename_i hle
      rw [h.ends kv hkv i seq slot hs hslot k hle]
      rcases hx : seq.pendingInputs[((k : Int) - slot.inputs.length).toNat]? with _ | x
      · exact ⟨Nat.zero_le _, fun hpos => absurd hpos (Nat.lt_irrefl 0)⟩
      · have hlt := (List.getElem?_eq_some_iff.1 hx).1
        exact ⟨Nat.le_refl 1, fun _ => ⟨(List.getElem?_eq_some_iff.1 hslot).1, by omega⟩⟩
    · exact ⟨(hc seq.cache k).1, fun hpos => absurd hpos (Nat.lt_irrefl 0)⟩
  · rw [h.idle id (fun i seq hs heq => hlive ⟨i, seq, hs, heq⟩)]
    exact ⟨(hc id k).1, fun hpos => absurd hpos (Nat.lt_irrefl 0)⟩

/-- The elements of a batch have positions of a context. -/
theorem Gathering.exists_pos {s : Server σ μ} {batch : List (BatchRow μ)} (h : Gathering K s batch) {x : BatchRow μ}
    (hx : x ∈ batch) :
    ∃ k : Nat, x.pos = k := by
  have hself : x ∈ batch.filter (fun y => y.seq = x.seq) := List.mem_filter.2 ⟨hx, decide_eq_true rfl⟩
  by_cases hlive : ∃ i seq, s.seq i = some seq ∧ seq.cache = x.seq
  · obtain ⟨i, seq, hs, heq⟩ := hlive
    obtain ⟨slot, hslot, _, _⟩ := h.placed.live i seq hs
    rw [← heq, h.pending i seq slot hs hslot] at hself
    have hat : x ∈ (pendingRows seq.cache slot.inputs.length seq.pendingInputs).filter (fun y => y.pos = x.pos) :=
      List.mem_filter.2 ⟨hself, decide_eq_true rfl⟩
    rw [filter_pendingRows] at hat
    split at hat
    · exact Int.eq_ofNat_of_zero_le (by omega)
    · nomatch hat
  · rw [h.idle x.seq (fun i seq hs heq => hlive ⟨i, seq, hs, heq⟩)] at hself
    nomatch hself

/-- A cache stays compact when a batch is placed. -/
theorem Compact.forward {s : Server σ μ} {batch : List (BatchRow μ)} {kv kv' : σ}
    (hc : Compact K s.cache.slots.length s.cache.numCtx kv) (h : Gathering K s batch) (hkv : s.cache.cache = some kv)
    (hf : K.forward batch kv = some kv') :
    Compact K s.cache.slots.length s.cache.numCtx kv' := by
  intro id k
  obtain ⟨row, hspec, _⟩ := K.forward_spec hf
  obtain ⟨hone, hin⟩ := h.batch_entries hkv hc id k
  rw [hspec, Multiset.card_add, Multiset.coe_card, List.length_map]
  refine ⟨hone, fun hne => ?_⟩
  by_cases hbatch : 0 < (batch.filter (fun x => x.seq = id ∧ x.pos = (k : Int))).length
  · exact hin hbatch
  · refine (hc id k).2 (fun hzero => hne ?_)
    rw [hzero, List.length_eq_zero_iff.1 (Nat.eq_zero_of_not_pos hbatch)]
    rfl

/-! ## Runs -/

/-- A server with a KV cache, which holds at most one row for each place in the contexts of its slots. -/
def Fit (K : KvCache σ ρ μ) (s : Server σ μ) : Prop :=
  ∃ kv, s.cache.cache = some kv ∧ Compact K s.cache.slots.length s.cache.numCtx kv

/-- A visit keeps the cache fit. -/
theorem fit_visit {idx : Nat} {kv : σ} {s s' : Server σ μ} (hkv : s.cache.cache = some kv)
    (hv : Visit K idx kv s s') (h : Fit K s) :
    Fit K s' := by
  obtain ⟨kv₀, hkv₀, hc⟩ := h
  obtain rfl : kv₀ = kv := Option.some.inj (hkv₀.symm.trans hkv)
  unfold Fit
  rw [hv.count, hv.numCtx]
  rcases hv.kv with ⟨_, hsame⟩ | ⟨seq, _, hok, hshift⟩
  · exact ⟨kv₀, hsame, hc⟩
  · exact ⟨_, hshift, hc.shift hok⟩

/-- The loop after the forward pass leaves the KV cache and the policy alone. -/
theorem cache_finishAll {env : Env} {idxs : List Nat} {s s' : Server σ μ} (hf : finishAll env idxs s = some s') :
    s'.cache.cache = s.cache.cache ∧ s'.cache.multiUserCache = s.cache.multiUserCache := by
  induction idxs generalizing s with
  | nil =>
    rw [← Option.some.inj hf]
    exact ⟨rfl, rfl⟩
  | cons idx idxs ih =>
    rw [finishAll, Option.bind_eq_some_iff] at hf
    obtain ⟨s₁, h₁, hf⟩ := hf
    obtain ⟨hcache, hpolicy⟩ := ih hf
    rw [hcache, hpolicy]
    rcases hs : s.seq idx with _ | seq
    · rw [finishSeq, hs] at h₁
      rw [← Option.some.inj h₁]
      exact ⟨rfl, rfl⟩
    · rcases finishSeq_cases hs h₁ with ⟨_, _, rfl⟩ | ⟨_, _, _, _, rfl⟩
      · exact ⟨rfl, rfl⟩
      · exact ⟨rfl, rfl⟩

/-- The batch that `processBatch` gathers. -/
theorem fit_gatherAll {env : Env} {s s₁ : Server σ μ} {options : Options μ} (hinv : ServerInv K s)
    (hready : Ready s) (h : Fit K s) (hg : gatherAll K env s.order s {} = some (s₁, options)) :
    Gathering K s₁ options.rows ∧ Fit K s₁ := by
  obtain ⟨kv, hkv, _⟩ := id h
  have hnodup : s.order.Nodup := nodup_rotate _ _
  have hstart := hinv.waiting hready s.order
  refine ⟨(gathering_gatherAll hnodup hstart.gathering hstart.pending hg).1, ?_⟩
  exact gatherAll_invariant (fun idx kv s s' hkv hv => fit_visit hkv hv) hnodup hstart hkv h hg

/-- `processBatch` keeps the cache fit. -/
theorem fit_processBatch {env : Env} {s s' : Server σ μ} (hinv : ServerInv K s) (hready : Ready s) (h : Fit K s)
    (hp : s.processBatch K env = some s') : Fit K s' := by
  obtain ⟨s₁, options, hg, hp⟩ := processBatch_cases hp
  obtain ⟨hgathering, kv₁, hkv₁, hc₁⟩ := fit_gatherAll hinv hready h hg
  rcases hp with ⟨_, rfl⟩ | ⟨s₂, hforward, hp⟩
  · exact ⟨kv₁, hkv₁, hc₁⟩
  rcases forward_cases hforward with ⟨hnone, _⟩ | ⟨kv, kv₂, hkv, hkv₂, rfl⟩
  · rw [hnone] at hkv₁
    nomatch hkv₁
  · obtain ⟨hshape, _⟩ := goesOn_finishAll List.nodup_range hp
    refine ⟨kv₂, (cache_finishAll hp).1, ?_⟩
    rw [hshape.slots, hshape.numCtx]
    obtain rfl : kv₁ = kv := Option.some.inj (hkv₁.symm.trans hkv)
    exact hc₁.forward hgathering hkv₁ hkv₂

/-- Whether there is a KV cache is kept. -/
theorem kept_unit (K : KvCache σ ρ μ) : Kept K (fun _ => ()) := ⟨fun _ => rfl, fun _ _ _ _ => rfl, fun _ _ _ _ => rfl⟩

/-- A new request keeps the cache fit. -/
theorem fit_completion {req : Request μ} {s s' : Server σ μ} (hinv : ServerInv K s) (h : Fit K s)
    (hc : s.completion K req = some s') :
    Fit K s' := by
  obtain ⟨kv, hkv, hcompact⟩ := id h
  rcases completion_cases hc with rfl | ⟨prompt, numKeep, i, c', out, hnew, _, _, hload, hout⟩
  · exact h
  have hlen := newInputs_length hinv.placed.ctx hnew
  rcases loadCacheSlot_spec hinv.holds hinv.placed.slots_small hload with ⟨rfl, rfl⟩ | ⟨slot, rest, s₀, ins, rfl, hl⟩
  · rcases hout with ⟨_, rfl⟩ | ⟨_, _, hsome, _⟩
    · exact h
    · nomatch hsome
  · rcases hout with ⟨hnone, _⟩ | ⟨_, _, _, rfl⟩
    · nomatch hnone
    have hkept := ((kept_unit K).loadCacheSlot hload).1
    rw [hkv, Option.map_some, Option.map_eq_some_iff] at hkept
    obtain ⟨kv', hkv', _⟩ := hkept
    obtain ⟨kv₀, hkv₀, hothers, hholds, hends⟩ := hl.some kv' hkv'
    obtain rfl : kv₀ = kv := Option.some.inj (hkv₀.symm.trans hkv)
    have hslots : c'.slots.length = s.cache.slots.length := by
      rw [hl.slots]
      exact List.length_set
    have hins : ins.length ≤ s.cache.numCtx := by
      have := congrArg List.length hl.prompt_eq
      simp only [List.length_map, List.length_append] at this
      omega
    refine ⟨kv', hkv', ?_⟩
    change Compact K c'.slots.length c'.numCtx kv'
    rw [hslots, hl.numCtx]
    exact hcompact.loaded (List.getElem?_eq_some_iff.1 hl.slot).1 hins hothers hholds hends

/-! ## What no call changes -/

/-- What removals keep of a cache is kept by a visit. -/
theorem Kept.visit {α : Type*} {f : σ → α} (hf : Kept K f) {idx : Nat} {kv : σ} {s s' : Server σ μ}
    (hkv : s.cache.cache = some kv) (hv : Visit K idx kv s s') : s'.cache.cache.map f = s.cache.cache.map f := by
  rcases hv.kv with ⟨_, hsame⟩ | ⟨seq, _, _, hshift⟩
  · rw [hsame, hkv]
  · rw [hshift, hkv]
    exact congrArg some (hf.remove _ _ _ _)

/-- What removals keep of a cache is kept while the batch is gathered. -/
theorem Kept.gatherAll {α : Type*} {f : σ → α} (hf : Kept K f) {env : Env} {s s₁ : Server σ μ} {options : Options μ}
    (hinv : ServerInv K s) (hready : Ready s) (h : Fit K s) (hg : gatherAll K env s.order s {} = some (s₁, options)) :
    s₁.cache.cache.map f = s.cache.cache.map f := by
  obtain ⟨kv, hkv, _⟩ := h
  exact gatherAll_invariant (I := fun s' => s'.cache.cache.map f = s.cache.cache.map f)
    (fun _ _ _ _ hkv hv hI => (hf.visit hkv hv).trans hI) (nodup_rotate _ _) (hinv.waiting hready _) hkv rfl hg

/-- What removals and batches keep of a cache is kept by `processBatch`. -/
theorem Kept.processBatch {α : Type*} {f : σ → α} (hf : Kept K f) {env : Env} {s s' : Server σ μ} (hinv : ServerInv K s)
    (hready : Ready s) (h : Fit K s) (hp : s.processBatch K env = some s') :
    s'.cache.cache.map f = s.cache.cache.map f := by
  obtain ⟨s₁, options, hg, hp⟩ := processBatch_cases hp
  have hsame := hf.gatherAll hinv hready h hg
  rcases hp with ⟨_, rfl⟩ | ⟨s₂, hforward, hp⟩
  · exact hsame
  · rw [(cache_finishAll hp).1, ← hsame]
    rcases forward_cases hforward with ⟨_, rfl⟩ | ⟨kv₁, kv₂, hkv₁, hkv₂, rfl⟩
    · rfl
    · rw [hkv₁]
      exact congrArg some (hf.forward hkv₂)

/-- What removals keep of a cache is kept by a new request. -/
theorem Kept.completion {α : Type*} {f : σ → α} (hf : Kept K f) {req : Request μ} {s s' : Server σ μ}
    (hc : s.completion K req = some s') : s'.cache.cache.map f = s.cache.cache.map f := by
  rcases completion_cases hc with rfl | ⟨_, _, _, _, _, _, _, _, hload, ⟨_, rfl⟩ | ⟨_, _, _, rfl⟩⟩
  · rfl
  · exact (hf.loadCacheSlot hload).1
  · exact (hf.loadCacheSlot hload).1

/-! ## Without forks -/

/-- A property of the KV cache that every call but `CopyPrefix` keeps. -/
structure Unforked (K : KvCache σ ρ μ) (P : σ → Prop) : Prop where
  forward : ∀ {batch : List (BatchRow μ)} {kv kv' : σ}, K.forward batch kv = some kv' → P kv → P kv'
  remove : ∀ (seq : Nat) (b e : Int) (kv : σ), P kv → P (K.remove seq b e kv).1

/-- The KV cache has a property if the policy is the one for a single user. -/
def Single (P : σ → Prop) (c : InputCache σ μ) : Prop := c.multiUserCache = false → ∀ kv, c.cache = some kv → P kv

/-- `processBatch` keeps what no call but `CopyPrefix` breaks. -/
theorem Unforked.processBatch {P : σ → Prop} (hP : Unforked K P) {env : Env} {s s' : Server σ μ} (hinv : ServerInv K s)
    (hready : Ready s) (hfit : Fit K s) (h : Single P s.cache) (hp : s.processBatch K env = some s') :
    Single P s'.cache := by
  obtain ⟨s₁, options, hg, hp⟩ := processBatch_cases hp
  obtain ⟨kv, hkv, _⟩ := hfit
  have hgathered : Single P s₁.cache := by
    refine gatherAll_invariant (I := fun s => Single P s.cache) (fun idx kv s s' hkv hv hI hpolicy kv' hkv' => ?_)
      (nodup_rotate _ _)
      (hinv.waiting hready _) hkv h hg
    rw [hv.policy] at hpolicy
    have hold := hI hpolicy kv hkv
    rcases hv.kv with ⟨_, hsame⟩ | ⟨seq, _, _, hshift⟩
    · rw [← Option.some.inj (hsame.symm.trans hkv')]
      exact hold
    · rw [← Option.some.inj (hshift.symm.trans hkv')]
      exact hP.remove _ _ _ kv hold
  rcases hp with ⟨_, rfl⟩ | ⟨s₂, hforward, hp⟩
  · exact hgathered
  · obtain ⟨hcache, hpolicy⟩ := cache_finishAll hp
    intro hsingle kv' hkv'
    rw [hpolicy] at hsingle
    rw [hcache] at hkv'
    rcases forward_cases hforward with ⟨hnone, rfl⟩ | ⟨kv₁, kv₂, hkv₁, hkv₂, rfl⟩
    · rw [hnone] at hkv'
      nomatch hkv'
    · rw [← Option.some.inj hkv']
      exact hP.forward hkv₂ (hgathered hsingle kv₁ hkv₁)

/-- For a single user, loading a slot keeps what no call but `CopyPrefix` breaks. -/
theorem Unforked.loadCacheSlot {P : σ → Prop} (hP : Unforked K P) {now later : Nat} {prompt : List (Input μ)}
    {cachePrompt : Bool} {c c' : InputCache σ μ} {out : Loaded μ} (hsingle : c.multiUserCache = false)
    (h : ∀ kv, c.cache = some kv → P kv) (hload : c.loadCacheSlot K now later prompt cachePrompt = some (c', out))
    (kv' : σ) (hkv' : c'.cache = some kv') : P kv' := by
  have hfind : c.findSlot K now prompt = some (c, longestFrom prompt c.slots 0 none) := by
    unfold InputCache.findSlot
    rw [hsingle]
    rfl
  unfold InputCache.loadCacheSlot at hload
  rw [hfind] at hload
  split at hload
  · rename_i hnone
    nomatch hnone
  · rename_i c₁ heq
    obtain ⟨rfl, _⟩ := Prod.mk.inj (Option.some.inj heq)
    rw [← (Prod.mk.inj (Option.some.inj hload)).1] at hkv'
    exact h kv' hkv'
  · rename_i c₁ i count heq
    obtain ⟨rfl, _⟩ := Prod.mk.inj (Option.some.inj heq)
    dsimp only at hload
    split at hload
    · nomatch hload
    · have hcache : (c.setSlot i { c.slot i with inUse := true, lastUsed := later }).cache = c.cache := rfl
      rw [hcache] at hload
      generalize (if (if cachePrompt = true then count else 0) =
        prompt.length then (if cachePrompt = true then count else 0) - 1
        else if cachePrompt = true then count else 0) = numPast at hload
      split at hload
      · rw [← (Prod.mk.inj (Option.some.inj hload)).1] at hkv'
        nomatch hkv'
      · rename_i kv hkv
        split at hload
        · split at hload
          · rw [← (Prod.mk.inj (Option.some.inj hload)).1] at hkv'
            rw [← Option.some.inj hkv']
            exact hP.remove _ _ _ _ (hP.remove _ _ _ _ (h kv hkv))
          · rw [← (Prod.mk.inj (Option.some.inj hload)).1] at hkv'
            rw [← Option.some.inj hkv']
            exact hP.remove _ _ _ _ (hP.remove _ _ _ _ (h kv hkv))
        · rw [← (Prod.mk.inj (Option.some.inj hload)).1] at hkv'
          rw [← Option.some.inj hkv']
          exact hP.remove _ _ _ _ (h kv hkv)

/-- For a single user, a new request keeps what no call but `CopyPrefix` breaks. -/
theorem Unforked.completion {P : σ → Prop} (hP : Unforked K P) {req : Request μ} {s s' : Server σ μ}
    (h : Single P s.cache) (hc : s.completion K req = some s') : Single P s'.cache := by
  rcases completion_cases hc with rfl | ⟨_, _, _, c', _, _, _, _, hload, hout⟩
  · exact h
  have hpolicy := ((kept_unit K).loadCacheSlot hload).2
  have hloaded : Single P c' := by
    intro hsingle kv' hkv'
    rw [hpolicy] at hsingle
    exact hP.loadCacheSlot hsingle (h hsingle) hload kv' hkv'
  rcases hout with ⟨_, rfl⟩ | ⟨_, _, _, rfl⟩
  · exact hloaded
  · exact hloaded

end Ollama.Runner
