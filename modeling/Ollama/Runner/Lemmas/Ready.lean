import Ollama.Runner.Lemmas.Server

/-!
# What every sequence has

A sequence has inputs to process whenever a batch is gathered, and keeps fewer of them at a shift than the context
has. The numbers of places and slots and the sizes of the context and of a batch are the same in a whole run.
-/

namespace Ollama.Runner

variable {σ ρ μ : Type} {K : KvCache σ ρ μ}

/-- The sizes of a server. -/
structure SameShape (s s' : Server σ μ) : Prop where
  numCtx : s'.cache.numCtx = s.cache.numCtx
  slots : s'.cache.slots.length = s.cache.slots.length
  seqs : s'.seqs.length = s.seqs.length
  batchSize : s'.batchSize = s.batchSize

theorem SameShape.refl (s : Server σ μ) : SameShape s s := ⟨rfl, rfl, rfl, rfl⟩

theorem SameShape.trans {s s' s'' : Server σ μ} (h : SameShape s s') (h' : SameShape s' s'') : SameShape s s'' :=
  ⟨h'.numCtx.trans h.numCtx, h'.slots.trans h.slots, h'.seqs.trans h.seqs, h'.batchSize.trans h.batchSize⟩

theorem sameShape_removeSequence (env : Env) (i : Nat) (seq : Sequence μ) (s : Server σ μ) :
    SameShape s (s.removeSequence env i seq) := ⟨rfl, List.length_set, List.length_set, rfl⟩

theorem sameShape_setInputs (s : Server σ μ) (i : Nat) (inputs : List (Input μ)) : SameShape s (s.setInputs i inputs) :=
  ⟨rfl, List.length_set, rfl, rfl⟩

/-- Every sequence has inputs, and keeps fewer than the context has. -/
structure Ready (s : Server σ μ) : Prop where
  inputs : ∀ i seq, s.seq i = some seq → seq.inputs ≠ []
  keeps : ∀ i seq, s.seq i = some seq → seq.numKeep < s.cache.numCtx

/-! ## Gathering -/

theorem setSlot_self (c : InputCache σ μ) (i : Nat) : c.setSlot i (c.slot i) = c := by
  unfold InputCache.setSlot InputCache.slot
  by_cases hi : i < c.slots.length
  · rw [List.getElem?_eq_getElem hi, Option.getD_some, List.set_getElem_self]
  · rw [List.set_eq_of_length_le (Nat.le_of_not_lt hi)]

/-- A shift changes the inputs of a slot and the KV cache. -/
theorem shiftCacheSlot_eq {c c' : InputCache σ μ} {i numKeep : Nat} (h : c.shiftCacheSlot K i numKeep = some c') :
    ∃ inputs cache, c' = { c.setSlot i { c.slot i with inputs := inputs } with cache := cache } := by
  unfold InputCache.shiftCacheSlot at h
  dsimp only at h
  split at h
  · nomatch h
  · split at h
    · refine ⟨(c.slot i).inputs, c.cache, ?_⟩
      show c' = c.setSlot i (c.slot i)
      rw [setSlot_self]
      exact (Option.some.inj h).symm
    · split at h
      · split at h
        · nomatch h
        · exact ⟨_, _, (Option.some.inj h).symm⟩
      · split at h
        · nomatch h
        · split at h
          · nomatch h
          · exact ⟨_, _, (Option.some.inj h).symm⟩

/-- What no input that is added and no shift of the slot changes, the loop over the inputs of a sequence keeps. -/
theorem gather_kept {α : Type*} (f : Gather σ μ → α) (hadd : ∀ total i input g, f (g.add total i input) = f g)
    (hnext : ∀ g n, f { g with nextSeq := n } = f g)
    (hshift : ∀ g inputs cache,
      f { g with cache := { g.cache.setSlot g.seq.cache { g.cache.slot g.seq.cache with inputs := inputs } with
      cache := cache } } = f g)
    {idx batchSize total : Nat} {inputs : List (Input μ)} {i : Nat} {g g' : Gather σ μ}
    (h : gather K idx batchSize total inputs i g = some g') : f g' = f g := by
  induction inputs generalizing i g with
  | nil => rw [Option.some.inj h]
  | cons input rest ih =>
    rw [gather] at h
    dsimp only at h
    have hturn : ∀ g₁ : Gather σ μ,
      (if i ≥ batchSize then some g₁ else if g₁.breaks input then some { g₁ with nextSeq := idx }
        else gather K idx batchSize total rest (i + 1) (g₁.add total i input)) = some g' → f g' = f g₁ := by
      intro g₁ h
      split at h
      · rw [Option.some.inj h]
      · split at h
        · rw [← Option.some.inj h, hnext]
        · rw [ih h, hadd]
    split at h
    · split at h
      · rw [Option.bind_eq_some_iff] at h
        obtain ⟨c, hc, h⟩ := h
        obtain ⟨inputs, cache, rfl⟩ := shiftCacheSlot_eq hc
        rw [hturn _ h, hshift]
      · rw [Option.some.inj h]
    · exact hturn g h

/-- The loop over the inputs of a sequence changes what is pending of it, and its slot. -/
theorem gather_shape {idx batchSize total : Nat} {inputs : List (Input μ)} {i : Nat} {g g' : Gather σ μ}
    (h : gather K idx batchSize total inputs i g = some g') :
    g'.seq.inputs = g.seq.inputs ∧ g'.seq.numKeep = g.seq.numKeep ∧ g'.cache.numCtx = g.cache.numCtx ∧
      g'.cache.slots.length = g.cache.slots.length := by
  have hkept := gather_kept (fun g => (g.seq.inputs, g.seq.numKeep, g.cache.numCtx, g.cache.slots.length))
    (fun _ _ _ _ => rfl) (fun _ _ => rfl) (fun g inputs cache => by simp only [InputCache.setSlot, List.length_set]) h
  simpa only [Prod.mk.injEq] using hkept

/-- A sequence that is gathered from: it has inputs left where none is pending. -/
structure From (seq seq' : Sequence μ) : Prop where
  numKeep : seq'.numKeep = seq.numKeep
  inputs : seq.inputs ≠ [] → seq'.pendingInputs = [] → seq'.inputs ≠ []

/-- A turn of the loop over the sequences. -/
theorem from_gatherSeq {env : Env} {s s' : Server σ μ} {idx : Nat} {options options' : Options μ}
    (hg : gatherSeq K env idx s options = some (s', options')) :
    SameShape s s' ∧ ∀ j seq', s'.seq j = some seq' →
      (s.seq j = some seq' ∧ j ≠ idx) ∨ (j = idx ∧ ∃ seq, s.seq j = some seq ∧ From seq seq') := by
  unfold gatherSeq at hg
  split at hg
  · rename_i hs
    obtain ⟨rfl, rfl⟩ := Prod.mk.inj (Option.some.inj hg)
    refine ⟨.refl s, fun j seq' h => .inl ⟨h, ?_⟩⟩
    rintro rfl
    exact absurd (hs.symm.trans h) nofun
  · rename_i seq hs
    have hi := seq_lt hs
    split at hg
    · obtain ⟨rfl, rfl⟩ := Prod.mk.inj (Option.some.inj hg)
      refine ⟨sameShape_removeSequence env idx seq s, fun j seq' h => .inl ?_⟩
      have h' := (seq_setSeq s hi none j).symm.trans h
      split at h'
      · nomatch h'
      · rename_i hj
        exact ⟨h', hj⟩
    · rw [Option.map_eq_some_iff] at hg
      obtain ⟨g, hg, heq⟩ := hg
      obtain ⟨rfl, rfl⟩ := Prod.mk.inj heq
      obtain ⟨h1, h2, h3, h4⟩ := gather_shape hg
      have hshape : ∀ s₁ : Server σ μ, SameShape s s₁ → g.cache.numCtx = s₁.cache.numCtx →
        g.cache.slots.length = s₁.cache.slots.length →
          ∀ v : Option (Sequence μ), SameShape s { s₁.setSeq idx v with cache := g.cache, nextSeq := g.nextSeq } :=
        fun s₁ h₁ hctx hslots v => ⟨hctx.trans h₁.numCtx, hslots.trans h₁.slots, List.length_set.trans h₁.seqs,
          h₁.batchSize⟩
      have hfrom : ∀ seq₁ : Sequence μ, g.seq.inputs = seq₁.inputs → g.seq.numKeep = seq₁.numKeep →
        seq₁.numKeep = seq.numKeep → (seq.inputs ≠ [] → seq₁.inputs ≠ []) →
          From seq { g.seq with inputs := g.seq.inputs.drop g.seq.pendingInputs.length } := by
        intro seq₁ hinputs hkeep hkeep' hne
        refine ⟨hkeep.trans hkeep', fun h hnil => ?_⟩
        have hnil' : g.seq.pendingInputs = [] := hnil
        show g.seq.inputs.drop g.seq.pendingInputs.length ≠ []
        rw [hnil', hinputs]
        exact hne h
      have hseq : ∀ (s₁ : Server σ μ), s₁.seqs = s.seqs → ∀ v j seq', (s₁.setSeq idx (some v)).seq j = some seq' →
          (s.seq j = some seq' ∧ j ≠ idx) ∨ (j = idx ∧ seq' = v) := by
        intro s₁ hseqs v j seq' h
        rw [seq_setSeq s₁ (hseqs ▸ hi)] at h
        split at h
        · rename_i hj
          exact .inr ⟨hj, (Option.some.inj h).symm⟩
        · rename_i hj
          refine .inl ⟨?_, hj⟩
          rw [← h, Server.seq, Server.seq, hseqs]
      by_cases hdis : s.cache.cache.isNone = true
      · simp only [hdis, if_true] at h1 h2 h3 h4 ⊢
        refine ⟨hshape _ (sameShape_setInputs s seq.cache []) h3 h4 _, fun j seq' h => ?_⟩
        rcases hseq (s.setInputs seq.cache []) rfl _ j seq' h with hold | ⟨rfl, rfl⟩
        · exact .inl hold
        · refine .inr ⟨rfl, seq, hs, hfrom { seq with
            inputs := (s.cache.slot seq.cache).inputs ++ seq.inputs } h1 h2 rfl
          (fun hne hnil => ?_)⟩
          exact hne (List.append_eq_nil_iff.1 hnil).2
      · simp only [hdis, Bool.false_eq_true, if_false] at h1 h2 h3 h4 ⊢
        refine ⟨hshape s (.refl s) h3 h4 _, fun j seq' h => ?_⟩
        rcases hseq s rfl _ j seq' h with hold | ⟨rfl, rfl⟩
        · exact .inl hold
        · exact .inr ⟨rfl, seq, hs, hfrom seq h1 h2 rfl (fun hne => hne)⟩

/-- The loop over the sequences, each visited once. -/
theorem from_gatherAll {env : Env} {idxs : List Nat} (hnodup : idxs.Nodup) {s s' : Server σ μ}
    {options options' : Options μ} (hg : gatherAll K env idxs s options = some (s', options')) :
    SameShape s s' ∧ ∀ j seq', s'.seq j = some seq' →
      (s.seq j = some seq' ∧ j ∉ idxs) ∨ (j ∈ idxs ∧ ∃ seq, s.seq j = some seq ∧ From seq seq') := by
  induction idxs generalizing s options with
  | nil =>
    obtain ⟨rfl, rfl⟩ := Prod.mk.inj (Option.some.inj hg)
    exact ⟨.refl s, fun j seq' h => .inl ⟨h, List.not_mem_nil⟩⟩
  | cons idx idxs ih =>
    obtain ⟨hnot, hnodup'⟩ := List.nodup_cons.1 hnodup
    rw [gatherAll, Option.bind_eq_some_iff] at hg
    obtain ⟨⟨s₁, options₁⟩, h₁, hg⟩ := hg
    obtain ⟨hshape₁, hfrom₁⟩ := from_gatherSeq h₁
    obtain ⟨hshape₂, hfrom₂⟩ := ih hnodup' hg
    refine ⟨hshape₁.trans hshape₂, fun j seq' h => ?_⟩
    rcases hfrom₂ j seq' h with ⟨hj, hmem⟩ | ⟨hmem, seq, hj, hfrom⟩
    · rcases hfrom₁ j seq' hj with ⟨hj, hne⟩ | ⟨rfl, hfrom⟩
      · refine .inl ⟨hj, fun hmem' => ?_⟩
        rcases List.mem_cons.1 hmem' with heq | hmem'
        · exact hne heq
        · exact hmem hmem'
      · exact .inr ⟨List.mem_cons_self .., hfrom⟩
    · rcases hfrom₁ j seq hj with ⟨hj, _⟩ | ⟨rfl, _⟩
      · exact .inr ⟨List.mem_cons_of_mem _ hmem, seq, hj, hfrom⟩
      · exact absurd hmem hnot

/-! ## After the forward pass -/

/-- A turn of the loop after the forward pass. -/
theorem goesOn_finishSeq {env : Env} {i : Nat} {s s' : Server σ μ} (hf : finishSeq env i s = some s') :
    SameShape s s' ∧ ∀ j seq', s'.seq j = some seq' → (s.seq j = some seq' ∧ j ≠ i) ∨
      (j = i ∧ ∃ seq, s.seq j = some seq ∧ GoesOn env i seq seq') := by
  rcases hs : s.seq i with _ | seq
  · rw [finishSeq, hs] at hf
    obtain rfl := Option.some.inj hf
    refine ⟨.refl s, fun j seq' h => .inl ⟨h, ?_⟩⟩
    rintro rfl
    cases hs.symm.trans h
  · have hi := seq_lt hs
    rcases finishSeq_cases hs hf with ⟨seq₁, hon, rfl⟩ | ⟨seq₁, n, _, _, rfl⟩
    · refine ⟨(sameShape_setInputs s _ _).trans ⟨rfl, rfl, List.length_set, rfl⟩, fun j seq' h => ?_⟩
      have h' := (seq_setSeq s hi (some seq₁) j).symm.trans h
      split at h'
      · rename_i hj
        subst hj
        exact .inr ⟨rfl, seq, hs, Option.some.inj h' ▸ hon⟩
      · rename_i hj
        exact .inl ⟨h', hj⟩
    · refine ⟨(sameShape_setInputs s _ _).trans (sameShape_removeSequence env i seq₁ _), fun j seq' h => ?_⟩
      have h' := (seq_setSeq s hi none j).symm.trans h
      split at h'
      · cases h'
      · rename_i hj
        exact .inl ⟨h', hj⟩

/-- The loop after the forward pass, over places that are all different. -/
theorem goesOn_finishAll {env : Env} {idxs : List Nat} (hnodup : idxs.Nodup) {s s' : Server σ μ}
    (hf : finishAll env idxs s = some s') :
    SameShape s s' ∧ ∀ j seq', s'.seq j = some seq' →
      (s.seq j = some seq' ∧ j ∉ idxs) ∨ (j ∈ idxs ∧ ∃ seq, s.seq j = some seq ∧ GoesOn env j seq seq') := by
  induction idxs generalizing s with
  | nil =>
    obtain rfl := Option.some.inj hf
    exact ⟨.refl s, fun j seq' h => .inl ⟨h, List.not_mem_nil⟩⟩
  | cons idx idxs ih =>
    obtain ⟨hnot, hnodup'⟩ := List.nodup_cons.1 hnodup
    rw [finishAll, Option.bind_eq_some_iff] at hf
    obtain ⟨s₁, h₁, hf⟩ := hf
    obtain ⟨hshape₁, hon₁⟩ := goesOn_finishSeq h₁
    obtain ⟨hshape₂, hon₂⟩ := ih hnodup' hf
    refine ⟨hshape₁.trans hshape₂, fun j seq' h => ?_⟩
    rcases hon₂ j seq' h with ⟨hj, hmem⟩ | ⟨hmem, seq, hj, hon⟩
    · rcases hon₁ j seq' hj with ⟨hj, hne⟩ | ⟨rfl, hon⟩
      · refine .inl ⟨hj, fun hmem' => ?_⟩
        rcases List.mem_cons.1 hmem' with heq | hmem'
        · exact hne heq
        · exact hmem hmem'
      · exact .inr ⟨List.mem_cons_self .., hon⟩
    · rcases hon₁ j seq hj with ⟨hj, _⟩ | ⟨rfl, _⟩
      · exact .inr ⟨List.mem_cons_of_mem _ hmem, seq, hj, hon⟩
      · exact absurd hmem hnot

theorem sameShape_forward {s s' : Server σ μ} {rows : List (BatchRow μ)} (h : s.forward K rows = some s') :
    SameShape s s' ∧ s'.seqs = s.seqs ∧ s'.cache.slots = s.cache.slots := by
  rcases forward_cases h with ⟨_, rfl⟩ | ⟨_, _, _, _, rfl⟩
  · exact ⟨.refl s', rfl, rfl⟩
  · exact ⟨⟨rfl, rfl, rfl, rfl⟩, rfl, rfl⟩

/-! ## Runs -/

/-- `processBatch` leaves every sequence with inputs. -/
theorem ready_processBatch {env : Env} {s s' : Server σ μ} (hinv : ServerInv K s) (h : Ready s)
    (hp : s.processBatch K env = some s') :
    SameShape s s' ∧ Ready s' := by
  obtain ⟨s₁, options, hg, hp⟩ := processBatch_cases hp
  have hstart : Gathering K s ({} : Options μ).rows := hinv
  obtain ⟨hgathering, _⟩ := gathering_gatherAll (nodup_rotate _ _) hstart (fun _ _ _ hs => hinv.pending_nil hs) hg
  obtain ⟨hshape₁, hfrom⟩ := from_gatherAll (nodup_rotate _ _) hg
  have hkeeps : ∀ {j seq'}, s₁.seq j = some seq' → seq'.numKeep < s.cache.numCtx := by
    intro j seq' hj
    rcases hfrom j seq' hj with ⟨hj, _⟩ | ⟨_, seq, hj, hfrom⟩
    · exact h.keeps j seq' hj
    · rw [hfrom.numKeep]
      exact h.keeps j seq hj
  rcases hp with ⟨hrows, rfl⟩ | ⟨s₂, hforward, hp⟩
  · rw [hrows] at hgathering
    refine ⟨hshape₁, ⟨fun j seq' hj => ?_, fun j seq' hj => by rw [hshape₁.numCtx]; exact hkeeps hj⟩⟩
    rcases hfrom j seq' hj with ⟨hj, _⟩ | ⟨_, seq, hj', hfrom⟩
    · exact h.inputs j seq' hj
    · exact hfrom.inputs (h.inputs j seq hj') (hgathering.pending_nil hj)
  · obtain ⟨hshape₂, hseqs, _⟩ := sameShape_forward hforward
    obtain ⟨hshape₃, hon⟩ := goesOn_finishAll List.nodup_range hp
    have hshape := hshape₁.trans (hshape₂.trans hshape₃)
    have hgoes : ∀ {j seq'}, s'.seq j = some seq' → ∃ seq, s₁.seq j = some seq ∧ GoesOn env j seq seq' := by
      intro j seq' hj
      have hlt := seq_lt hj
      rw [hshape.seqs] at hlt
      rcases hon j seq' hj with ⟨_, hmem⟩ | ⟨_, seq, hj', hon⟩
      · exact absurd (List.mem_range.2 hlt) hmem
      · refine ⟨seq, ?_, hon⟩
        rw [← hj', Server.seq, Server.seq, hseqs]
    refine ⟨hshape, ⟨fun j seq' hj => ?_, fun j seq' hj => ?_⟩⟩
    · obtain ⟨seq, _, hon⟩ := hgoes hj
      rcases hon.inputs with ⟨hne, heq⟩ | ⟨_, token, _, heq⟩
      · rw [heq]
        exact hne
      · rw [heq]
        exact List.cons_ne_nil _ _
    · obtain ⟨seq, hj', hon⟩ := hgoes hj
      rw [hon.numKeep, hshape.numCtx]
      exact hkeeps hj'

theorem newInputs_numKeep {numCtx numKeep' : Nat} {numKeep : Int} {inputs prompt : List (Input μ)} (hctx : 1 ≤ numCtx)
    (h : newInputs numCtx numKeep inputs = some (prompt, numKeep')) : numKeep' < numCtx := by
  have hkeep := Nat.min_le_right (if numKeep < 0 then inputs.length else numKeep.toNat) (numCtx - 1)
  unfold newInputs at h
  split at h
  · nomatch h
  · generalize min (if numKeep < 0 then inputs.length else numKeep.toNat) (numCtx - 1) = keep at h hkeep
    split at h
    · rw [← (Prod.mk.inj (Option.some.inj h)).2]
      omega
    · rw [← (Prod.mk.inj (Option.some.inj h)).2]
      omega

/-- `completion` gives a new sequence inputs. -/
theorem ready_completion {req : Request μ} {s s' : Server σ μ} (hinv : ServerInv K s) (h : Ready s)
    (hc : s.completion K req = some s') : SameShape s s' ∧ Ready s' := by
  rcases completion_cases hc with rfl | ⟨prompt, numKeep, i, c', out, hnew, hi, _, hload, hout⟩
  · exact ⟨.refl s', h⟩
  rcases loadCacheSlot_spec hinv.holds hinv.placed.slots_small hload with ⟨rfl, rfl⟩ | ⟨slot, rest, s₀, ins, rfl, hl⟩
  · rcases hout with ⟨_, rfl⟩ | ⟨_, _, hsome, _⟩
    · exact ⟨.refl s, h⟩
    · nomatch hsome
  · rcases hout with ⟨hnone, _⟩ | ⟨_, _, hsome, rfl⟩
    · nomatch hnone
    obtain ⟨rfl, rfl⟩ := Prod.mk.inj (Option.some.inj hsome)
    have hslots : c'.slots.length = s.cache.slots.length := by
      rw [hl.slots]
      exact List.length_set
    refine ⟨⟨hl.numCtx, hslots, List.length_set, rfl⟩, ⟨fun j seq' hj => ?_, fun j seq' hj => ?_⟩⟩
    · have hj' := (seq_setSeq s hi _ j).symm.trans hj
      split at hj'
      · rw [← Option.some.inj hj']
        exact hl.rest_ne
      · exact h.inputs j seq' hj'
    · have hj' := (seq_setSeq s hi _ j).symm.trans hj
      change seq'.numKeep < c'.numCtx
      rw [hl.numCtx]
      split at hj'
      · rw [← Option.some.inj hj']
        exact newInputs_numKeep hinv.placed.ctx hnew
      · exact h.keeps j seq' hj'

theorem ready_init {s : Server σ μ} (h : (system K).init s) : Ready s :=
  ⟨fun i seq hs => absurd hs (seq_init h i seq), fun i seq hs => absurd hs (seq_init h i seq)⟩

/-- Every sequence of a server has inputs when a section of it begins. -/
theorem ready_reachable {s : Server σ μ} (h : (system K).Reachable s) : Ready s := by
  have hboth : ServerInv K s ∧ Ready s := by
    refine h.invariant (I := fun s => ServerInv K s ∧ Ready s) (fun s hs => ⟨serverInv_init hs, ready_init hs⟩) ?_
    rintro s s' ⟨hinv, hready⟩ (⟨req, hc⟩ | ⟨env, hp⟩)
    · exact ⟨serverInv_completion hinv hc, (ready_completion hinv hready hc).2⟩
    · exact ⟨serverInv_processBatch hinv hp, (ready_processBatch hinv hready hp).2⟩
  exact hboth.2

end Ollama.Runner
