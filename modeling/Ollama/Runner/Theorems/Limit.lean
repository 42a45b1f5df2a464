import Ollama.Runner.Limit
import Ollama.Runner.Theorems.Accounting

/-!
# The limit of a completion

`Completion` puts an upper limit of ten contexts on `NumPredict` after it has made the request of the options, so that
the runner is sent the number without the limit, and to the runner a number that is not positive means that there is
none. A number between 1 and the limit is kept to in every run (`sampled_bounded`): a batch removes the sequences that
have reached their number before it samples. Any other number is not: the runner goes on for as long as the model does
(`sampled_unbounded`).
-/

namespace Ollama.Runner

open Lib

variable {σ ρ μ : Type} {K : KvCache σ ρ μ} {l : Llm.LlmServer}

/-- What the limits promise of a completion. -/
def Tally.Bounded (numCtx : Int) (t : Tally) : Prop :=
  (t.sampled : Int) ≤ 10 * numCtx ∧
    (0 < t.options.numPredict → t.options.numPredict ≤ 10 * numCtx → (t.sampled : Int) ≤ t.options.numPredict)

namespace LimitAux

variable {env : Env} {s s' : Server σ μ} {ts : Tallies}

/-! ## Gathering a batch -/

/-- What of a sequence its limit depends on. -/
def limits (seq : Sequence μ) : Int × Nat × Bool := (seq.numPredict, seq.numPredicted, seq.embeddingOnly)

/-- A sequence has not reached its limit, if it has one. -/
def Below (seq : Sequence μ) : Prop := 0 < seq.numPredict → (seq.numPredicted : Int) < seq.numPredict

theorem below_of_limits {seq seq' : Sequence μ} (h : limits seq' = limits seq) (hb : Below seq) : Below seq' := by
  simp only [limits, Prod.mk.injEq] at h
  unfold Below at *
  rwa [h.1, h.2.1]

/-- A turn of the loop over the sequences removes the one that has reached its limit. -/
theorem limits_gatherSeq {idx : Nat} {options options' : Options μ}
    (hg : gatherSeq K env idx s options = some (s', options')) {j : Nat} {seq' : Sequence μ}
    (hj : s'.seq j = some seq') :
    ∃ seq, s.seq j = some seq ∧ limits seq' = limits seq ∧ (j = idx → Below seq') := by
  unfold gatherSeq at hg
  cases hs : s.seq idx with
  | none =>
    rw [hs] at hg
    obtain ⟨rfl, rfl⟩ := Prod.mk.inj (Option.some.inj hg)
    refine ⟨seq', hj, rfl, ?_⟩
    rintro rfl
    rw [hs] at hj
    cases hj
  | some seq =>
    have hi := seq_lt hs
    rw [hs] at hg
    dsimp only at hg
    split at hg
    · obtain ⟨rfl, rfl⟩ := Prod.mk.inj (Option.some.inj hg)
      have hcases := (seq_setSeq s hi none j).symm.trans hj
      by_cases hidx : j = idx
      · rw [if_pos hidx] at hcases
        cases hcases
      · rw [if_neg hidx] at hcases
        exact ⟨seq', hcases, rfl, fun h => (hidx h).elim⟩
    · rename_i hbelow
      obtain ⟨g, hgather, heq⟩ := Option.map_eq_some_iff.1 hg
      obtain ⟨rfl, rfl⟩ := Prod.mk.inj heq
      have hkept := gather_kept (fun g => limits g.seq) (fun _ _ _ _ => rfl) (fun _ _ => rfl) (fun _ _ _ => rfl) hgather
      have hlimits : limits g.seq = limits seq := by
        rw [hkept]
        split <;> rfl
      have hset : ∀ (s₁ : Server σ μ) (v : Sequence μ), s₁.seqs = s.seqs →
          (s₁.setSeq idx (some v)).seq j = if j = idx then some v else s.seq j := by
        intro s₁ v hseqs
        rw [seq_setSeq s₁ (hseqs ▸ hi), Server.seq, Server.seq, hseqs]
      have hcases := (hset _ _ (by split <;> rfl)).symm.trans hj
      by_cases hidx : j = idx
      · rw [if_pos hidx] at hcases
        have hseq : limits seq' = limits seq := by
          rw [← Option.some.inj hcases]
          exact hlimits
        refine ⟨seq, hidx ▸ hs, hseq, fun _ => below_of_limits hseq (fun hpos => ?_)⟩
        rw [not_and] at hbelow
        exact Int.not_le.1 (hbelow hpos)
      · rw [if_neg hidx] at hcases
        exact ⟨seq', hcases, rfl, fun h => (hidx h).elim⟩

/-- The loop over the sequences removes those that have reached their limits. -/
theorem limits_gatherAll {idxs : List Nat} {options options' : Options μ}
    (hg : gatherAll K env idxs s options = some (s', options')) {j : Nat} {seq' : Sequence μ}
    (hj : s'.seq j = some seq') :
    ∃ seq, s.seq j = some seq ∧ limits seq' = limits seq ∧ (j ∈ idxs → Below seq') := by
  induction idxs generalizing s options with
  | nil =>
    obtain ⟨rfl, rfl⟩ := Prod.mk.inj (Option.some.inj hg)
    exact ⟨seq', hj, rfl, fun h => absurd h List.not_mem_nil⟩
  | cons idx rest ih =>
    rw [gatherAll, Option.bind_eq_some_iff] at hg
    obtain ⟨⟨s₁, options₁⟩, hfirst, hrest⟩ := hg
    obtain ⟨seq₁, hj₁, hlimits₁, hbelow₁⟩ := ih hrest
    obtain ⟨seq, hj₀, hlimits, hbelow⟩ := limits_gatherSeq hfirst hj₁
    refine ⟨seq, hj₀, hlimits₁.trans hlimits, fun hmem => ?_⟩
    rcases List.mem_cons.1 hmem with hidx | hmem
    · exact below_of_limits hlimits₁ (hbelow hidx)
    · exact hbelow₁ hmem

/-! ## After the forward pass -/

/-- A turn of the loop after the forward pass counts a prediction of a sequence that goes on exactly when it comes to
the sampler. -/
theorem limits_finishSeq {i : Nat} (hf : finishSeq env i s = some s') {j : Nat} {seq' : Sequence μ}
    (hj : s'.seq j = some seq') :
    ∃ seq, s.seq j = some seq ∧
      limits seq' = (seq.numPredict, if j = i ∧ s.samples i then seq.numPredicted + 1 else seq.numPredicted,
        seq.embeddingOnly) := by
  cases hs : s.seq i with
  | none =>
    rw [finishSeq, hs] at hf
    obtain rfl := Option.some.inj hf
    have hnot : s.samples i = false := by rw [Server.samples, hs]
    refine ⟨seq', hj, ?_⟩
    rw [hnot, if_neg (by simp)]
    rfl
  | some seq =>
    have hi := seq_lt hs
    -- what the place has after the turn
    have hset : ∀ (s₁ : Server σ μ) (v : Option (Sequence μ)), s₁.seqs = s.seqs → (s₁.setSeq i v).seq j = some seq' →
        (if j = i then v else s.seq j) = some seq' := by
      intro s₁ v hseqs h
      rw [← h, seq_setSeq s₁ (hseqs ▸ hi), Server.seq, Server.seq, hseqs]
    have hremoved : ∀ (s₁ : Server σ μ) (seq₁ : Sequence μ), some (s₁.removeSequence env i seq₁) = some s' →
      s₁.seqs = s.seqs → ∃ seq, s.seq j = some seq ∧
          limits seq' = (seq.numPredict, if j = i ∧ s.samples i then seq.numPredicted + 1 else seq.numPredicted,
          seq.embeddingOnly) := by
      intro s₁ seq₁ h hseqs
      rw [← Option.some.inj h] at hj
      have hcases := hset s₁ none hseqs hj
      by_cases hji : j = i
      · rw [if_pos hji] at hcases
        cases hcases
      · rw [if_neg hji] at hcases
        refine ⟨seq', hcases, ?_⟩
        rw [if_neg (fun h => hji h.1)]
        rfl
    have hkept : ∀ (s₁ : Server σ μ) (seq₁ : Sequence μ), some (s₁.setSeq i (some seq₁)) = some s' → s₁.seqs = s.seqs →
        limits seq₁ = (seq.numPredict, if s.samples i then seq.numPredicted + 1 else seq.numPredicted,
        seq.embeddingOnly) →
        ∃ seq, s.seq j = some seq ∧
          limits seq' = (seq.numPredict, if j = i ∧ s.samples i then seq.numPredicted + 1 else seq.numPredicted,
          seq.embeddingOnly) := by
      intro s₁ seq₁ h hseqs hlimits
      rw [← Option.some.inj h] at hj
      have hcases := hset s₁ (some seq₁) hseqs hj
      by_cases hji : j = i
      · rw [if_pos hji] at hcases
        refine ⟨seq, hji ▸ hs, ?_⟩
        rw [← Option.some.inj hcases, hlimits]
        simp only [hji, true_and]
      · rw [if_neg hji] at hcases
        refine ⟨seq', hcases, ?_⟩
        rw [if_neg (fun h => hji h.1)]
        rfl
    have hsamples : s.samples i = (decide (seq.inputs.length = 0) && !seq.embeddingOnly) := by rw [Server.samples, hs]
    simp only [finishSeq, hs] at hf
    split at hf
    · rename_i hne
      split at hf
      · cases hf
      · refine hkept _ _ hf rfl ?_
        rw [hsamples, decide_eq_false hne]
        rfl
    · rename_i hnil
      split at hf
      · exact hremoved _ _ hf rfl
      · rename_i hgenerates
        obtain ⟨token, _, hf⟩ := Option.bind_eq_some_iff.1 hf
        split at hf
        · exact hremoved _ _ hf rfl
        · obtain ⟨piece, _, hf⟩ := Option.bind_eq_some_iff.1 hf
          split at hf
          · split at hf
            · cases hf
            · exact hremoved _ _ hf rfl
          · refine hkept _ _ hf rfl ?_
            rw [hsamples, decide_eq_true (not_not.1 hnil), Bool.eq_false_iff.2 hgenerates]
            rfl
          · exact hremoved _ _ hf rfl

/-! ## Tallies -/

/-- The tally of a place is that of its sequence. -/
def Agrees (seq : Sequence μ) (tally : Option Tally) : Prop :=
  seq.embeddingOnly = false → ∃ t, tally = some t ∧ t.options.numPredict = seq.numPredict ∧ t.sampled = seq.numPredicted

/-- No tally is over its own limit. -/
def Within (ts : Tallies) : Prop :=
  ∀ i t, ts i = some t → 0 < t.options.numPredict → (t.sampled : Int) ≤ t.options.numPredict

/-- The invariant between two sections of the server. -/
structure TallyInv (s : Server σ μ) (ts : Tallies) : Prop where
  agrees : ∀ i seq, s.seq i = some seq → Agrees seq (ts i)
  within : Within ts

theorem agrees_of_limits {seq seq' : Sequence μ} {tally : Option Tally} (h : limits seq' = limits seq)
    (ha : Agrees seq tally) :
    Agrees seq' tally := by
  simp only [limits, Prod.mk.injEq] at h
  unfold Agrees at *
  rwa [h.1, h.2.1, h.2.2]

theorem samples_iff {i : Nat} :
    s.samples i = true ↔ ∃ seq, s.seq i = some seq ∧ seq.inputs.length = 0 ∧ seq.embeddingOnly = false := by
  unfold Server.samples
  cases s.seq i with
  | none => simp
  | some seq => simp

/-- To count a token keeps every tally within its limit when the sequence has not reached it. -/
theorem Within.count {i : Nat} {seq : Sequence μ} (h : Within ts) (hs : s.seq i = some seq) (ha : Agrees seq (ts i))
    (hb : Below seq) (hsamples : s.samples i = true) : Within (ts.count i) := by
  obtain ⟨seq', hs', _, hgenerates⟩ := samples_iff.1 hsamples
  obtain rfl := Option.some.inj (hs.symm.trans hs')
  obtain ⟨t₀, ht₀, hpredict, hsampled⟩ := ha hgenerates
  intro j t ht hpos
  by_cases hj : j = i
  · rw [hj, Tallies.count, Function.update_self, ht₀] at ht
    obtain rfl := Option.some.inj ht
    have hlt := hb (hpredict ▸ hpos)
    dsimp only
    rw [hpredict, hsampled]
    push_cast
    omega
  · rw [Tallies.count, Function.update_of_ne hj] at ht
    exact h j t ht hpos

/-- The loop after the forward pass, over places that are all different: the sequences at the places still to visit
are below their limits. -/
theorem finishTallied_inv {idxs : List Nat} (hnodup : idxs.Nodup) (h : TallyInv s ts)
    (hb : ∀ i ∈ idxs, ∀ seq, s.seq i = some seq → Below seq) :
    Within (finishTallied env idxs s ts).2 ∧ ∀ s', (finishTallied env idxs s ts).1 = some s' →
      TallyInv s' (finishTallied env idxs s ts).2 := by
  induction idxs generalizing s ts with
  | nil =>
    refine ⟨h.within, fun s' hs' => ?_⟩
    rw [← Option.some.inj hs']
    exact h
  | cons i rest ih =>
    obtain ⟨hnot, hnodup'⟩ := List.nodup_cons.1 hnodup
    have hwithin : Within (if s.samples i then ts.count i else ts) := by
      split
      · rename_i hsamples
        obtain ⟨seq, hs, _, _⟩ := samples_iff.1 hsamples
        exact h.within.count hs (h.agrees i seq hs) (hb i (List.mem_cons_self ..) seq hs) hsamples
      · exact h.within
    rw [finishTallied]
    cases hf : finishSeq env i s with
    | none => exact ⟨hwithin, fun s' hs' => by cases hs'⟩
    | some s₁ =>
      refine ih hnodup' ⟨fun j seq' hj => ?_, hwithin⟩ (fun j hj seq' hs' => ?_)
      · obtain ⟨seq, hs, hlimits⟩ := limits_finishSeq hf hj
        have ha := h.agrees j seq hs
        simp only [limits, Prod.mk.injEq] at hlimits
        obtain ⟨hpredict, hpredicted, hembedding⟩ := hlimits
        intro hgenerates
        obtain ⟨t, ht, hoptions, hsampled⟩ := ha (hembedding ▸ hgenerates)
        by_cases hcount : j = i ∧ s.samples i = true
        · obtain ⟨rfl, hsamples⟩ := hcount
          refine ⟨{ t with sampled := t.sampled + 1 }, ?_, hoptions.trans hpredict.symm, ?_⟩
          · rw [if_pos hsamples, Tallies.count, Function.update_self, ht]
            rfl
          · rw [hpredicted, if_pos ⟨rfl, hsamples⟩, ← hsampled]
        · refine ⟨t, ?_, hoptions.trans hpredict.symm, by rw [hpredicted, if_neg hcount, hsampled]⟩
          split
          · rename_i hsamples
            rw [Tallies.count, Function.update_of_ne (fun hji => hcount ⟨hji, hsamples⟩), ht]
          · exact ht
      · obtain ⟨seq, hs, hlimits⟩ := limits_finishSeq hf hs'
        have hji : ¬(j = i ∧ s.samples i = true) := fun heq => hnot (heq.1 ▸ hj)
        rw [if_neg hji] at hlimits
        exact below_of_limits hlimits (hb j (List.mem_cons_of_mem _ hj) seq hs)

/-- `processBatch` keeps every tally within its limit. -/
theorem processTallied_inv (h : TallyInv s ts) :
    Within (s.processTallied K env ts).2 ∧ ∀ s', (s.processTallied K env ts).1 = some s' →
      TallyInv s' (s.processTallied K env ts).2 := by
  unfold Server.processTallied
  cases hg : gatherAll K env s.order s {} with
  | none => exact ⟨h.within, fun s' hs' => by cases hs'⟩
  | some out =>
    obtain ⟨s₁, options⟩ := out
    have hinv₁ : TallyInv s₁ ts := by
      refine ⟨fun j seq' hj => ?_, h.within⟩
      obtain ⟨seq, hs, hlimits, _⟩ := limits_gatherAll hg hj
      exact agrees_of_limits hlimits (h.agrees j seq hs)
    dsimp only
    split
    · refine ⟨h.within, fun s' hs' => ?_⟩
      rw [← Option.some.inj hs']
      exact hinv₁
    · cases hforward : s₁.forward K options.rows with
      | none => exact ⟨h.within, fun s' hs' => by cases hs'⟩
      | some s₂ =>
        obtain ⟨_, hseqs, _⟩ := sameShape_forward hforward
        have hseq : ∀ j, s₂.seq j = s₁.seq j := fun j => by rw [Server.seq, Server.seq, hseqs]
        refine finishTallied_inv List.nodup_range ⟨fun j seq hj => hinv₁.agrees j seq (hseq j ▸ hj),
          h.within⟩ (fun j hj seq hs => ?_)
        obtain ⟨seq₀, hs₀, _, hbelow⟩ := limits_gatherAll hg (hseq j ▸ hs)
        exact hbelow (BatchAux.mem_rotate (List.mem_range.1 hj))

/-! ## Requests -/

/-- The request has the `NumPredict` of the options, whatever the limit. -/
theorem nPredict_compose {out : Llm.Outside} {req : Llm.CompletionRequest} {request : Llm.RunnerRequest}
    (h : (Llm.compose out l req).2 = .ok request) : request.nPredict = req.options.numPredict := by
  have hformat : ∀ {r}, Llm.withFormat out l req.format (Llm.newRequest req) = .ok r →
    r.nPredict = req.options.numPredict := by
    intro r hr
    unfold Llm.withFormat at hr
    split at hr
    · cases hr
      rfl
    · split at hr
      · cases hr
        rfl
      · split at hr
        · cases hr
          rfl
        · split at hr
          · cases hr
          · split at hr
            · cases hr
            · cases hr
              rfl
  unfold Llm.compose at h
  split at h
  · cases h
  · rename_i r hr
    split at h
    · cases h
    · dsimp only at h
      split at h
      · cases h
      · split at h
        · cases h
        · split at h
          · cases h
          · cases h
          · cases h
            exact hformat hr

/-- A new sequence begins with nothing sampled. -/
theorem completion_inv {req : Request μ} (tally : Option Tally) (h : TallyInv s ts) (hc : s.completion K req = some s')
    (hnew : req.embeddingOnly = false → ∃ o, tally = some ⟨o, 0⟩ ∧ o.numPredict = req.numPredict)
    (hzero : ∀ t, tally = some t → t.sampled = 0) : TallyInv s' (s.startTally s' tally ts) := by
  have hwithin : Within (s.startTally s' tally ts) := by
    intro i t ht hpos
    unfold Server.startTally at ht
    split at ht
    · have := hzero t ht
      omega
    · exact h.within i t ht hpos
  have hold : ∀ {i seq}, s.seq i = some seq → Agrees seq (s.startTally s' tally ts i) := by
    intro i seq hs
    unfold Server.startTally
    rw [hs]
    exact h.agrees i seq hs
  refine ⟨fun j seq' hj => ?_, hwithin⟩
  rcases completion_cases hc with rfl | ⟨prompt, numKeep, i, c', out, _, hi, hfree, _, ⟨_, rfl⟩ | ⟨slot, rest, _, rfl⟩⟩
  · exact hold hj
  · exact hold hj
  · have hcases := (seq_setSeq s hi _ j).symm.trans hj
    by_cases hji : j = i
    · subst hji
      rw [if_pos rfl] at hcases
      intro hgenerates
      rw [← Option.some.inj hcases] at hgenerates ⊢
      obtain ⟨o, ho, hpredict⟩ := hnew hgenerates
      have hstart : ∀ s₁ : Server σ μ, s₁.seq j = some seq' → s.startTally s₁ tally ts j = tally := by
        intro s₁ hs₁
        unfold Server.startTally
        rw [hfree, hs₁]
      exact ⟨⟨o, 0⟩, (hstart _ hj).trans ho, hpredict, rfl⟩
    · rw [if_neg hji] at hcases
      exact hold hcases

/-! ## Runs -/

/-- In every run each tally is within its own limit. -/
theorem tallyInv_reachable {st : Option (Server σ μ) × Tallies} (h : (tallied K l).Reachable st) :
    Within st.2 ∧ ∀ s, st.1 = some s → TallyInv s st.2 := by
  refine h.invariant (I := fun st => Within st.2 ∧ ∀ s, st.1 = some s → TallyInv s st.2) ?_ ?_
  · rintro st ⟨s, hinit, rfl⟩
    have hwithin : Within (fun _ => none) := fun i t ht => by cases ht
    refine ⟨hwithin, fun s' hs' => ?_⟩
    rw [← Option.some.inj hs']
    exact ⟨fun i seq hs => absurd hs (seq_init hinit i seq), hwithin⟩
  · rintro st st' ⟨_, hinv⟩ ⟨s, hs, ⟨out, req, request, inputs, now, later, s', hrequest, hc, rfl⟩ |
      ⟨cachePrompt, inputs, now, later, s', hc, rfl⟩ | ⟨env, rfl⟩⟩
    · have hnext := completion_inv (some ⟨req.options, 0⟩) (hinv s hs) hc
        (fun _ => ⟨req.options, rfl, (nPredict_compose hrequest).symm⟩) (fun t ht => by rw [← Option.some.inj ht])
      refine ⟨hnext.within, fun s₁ hs₁ => ?_⟩
      rw [← Option.some.inj hs₁]
      exact hnext
    · have hnext := completion_inv none (hinv s hs) hc (fun hgenerates => by cases hgenerates) (fun t ht => by cases ht)
      refine ⟨hnext.within, fun s₁ hs₁ => ?_⟩
      rw [← Option.some.inj hs₁]
      exact hnext
    · exact processTallied_inv (hinv s hs)

end LimitAux

open LimitAux

/-- **In every run, no more tokens are sampled for a completion whose `NumPredict` is between 1 and ten contexts than
`NumPredict`, and so no more than ten contexts.** -/
theorem sampled_bounded {st : Option (Server σ μ) × Tallies} (h : (tallied K l).Reachable st) {i : Nat} {t : Tally}
    (ht : st.2 i = some t) (hpos : 0 < t.options.numPredict) (hle : t.options.numPredict ≤ 10 * l.numCtx) :
    t.Bounded l.numCtx := by
  have hwithin := (tallyInv_reachable h).1 i t ht hpos
  exact ⟨hwithin.trans hle, fun _ _ => hwithin⟩

/-! ## Runs of one slot -/

/-- The server is ready. -/
def readyServer : Llm.Outside where
  schemaToGrammar _ := none
  acquire := none
  getServerStatusRetry := .ok .ready
  encode _ := none
  newRequest := none
  post _ := .ok ⟨200, .ok [], [], none⟩

/-- A context of four inputs. -/
def fourInputs : Llm.LlmServer := ⟨true, 4, []⟩

/-- A completion with a `NumPredict`. -/
def predict (numPredict : Int) : Llm.CompletionRequest := ⟨[], [], [], ⟨numPredict, 0, []⟩⟩

/-- Whether there is a server, and the tallies after the completion was sent and so many batches were processed. -/
def runBatches (numPredict : Int) : Nat → Option (Server (Nat → Int → Multiset (Int × Int)) Unit) × Tallies
  | 0 =>
    match (Llm.compose readyServer fourInputs (predict numPredict)).2 with
    | .error _ => (some (oneSlot 4), fun _ => none)
    | .ok request =>
      match (oneSlot 4).completion tokenRows (completionRequest request [{ token := 7 }] 1 2) with
      | none => (some (oneSlot 4), fun _ => none)
      | some s => (some s, (oneSlot 4).startTally s (some ⟨(predict numPredict).options, 0⟩) (fun _ => none))
  | n + 1 =>
    let st := runBatches numPredict n
    match st.1 with
    | none => st
    | some s => s.processTallied tokenRows (sampleLetter 97) st.2

theorem reachable_runBatches (numPredict : Int) (n : Nat) :
    (tallied tokenRows fourInputs).Reachable (runBatches numPredict n) := by
  have hinit : (tallied tokenRows fourInputs).Reachable (some (oneSlot 4), fun _ => none) :=
    .init ⟨oneSlot 4, ⟨1, 4, 4, false, some (fun _ _ => 0),
      by decide, by decide, fun kv hkv _ _ => by cases hkv; rfl, rfl⟩, rfl⟩
  induction n with
  | zero =>
    unfold runBatches
    split
    · exact hinit
    · rename_i request hrequest
      split
      · exact hinit
      · rename_i s hs
        exact hinit.step ⟨oneSlot 4, rfl, .inl ⟨readyServer, _, request, _, 1, 2, s, hrequest, hs, rfl⟩⟩
  | succ n ih =>
    unfold runBatches
    dsimp only
    split
    · exact ih
    · rename_i s hs
      exact ih.step ⟨s, hs, .inr (.inr ⟨_, rfl⟩)⟩

/-- Two of two tokens are sampled, whatever the model does. -/
theorem sampled_bounded_two : ∃ st t, (tallied tokenRows fourInputs).Reachable st ∧ st.2 0 = some t ∧ t.sampled = 2 ∧
    t.Bounded fourInputs.numCtx := by
  have hrun : ((runBatches 2 5).2 0).map (fun t => (t.options.numPredict, t.sampled)) = some (2, 2) := by decide +kernel
  obtain ⟨t, ht, heq⟩ := Option.map_eq_some_iff.1 hrun
  obtain ⟨hpredict, hsampled⟩ := Prod.mk.inj heq
  exact ⟨_, t, reachable_runBatches 2 5, ht, hsampled,
    sampled_bounded (reachable_runBatches 2 5) ht (by rw [hpredict]; decide) (by rw [hpredict]; decide)⟩

/-- A model that never ends is asked for 41 tokens, where ten contexts are 40, when `NumPredict` is negative, zero or
over the limit. -/
theorem sampled_unbounded : ¬∃ numPredict ∈ ([-1, 0, 41] : List Int),
    ∀ st, (tallied tokenRows fourInputs).Reachable st → ∀ i t, st.2 i = some t → t.options.numPredict = numPredict →
      t.Bounded fourInputs.numCtx := by
  have hrun : ([-1, 0, 41] : List Int).all (fun n =>
    ((runBatches n 41).2 0).any (fun t => t.options.numPredict = n ∧ t.sampled = 41)) = true := by
    decide +kernel
  rintro ⟨numPredict, hmem, h⟩
  have hsampled := List.all_eq_true.1 hrun numPredict hmem
  rw [Option.any_eq_true] at hsampled
  obtain ⟨t, ht, hsampled⟩ := hsampled
  obtain ⟨hpredict, hsampled⟩ := of_decide_eq_true hsampled
  have hbound := (h _ (reachable_runBatches numPredict 41) 0 t ht hpredict).1
  rw [hsampled] at hbound
  exact absurd hbound (by decide)

end Ollama.Runner
