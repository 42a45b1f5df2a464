import Ollama.Runner.Lemmas.Batch
import Ollama.Runner.Lemmas.Ready
import Ollama.Runner.Theorems.Slots

/-!
# What is in a batch

With a KV cache, a batch has of every sequence some of its first inputs, at the positions that follow those of its
slot, and the output that is sampled for a sequence is the one of its own last input (`processBatch_composed`). The
order in which the sequences are visited and the reasons to stop at one do not matter.
-/

namespace Ollama.Runner

variable {σ ρ μ : Type} {K : KvCache σ ρ μ}

/-- What the batch has of the sequence `seq` of `s`, which is `seq₁` when the batch is gathered: its pending inputs,
the first of its inputs, at the positions after those of its slot, which may have been shifted. When no input is left,
its output is that of the last. -/
structure Composed (s s₁ : Server σ μ) (options : Options μ) (seq seq₁ : Sequence μ) : Prop where
  cache : seq₁.cache = seq.cache
  cached : (s₁.cache.slot seq.cache).inputs = s.shifted seq
  inputs : seq₁.pendingInputs ++ seq₁.inputs = seq.inputs
  rows : options.rows.filter (fun x => x.seq = seq.cache) =
    pendingRows seq.cache (s.shifted seq).length seq₁.pendingInputs
  size : 1 ≤ seq₁.pendingInputs.length ∧ seq₁.pendingInputs.length ≤ s.batchSize
  room : (s.shifted seq).length + seq₁.pendingInputs.length ≤ s.cache.numCtx
  numKeep : seq₁.numKeep = seq.numKeep
  output : seq₁.inputs = [] → ∃ r x, options.outputs[seq₁.iBatch]? = some r ∧ seq.inputs.getLast? = some x ∧
    options.rows[r]? = some ⟨x, (s.shifted seq).length + (seq₁.pendingInputs.length - 1 : Nat), seq.cache⟩

/-- What the step leaves of a sequence: more of its inputs to process; or all of them in its slot and the token that
was sampled from its output; or nothing, when it is done, with some of the inputs in the slot. -/
def Advanced (env : Env) (i : Nat) (s s' : Server σ μ) (seq seq₁ : Sequence μ) : Prop :=
  (∃ seq', s'.seq i = some seq' ∧ seq₁.inputs ≠ [] ∧ (s'.cache.slot seq.cache).inputs ++ seq'.inputs =
    s.shifted seq ++ seq.inputs) ∨
  (∃ seq' token, s'.seq i = some seq' ∧ seq₁.inputs = [] ∧
    (s'.cache.slot seq.cache).inputs = s.shifted seq ++ seq.inputs ∧
    env.sample i seq₁.iBatch = some token ∧ seq'.inputs = [{ token := token }]) ∨
  (s'.seq i = none ∧ seq₁.inputs = [] ∧ (s'.cache.slot seq.cache).inputs <+: s.shifted seq ++ seq.inputs)

namespace BatchAux

theorem seq_of_mem_pendingRows {id n : Nat} {pending : List (Input μ)} {x : BatchRow μ}
    (h : x ∈ pendingRows id n pending) :
    x.seq = id := by
  induction pending generalizing n with
  | nil => nomatch h
  | cons y pending ih =>
    rcases List.mem_cons.1 h with rfl | h
    · rfl
    · exact ih h

theorem getElem?_pendingRows (id n : Nat) (pending : List (Input μ)) (k : Nat) :
    (pendingRows id n pending)[k]? = (pending[k]?).map (fun x => (⟨x, n + k, id⟩ : BatchRow μ)) := by
  induction pending generalizing n k with
  | nil => rfl
  | cons y pending ih =>
    cases k with
    | zero => simp [pendingRows]
    | succ k =>
      rw [pendingRows, List.getElem?_cons_succ, List.getElem?_cons_succ, ih]
      congr 2
      funext x
      congr 1
      push_cast
      omega

theorem filter_pendingRows_self (id n : Nat) (pending : List (Input μ)) :
    (pendingRows id n pending).filter (fun x => x.seq = id) = pendingRows id n pending := by
  rw [List.filter_eq_self]
  intro x hx
  exact decide_eq_true (seq_of_mem_pendingRows hx)

/-- What other sequences add to a batch changes nothing. -/
theorem composed_extend {s s₁ s₂ : Server σ μ} {options options' : Options μ} {seq seq₁ : Sequence μ}
    {rows : List (BatchRow μ)} {outputs : List Nat} (h : Composed s s₁ options seq seq₁)
    (hslot : s₂.cache.slots[seq.cache]? = s₁.cache.slots[seq.cache]?) (hrows : options'.rows = options.rows ++ rows)
    (hother : rows.filter (fun x => x.seq = seq.cache) = [])
    (houtputs : options'.outputs = options.outputs ++ outputs) :
    Composed s s₂ options' seq seq₁ := by
  refine ⟨h.cache, ?_, h.inputs, ?_, h.size, h.room, h.numKeep, fun hnil => ?_⟩
  · rw [← h.cached, InputCache.slot, InputCache.slot, hslot]
  · rw [hrows, List.filter_append, hother, List.append_nil]
    exact h.rows
  · obtain ⟨r, x, hr, hx, hrow⟩ := h.output hnil
    refine ⟨r, x, ?_, hx, ?_⟩
    · rw [houtputs, List.getElem?_append_left (List.getElem?_eq_some_iff.1 hr).1]
      exact hr
    · rw [hrows, List.getElem?_append_left (List.getElem?_eq_some_iff.1 hrow).1]
      exact hrow

/-- What the loop has gathered of a sequence. -/
theorem gathered_composed {s s₁ : Server σ μ} {options : Options μ} {seq : Sequence μ} {n : Nat} {g : Gather σ μ}
    (h : Gathered seq.cache seq.inputs options.rows options.outputs n g) (hseq : SameSeq seq g.seq) (h1 : 1 ≤ n)
    (hbatch : n ≤ s.batchSize) (hcached : (g.cache.slot seq.cache).inputs = s.shifted seq)
    (hctx : g.cache.numCtx = s.cache.numCtx) (hs₁ : s₁.cache = g.cache)
    (hnone : options.rows.filter (fun x => x.seq = seq.cache) = []) :
    Composed s s₁ g.options seq { g.seq with inputs := g.seq.inputs.drop g.seq.pendingInputs.length } := by
  have hlen := h.pending_length
  have hroom := h.room
  rw [hcached, hctx] at hroom
  have hrows := h.rows
  rw [hcached] at hrows
  refine ⟨h.cache, hs₁ ▸ hcached, ?_, ?_, ⟨hlen.symm ▸ h1, hlen.symm ▸ hbatch⟩, hlen.symm ▸ hroom,
    by rw [hseq], fun hnil => ?_⟩
  · show g.seq.pendingInputs ++ g.seq.inputs.drop g.seq.pendingInputs.length = seq.inputs
    rw [hlen, h.pending, h.inputs, List.take_append_drop]
  · rw [hrows, List.filter_append, hnone, List.nil_append, filter_pendingRows_self, h.pending]
  · -- the last input is the last of the rows, and it has an output
    have hall : n = seq.inputs.length := by
      have hdrop : g.seq.inputs.drop g.seq.pendingInputs.length = [] := hnil
      rw [hlen, h.inputs, List.drop_eq_nil_iff] at hdrop
      exact Nat.le_antisymm h.le hdrop
    have hlast : seq.inputs[n - 1]? = seq.inputs.getLast? := by rw [List.getLast?_eq_getElem?, hall]
    obtain ⟨x, hx⟩ : ∃ x, seq.inputs.getLast? = some x := ⟨_, hlast.symm.trans (List.getElem?_eq_getElem (by omega))⟩
    refine ⟨options.rows.length + n - 1, x, ?_, hx, ?_⟩
    · show g.options.outputs[g.seq.iBatch]? = _
      rw [h.iBatch h1, h.outputs, if_pos hall, List.getElem?_concat_length]
    · show g.options.rows[options.rows.length + n - 1]? =
        some ⟨x, (s.shifted seq).length + (g.seq.pendingInputs.length - 1 : Nat),
      seq.cache⟩
      have htake : seq.inputs.take n = seq.inputs := by rw [hall, List.take_length]
      have hsub : options.rows.length + n - 1 - options.rows.length = n - 1 := by omega
      rw [hrows, List.getElem?_append_right (by omega), hsub, getElem?_pendingRows, htake, hlast, hx, hlen]
      rfl

/-- What has been gathered when some of the sequences of `s` have been visited. -/
structure Visited (s : Server σ μ) (visited : List Nat) (s₁ : Server σ μ) (options : Options μ) : Prop where
  numCtx : s₁.cache.numCtx = s.cache.numCtx
  batchSize : s₁.batchSize = s.batchSize
  enabled : s₁.cache.cache.isSome
  length : s₁.seqs.length = s.seqs.length
  later : ∀ i, i ∉ visited → s₁.seq i = s.seq i
  slots : ∀ i, i ∉ visited → ∀ seq, s.seq i = some seq → s₁.cache.slots[seq.cache]? = s.cache.slots[seq.cache]?
  limited : ∀ i ∈ visited, ∀ seq, s.seq i = some seq → seq.limited → s₁.seq i = none
  composed : ∀ i ∈ visited, ∀ seq, s.seq i = some seq → ¬seq.limited → ∃ seq₁, s₁.seq i = some seq₁ ∧
    Composed s s₁ options seq seq₁
  rows : ∀ x ∈ options.rows, ∃ i ∈ visited, ∃ seq, s.seq i = some seq ∧ ¬seq.limited ∧ x.seq = seq.cache
  absent : ∀ i ∈ visited, s.seq i = none → s₁.seq i = none

/-- There is nothing in the batch of a sequence that has not been visited. -/
theorem Visited.filter_eq_nil {s s₁ : Server σ μ} {visited : List Nat} {options : Options μ}
    (h : Visited s visited s₁ options) (hplaced : Placed s) {i : Nat} (hi : i ∉ visited) {seq : Sequence μ}
    (hs : s.seq i = some seq) :
    options.rows.filter (fun x => x.seq = seq.cache) = [] := by
  rw [List.filter_eq_nil_iff]
  intro x hx hseq
  obtain ⟨j, hj, seq', hs', _, hx'⟩ := h.rows x hx
  have heq := hplaced.distinct i j seq seq' hs hs' ((of_decide_eq_true hseq).symm.trans hx')
  exact hi (heq ▸ hj)

/-- A turn at a sequence leaves the others alone and adds rows of this one. -/
theorem Visited.visit {s s₁ s₂ : Server σ μ} {visited : List Nat} {options options' : Options μ} {idx : Nat}
    {rows : List (BatchRow μ)} {outputs : List Nat} (h : Visited s visited s₁ options) (hplaced : Placed s)
    (hctx : s₂.cache.numCtx = s₁.cache.numCtx) (hbatch : s₂.batchSize = s₁.batchSize) (henabled : s₂.cache.cache.isSome)
    (hlen : s₂.seqs.length = s₁.seqs.length) (hseqs : ∀ j, j ≠ idx → s₂.seq j = s₁.seq j)
    (hslots : ∀ id, (∀ seq, s.seq idx = some seq → id ≠ seq.cache) → s₂.cache.slots[id]? = s₁.cache.slots[id]?)
    (hrows : options'.rows = options.rows ++ rows) (houtputs : options'.outputs = options.outputs ++ outputs)
    (hown : ∀ x ∈ rows, ∃ seq, s.seq idx = some seq ∧ ¬seq.limited ∧ x.seq = seq.cache)
    (hnone : s.seq idx = none → s₂.seq idx = none)
    (hlimited : ∀ seq, s.seq idx = some seq → seq.limited → s₂.seq idx = none)
    (hcomposed : ∀ seq, s.seq idx = some seq → ¬seq.limited → ∃ seq₁, s₂.seq idx = some seq₁ ∧
      Composed s s₂ options' seq seq₁) :
    Visited s (idx :: visited) s₂ options' := by
  have hother : ∀ {j seq}, s.seq j = some seq → j ≠ idx → ∀ seq', s.seq idx = some seq' → seq.cache ≠ seq'.cache := by
    intro j seq hs hj seq' hs' heq
    exact hj (hplaced.distinct j idx seq seq' hs hs' heq)
  refine ⟨hctx.trans h.numCtx, hbatch.trans h.batchSize, henabled, hlen.trans h.length, fun i hi => ?_,
    fun i hi seq hs => ?_,
    fun i hi seq hs hlim => ?_, fun i hi seq hs hlim => ?_, fun x hx => ?_, fun i hi hs => ?_⟩
  · rw [List.mem_cons, not_or] at hi
    rw [hseqs i hi.1, h.later i hi.2]
  · rw [List.mem_cons, not_or] at hi
    rw [hslots seq.cache (hother hs hi.1), h.slots i hi.2 seq hs]
  · by_cases heq : i = idx
    · rw [heq] at hs ⊢
      exact hlimited seq hs hlim
    · rw [hseqs i heq]
      exact h.limited i (List.mem_of_ne_of_mem heq hi) seq hs hlim
  · by_cases heq : i = idx
    · rw [heq] at hs ⊢
      exact hcomposed seq hs hlim
    · obtain ⟨seq₁, hs₁, hcomp⟩ := h.composed i (List.mem_of_ne_of_mem heq hi) seq hs hlim
      refine ⟨seq₁, (hseqs i heq).trans hs₁, composed_extend hcomp (hslots seq.cache (hother hs heq)) hrows ?_ houtputs⟩
      rw [List.filter_eq_nil_iff]
      intro x hx hseq
      obtain ⟨seq', hs', _, hx'⟩ := hown x hx
      exact hother hs heq seq' hs' ((of_decide_eq_true hseq).symm.trans hx')
  · rw [hrows] at hx
    rcases List.mem_append.1 hx with hx | hx
    · obtain ⟨j, hj, hrest⟩ := h.rows x hx
      exact ⟨j, List.mem_cons_of_mem _ hj, hrest⟩
    · exact ⟨idx, List.mem_cons_self .., hown x hx⟩
  · by_cases heq : i = idx
    · rw [heq] at hs ⊢
      exact hnone hs
    · rw [hseqs i heq]
      exact h.absent i (List.mem_of_ne_of_mem heq hi) hs

/-- One turn of the loop over the sequences. -/
theorem visited_gatherSeq {env : Env} {s s₁ s₂ : Server σ μ} {visited : List Nat} {options options' : Options μ}
    {idx : Nat} (hplaced : Placed s) (hbatch : 1 ≤ s.batchSize)
    (hpend : ∀ seq, s.seq idx = some seq → seq.pendingInputs = [])
    (hne : ∀ seq, s.seq idx = some seq → seq.inputs ≠ []) (hidx : idx ∉ visited) (h : Visited s visited s₁ options)
    (hg : gatherSeq K env idx s₁ options = some (s₂, options')) : Visited s (idx :: visited) s₂ options' := by
  rw [gatherSeq, h.later idx hidx] at hg
  rcases hs : s.seq idx with _ | seq
  · rw [hs] at hg
    obtain ⟨rfl, rfl⟩ := Prod.mk.inj (Option.some.inj hg)
    have hs₁ : s₁.seq idx = none := (h.later idx hidx).trans hs
    exact h.visit hplaced rfl rfl h.enabled rfl (fun _ _ => rfl) (fun _ _ => rfl) (List.append_nil _).symm
      (List.append_nil _).symm
      (fun x hx => absurd hx List.not_mem_nil) (fun _ => hs₁) (fun seq h' => absurd (hs.symm.trans h') nofun)
      (fun seq h' => absurd (hs.symm.trans h') nofun)
  · rw [hs] at hg
    dsimp only at hg
    have hsome : ∀ {seq'}, s.seq idx = some seq' → seq' = seq := fun h' => (Option.some.inj (hs.symm.trans h')).symm
    have hs₁ : s₁.seq idx = some seq := (h.later idx hidx).trans hs
    have hi := seq_lt hs₁
    obtain ⟨slot, hslot, huse, hroom⟩ := hplaced.live idx seq hs
    have hslot₁ : s₁.cache.slots[seq.cache]? = some slot := (h.slots idx hidx seq hs).trans hslot
    split at hg
    · rename_i hlim
      obtain ⟨rfl, rfl⟩ := Prod.mk.inj (Option.some.inj hg)
      refine h.visit hplaced rfl rfl h.enabled ?_ (fun j hj => (seq_setSeq s₁ hi none j).trans (if_neg hj))
        (fun id hid => ?_)
        (List.append_nil _).symm (List.append_nil _).symm (fun x hx => absurd hx List.not_mem_nil)
        (fun h' => absurd (hs.symm.trans h') nofun) (fun _ _ _ => (seq_setSeq s₁ hi none idx).trans (if_pos rfl))
          (fun seq' h' hlim' => ?_)
      · exact List.length_set
      · exact (slots_setSlot hslot₁ _ id).trans (if_neg (hid seq hs))
      · rw [hsome h'] at hlim'
        exact absurd hlim hlim'
    · rename_i hlim
      have henabled : s₁.cache.cache.isNone = false := by rw [Option.isNone_eq_false_iff]; exact h.enabled
      simp only [henabled, Bool.false_eq_true, if_false, Option.map_eq_some_iff] at hg
      obtain ⟨g, hg, heq⟩ := hg
      obtain ⟨rfl, rfl⟩ := Prod.mk.inj heq
      have hroom' : slot.inputs.length ≤ s₁.cache.numCtx := by
        rw [h.numCtx]
        omega
      obtain ⟨n, h1, h2, hgathered, hsame, hslots, hctx, hcache⟩ :=
        gather_spec hslot₁ hroom' (hpend seq hs) (hne seq hs) (h.batchSize.symm ▸ hbatch) hg
      have hshifted : s₁.shifted seq = s.shifted seq := by
        unfold Server.shifted InputCache.cut InputCache.discard InputCache.shiftDiscard
        rw [slot_of_getElem? hslot₁, slot_of_getElem? hslot, h.numCtx]
      have hself : (g.cache.slot seq.cache).inputs = s.shifted seq := by
        have hget : g.cache.slots[seq.cache]? = some { slot with inputs := s₁.shifted seq } := by
          rw [hslots]
          exact List.getElem?_set_self (List.getElem?_eq_some_iff.1 hslot₁).1
        rw [slot_of_getElem? hget]
        exact hshifted
      refine h.visit hplaced hctx rfl (hcache.trans h.enabled) List.length_set
        (fun j hj => (seq_setSeq s₁ hi _ j).trans (if_neg hj)) (fun id hid => ?_) hgathered.rows hgathered.outputs
        (fun x hx => ⟨seq, hs, hlim, seq_of_mem_pendingRows hx⟩) (fun h' => absurd (hs.symm.trans h') nofun)
        (fun seq' h' hlim' => ?_) (fun seq' h' _ => ?_)
      · show g.cache.slots[id]? = _
        rw [hslots]
        exact List.getElem?_set_ne (Ne.symm (hid seq hs))
      · rw [hsome h'] at hlim'
        exact absurd hlim' hlim
      · rw [hsome h']
        refine ⟨_, (seq_setSeq s₁ hi _ idx).trans (if_pos rfl), ?_⟩
        exact gathered_composed hgathered hsame h1 (h.batchSize ▸ h2) hself (hctx.trans h.numCtx) rfl
          (h.filter_eq_nil hplaced hidx hs)

/-- The loop over the sequences, each visited once. -/
theorem visited_gatherAll {env : Env} {s s₁ s₂ : Server σ μ} {visited idxs : List Nat} {options options' : Options μ}
    (hplaced : Placed s) (hbatch : 1 ≤ s.batchSize) (hpend : ∀ i seq, s.seq i = some seq → seq.pendingInputs = [])
    (hne : ∀ i seq, s.seq i = some seq → seq.inputs ≠ []) (hnodup : (idxs.reverse ++ visited).Nodup)
    (h : Visited s visited s₁ options) (hg : gatherAll K env idxs s₁ options = some (s₂, options')) :
    Visited s (idxs.reverse ++ visited) s₂ options' := by
  induction idxs generalizing visited s₁ options with
  | nil =>
    obtain ⟨rfl, rfl⟩ := Prod.mk.inj (Option.some.inj hg)
    exact h
  | cons idx idxs ih =>
    rw [List.reverse_cons, List.append_assoc] at hnodup ⊢
    rw [gatherAll, Option.bind_eq_some_iff] at hg
    obtain ⟨⟨s', options₁⟩, h₁, hg⟩ := hg
    have hidx : idx ∉ visited := (List.nodup_cons.1 (List.nodup_append.1 hnodup).2.1).1
    exact ih hnodup (visited_gatherSeq hplaced hbatch (hpend idx) (hne idx) hidx h h₁) hg

/-- Every place is visited. -/
theorem mem_rotate {m n i : Nat} (hi : i < n) : i ∈ (List.range n).map (fun k => (m + k) % n) := by
  rw [List.mem_map]
  refine ⟨(i + (n - m % n)) % n, List.mem_range.2 (Nat.mod_lt _ (by omega)), ?_⟩
  have hlt := Nat.mod_lt m (by omega : 0 < n)
  have hsum : m + (i + (n - m % n)) = i + n * (m / n + 1) := by
    have hdiv := Nat.div_add_mod m n
    rw [Nat.mul_succ]
    omega
  rw [Nat.add_mod_mod, hsum, Nat.add_mul_mod_self_left, Nat.mod_eq_of_lt hi]

/-! ## After the forward pass -/

/-- A turn after the forward pass leaves other slots alone. -/
theorem slots_finishSeq {env : Env} {j : Nat} {s s' : Server σ μ} (hf : finishSeq env j s = some s') {id : Nat}
    (hid : ∀ seq, s.seq j = some seq → seq.cache ≠ id) : s'.cache.slots[id]? = s.cache.slots[id]? := by
  rcases hs : s.seq j with _ | seq
  · rw [finishSeq, hs] at hf
    exact Option.some.inj hf ▸ rfl
  · rcases finishSeq_cases hs hf with ⟨seq', _, rfl⟩ | ⟨seq', n, hcache, _, rfl⟩
    · exact List.getElem?_set_ne (hid seq hs)
    · refine (List.getElem?_set_ne (hcache ▸ hid seq hs)).trans ?_
      exact List.getElem?_set_ne (hid seq hs)

/-- What the turns of other sequences keep. -/
theorem keep_finishAll {env : Env} {idxs : List Nat} {s s' : Server σ μ} (h : Computing K s)
    (hf : finishAll env idxs s = some s') {i id : Nat} (hi : i ∉ idxs)
    (hid : ∀ j seq, j ≠ i → s.seq j = some seq → seq.cache ≠ id) :
    s'.seq i = s.seq i ∧ s'.cache.slots[id]? = s.cache.slots[id]? := by
  induction idxs generalizing s with
  | nil => exact Option.some.inj hf ▸ ⟨rfl, rfl⟩
  | cons idx idxs ih =>
    rw [List.mem_cons, not_or] at hi
    rw [finishAll, Option.bind_eq_some_iff] at hf
    obtain ⟨s₁, h₁, hf⟩ := hf
    obtain ⟨hc₁, hothers, _⟩ := computing_finishSeq h h₁
    have hslots := slots_finishSeq h₁ (fun seq hs => hid idx seq (Ne.symm hi.1) hs)
    obtain ⟨h1, h2⟩ := ih hc₁ hf hi.2 (fun j seq hj hs => by
      by_cases hjdx : j = idx
      · subst hjdx
        obtain ⟨_, hon⟩ := goesOn_finishSeq h₁
        rcases hon j seq hs with ⟨_, hne⟩ | ⟨_, seq₀, hs₀, hgoes⟩
        · exact absurd rfl hne
        · rw [hgoes.cache]
          exact hid j seq₀ hj hs₀
      · exact hid j seq hj ((hothers j hjdx).symm.trans hs))
    exact ⟨h1.trans (hothers i hi.1), h2.trans hslots⟩

/-- What the loop after the forward pass makes of a sequence. -/
theorem finishAll_at {env : Env} {idxs : List Nat} (hnodup : idxs.Nodup) {s s' : Server σ μ} (h : Computing K s)
    (hf : finishAll env idxs s = some s') {i : Nat} (hi : i ∈ idxs) {seq : Sequence μ} (hs : s.seq i = some seq) :
    (∃ seq', s'.seq i = some seq' ∧ GoesOn env i seq seq' ∧
      (s'.cache.slot seq.cache).inputs = (s.cache.slot seq.cache).inputs ++ seq.pendingInputs) ∨
    (s'.seq i = none ∧ seq.inputs = [] ∧
      (s'.cache.slot seq.cache).inputs <+: (s.cache.slot seq.cache).inputs ++ seq.pendingInputs) := by
  induction idxs generalizing s with
  | nil => nomatch hi
  | cons idx idxs ih =>
    obtain ⟨hnot, hnodup'⟩ := List.nodup_cons.1 hnodup
    rw [finishAll, Option.bind_eq_some_iff] at hf
    obtain ⟨s₁, h₁, hf⟩ := hf
    obtain ⟨hc₁, hothers, _⟩ := computing_finishSeq h h₁
    by_cases hidx : i = idx
    · -- its turn: later ones have slots of their own
      subst hidx
      obtain ⟨slot, hslot, _, _⟩ := h.placed.live i seq hs
      obtain ⟨hlt, _⟩ := List.getElem?_eq_some_iff.1 hslot
      have hilt := seq_lt hs
      obtain ⟨hseq, hslots⟩ : s'.seq i = s₁.seq i ∧ s'.cache.slots[seq.cache]? = s₁.cache.slots[seq.cache]? :=
        keep_finishAll hc₁ hf hnot (fun j seq' hj hs' heq =>
          hj (h.placed.distinct j i seq' seq ((hothers j hj).symm.trans hs') hs heq))
      have hsame : s'.cache.slot seq.cache = s₁.cache.slot seq.cache := by rw [InputCache.slot, InputCache.slot, hslots]
      rw [hseq, hsame]
      rcases finishSeq_cases hs h₁ with ⟨seq', hon, rfl⟩ | ⟨seq', n, hcache, hnil, rfl⟩
      · refine .inl ⟨seq', (seq_setSeq s hilt (some seq') i).trans (if_pos rfl), hon, ?_⟩
        have hget := (slots_setSlot hslot { s.cache.slot seq.cache with
          inputs := (s.cache.slot seq.cache).inputs ++ seq.pendingInputs } seq.cache).trans (if_pos rfl)
        exact congrArg InputCacheSlot.inputs (slot_of_getElem? hget)
      · refine .inr ⟨(seq_setSeq s hilt none i).trans (if_pos rfl), hnil, ?_⟩
        have t₁ := touches_setInputs (K := K) hs hslot (((s.cache.slot seq.cache).inputs ++ seq.pendingInputs).take n)
        have t₂ := touches_removeSequence (K := K)
          (s := s.setInputs seq.cache (((s.cache.slot seq.cache).inputs ++ seq.pendingInputs).take n)) env hs
            hcache t₁.slot
        rw [slot_of_getElem? t₂.slot]
        exact List.take_prefix n _
    · rcases List.mem_cons.1 hi with heq | hmem
      · exact absurd heq hidx
      · have hs₁ := (hothers i hidx).trans hs
        have hslots := slots_finishSeq h₁ (fun seq' hs' heq => hidx (h.placed.distinct i idx seq seq' hs hs' heq.symm))
        have hsame : s₁.cache.slot seq.cache = s.cache.slot seq.cache := by
          rw [InputCache.slot, InputCache.slot, hslots]
        have hrest := ih hnodup' hc₁ hf hmem hs₁
        rw [hsame] at hrest
        exact hrest

end BatchAux

open BatchAux

/-- In every run with a KV cache, `processBatch` gathers of every sequence that has predictions to make some first
inputs, at the positions after its slot and within its context, and no more than a batch may have; what it processes
and what it leaves are the inputs it had; and what it samples a token from is the output of the sequence's own last
input. -/
theorem processBatch_composed {s : Server σ μ} (hr : (system K).Reachable s) (henabled : s.cache.cache.isSome)
    (hbatch : 1 ≤ s.batchSize) {env : Env} {s₁ : Server σ μ} {options : Options μ}
    (hg : gatherAll K env s.order s {} = some (s₁, options)) :
    (∀ x ∈ options.rows, ∃ i seq, s.seq i = some seq ∧ ¬seq.limited ∧ x.seq = seq.cache) ∧
    (∀ i seq, s.seq i = some seq → seq.limited → s₁.seq i = none) ∧
    ∀ i seq, s.seq i = some seq → ¬seq.limited → ∃ seq₁, s₁.seq i = some seq₁ ∧ Composed s s₁ options seq seq₁ ∧
      ∀ s', s.processBatch K env = some s' → Advanced env i s s' seq seq₁ := by
  have hinv := serverInv_reachable hr
  have hready := ready_reachable hr
  have hstart : Gathering K s ({} : Options μ).rows := hinv
  have hnodup : s.order.Nodup := nodup_rotate _ _
  have hfirst : Visited s [] s ({} : Options μ) := by
    refine ⟨rfl, rfl, henabled, rfl, fun _ _ => rfl, fun _ _ _ _ => rfl, ?_, ?_, ?_, ?_⟩
    · intro i hi
      nomatch hi
    · intro i hi
      nomatch hi
    · intro x hx
      nomatch hx
    · intro i hi
      nomatch hi
  have hvisited := visited_gatherAll hinv.placed hbatch (fun _ _ hs => hinv.pending_nil hs) hready.inputs
    (by rw [List.append_nil, List.nodup_reverse]; exact hnodup) hfirst hg
  rw [List.append_nil] at hvisited
  have hmem : ∀ {i seq}, s.seq i = some seq → i ∈ s.order.reverse := by
    intro i seq hs
    rw [List.mem_reverse]
    exact mem_rotate (seq_lt hs)
  refine ⟨fun x hx => ?_, fun i seq hs hlim => hvisited.limited i (hmem hs) seq hs hlim, fun i seq hs hlim => ?_⟩
  · obtain ⟨i, _, hrest⟩ := hvisited.rows x hx
    exact ⟨i, hrest⟩
  · obtain ⟨seq₁, hs₁, hcomp⟩ := hvisited.composed i (hmem hs) seq hs hlim
    refine ⟨seq₁, hs₁, hcomp, fun s' hp => ?_⟩
    obtain ⟨s₁', options', hg', hp⟩ := processBatch_cases hp
    obtain ⟨rfl, rfl⟩ := Prod.mk.inj (Option.some.inj (hg.symm.trans hg'))
    have hne : options.rows ≠ [] := by
      intro hnil
      have hrows := hcomp.rows
      rw [hnil, List.filter_nil] at hrows
      have hpend := pendingRows_eq_nil_iff.1 hrows.symm
      have hsize := hcomp.size.1
      rw [hpend] at hsize
      exact absurd hsize (Nat.not_succ_le_zero 0)
    obtain ⟨s₂, hforward, hp⟩ := hp.resolve_left (fun hnil => hne hnil.1)
    obtain ⟨hgathering, hlen⟩ := gathering_gatherAll hnodup hstart (fun _ _ _ hs => hinv.pending_nil hs) hg
    obtain ⟨hcomputing, hseqs⟩ := computing_forward hgathering hforward
    obtain ⟨_, _, hslots⟩ := sameShape_forward hforward
    have hs₂ : s₂.seq i = some seq₁ := by rw [← hs₁, Server.seq, Server.seq, hseqs]
    have hcached : (s₂.cache.slot seq.cache).inputs = s.shifted seq := by
      rw [← hcomp.cached, InputCache.slot, InputCache.slot, hslots]
    have hall : s.shifted seq ++ seq.inputs = (s.shifted seq ++ seq₁.pendingInputs) ++ seq₁.inputs := by
      rw [List.append_assoc, hcomp.inputs]
    have hat := finishAll_at List.nodup_range hcomputing hp (List.mem_range.2 (seq_lt hs)) hs₂
    rw [hcomp.cache, hcached] at hat
    rcases hat with ⟨seq', hs', hon, hinputs⟩ | ⟨hs', hnil, hinputs⟩
    · rcases hon.inputs with ⟨hmore, heq⟩ | ⟨hnil, token, htoken, heq⟩
      · refine .inl ⟨seq', hs', hmore, ?_⟩
        rw [hinputs, heq, hall]
      · refine .inr (.inl ⟨seq', token, hs', hnil, ?_, htoken, heq⟩)
        rw [hinputs, hall, hnil, List.append_nil]
    · refine .inr (.inr ⟨hs', hnil, ?_⟩)
      rw [hall, hnil, List.append_nil]
      exact hinputs

/-- Two prompts of three and two tokens, in batches of two: the batch has two of the inputs of each sequence, and the
second is sampled. -/
theorem processBatch_composed_two :
    ∃ (s s₁ : Server (Nat → Int → Multiset (Int × Int)) Unit) (options : Options Unit) (env : Env)
      (seq seq₁ : Sequence Unit),
      (system tokenRows).Reachable s ∧ gatherAll tokenRows env s.order s {} = some (s₁, options) ∧
      s.seq 1 = some seq ∧ s₁.seq 1 = some seq₁ ∧ seq₁.inputs = [] ∧ Composed s s₁ options seq seq₁ := by
  let s₀ : Server (Nat → Int → Multiset (Int × Int)) Unit :=
    { seqs := List.replicate 2 none, batchSize := 2, cache := ⟨8, List.replicate 2 {}, true, some (fun _ _ => 0)⟩ }
  let req₁ : Request Unit := ⟨[{ token := 7 }, { token := 8 }, { token := 9 }], true, 0, -1, [], false, 1, 2⟩
  let req₂ : Request Unit := ⟨[{ token := 7 }, { token := 5 }], true, 0, -1, [], false, 3, 4⟩
  let env : Env := ⟨fun _ _ => some 9, fun _ => false, fun _ => some [], fun _ => true⟩
  have h₀ : (system tokenRows).Reachable s₀ := by
    refine Lib.System.Reachable.init ⟨2, 2, 8, true, some (fun _ _ => 0),
      by decide, by decide, fun kv hkv seq p => ?_, rfl⟩
    rw [← Option.some.inj hkv]
    rfl
  have hsome₁ : (s₀.completion tokenRows req₁).isSome := by decide +kernel
  obtain ⟨s₁, hs₁⟩ := Option.isSome_iff_exists.1 hsome₁
  have hsome₂ : ((s₀.completion tokenRows req₁).bind (Server.completion tokenRows req₂)).isSome := by decide +kernel
  rw [hs₁, Option.bind_some] at hsome₂
  obtain ⟨s₂, hs₂⟩ := Option.isSome_iff_exists.1 hsome₂
  have hreach : (system tokenRows).Reachable s₂ := (h₀.step (Or.inl ⟨req₁, hs₁⟩)).step (Or.inl ⟨req₂, hs₂⟩)
  have hstate : ((s₀.completion tokenRows req₁).bind (Server.completion tokenRows req₂)).map (fun s =>
      (s.cache.cache.isSome, s.batchSize, (s.seq 1).map Sequence.numPredict,
        (gatherAll tokenRows env s.order s {}).map (fun out => (out.1.seq 1).map (fun seq => seq.inputs.length)))) =
      some (true, 2, some (-1), some (some 0)) := by decide +kernel
  rw [hs₁, Option.bind_some, hs₂, Option.map_some, Option.some.injEq, Prod.mk.injEq, Prod.mk.injEq, Prod.mk.injEq,
    Option.map_eq_some_iff, Option.map_eq_some_iff] at hstate
  obtain ⟨henabled, hbatch, ⟨seq, hseq, hlimit⟩, ⟨s₃, options⟩, hg, hinputs⟩ := hstate
  have hlimited : ¬seq.limited := by
    rintro ⟨hpos, _⟩
    rw [hlimit] at hpos
    exact absurd hpos (by decide)
  obtain ⟨_, _, hall⟩ := processBatch_composed hreach henabled (by rw [hbatch]; decide) hg
  obtain ⟨seq₁, hseq₁, hcomp, _⟩ := hall 1 seq hseq hlimited
  rw [hseq₁, Option.map_some, Option.some.injEq] at hinputs
  exact ⟨s₂, s₃, options, env, seq, seq₁, hreach, hg, hseq, hseq₁, List.length_eq_zero_iff.1 hinputs, hcomp⟩

end Ollama.Runner
