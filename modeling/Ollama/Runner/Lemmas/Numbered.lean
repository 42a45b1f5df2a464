import Ollama.Runner.Lemmas.Batch
import Ollama.Runner.Lemmas.Ready
import Ollama.Runner.Theorems.Batch

/-!
# The tokens in a slot

Which generated token each input of a slot is. The code does not keep this: it is written down beside a run, with the
steps that add, shift and cut the inputs of a slot (`numberedSystem`). The numbers in a slot are in order, and a token
is in it once or no more (`InOrder`).
-/

namespace Ollama.Runner

open Lib

variable {σ ρ μ : Type} {K : KvCache σ ρ μ}

/-- Inputs of a slot with the numbers of the generated tokens they are, from 1 on. An input of the prompt has number 0. -/
abbrev Numbered (μ : Type) := List (Input μ × Nat)

/-- What is left of the inputs of a slot when the next batch is gathered, with a shift if there is no room. -/
def Server.keepNumbered (s : Server σ μ) (seq : Sequence μ) (xs : Numbered μ) : Numbered μ :=
  if s.cache.cache.isSome ∧ xs.length + 1 > s.cache.numCtx then
    xs.take seq.numKeep ++ xs.drop (seq.numKeep + (s.cache.shiftDiscard xs.length seq.numKeep).toNat)
  else
    xs

/-- The inputs of the slot of the sequence at a place with those that are pending, when a batch has been gathered:
what was left, and the inputs of the sequence, of which there is one for the last token that was generated. -/
def Server.gatherNumbered (s s₁ : Server σ μ) (xs : Nat → Numbered μ) (i : Nat) : Numbered μ :=
  match s.seq i, s₁.seq i with
  | some seq, some seq₁ =>
    let kept := s.keepNumbered seq (xs i)
    kept ++ (((s₁.cache.slot seq₁.cache).inputs ++ seq₁.pendingInputs).drop kept.length).map
      (fun x => (x, seq.numPredicted))
  | _, _ => []

/-- The inputs of the slot of a new sequence are of its prompt. -/
def Server.startNumbered (s s' : Server σ μ) (xs : Nat → Numbered μ) (i : Nat) : Numbered μ :=
  match s.seq i, s'.seq i with
  | none, some seq => (s'.cache.slot seq.cache).inputs.map (fun x => (x, 0))
  | _, _ => xs i

/-- The runs of a server with the numbers of the inputs of each place. -/
def numberedSystem (K : KvCache σ ρ μ) : Lib.System (Server σ μ × (Nat → Numbered μ)) where
  init s := (system K).init s.1 ∧ s.2 = fun _ => []
  step s s' :=
    (∃ req, s.1.completion K req = some s'.1 ∧ s'.2 = s.1.startNumbered s'.1 s.2) ∨
    ∃ env s₁ options, gatherAll K env s.1.order s.1 {} = some (s₁, options) ∧ s.1.processBatch K env = some s'.1 ∧
      s'.2 = s.1.gatherNumbered s₁ s.2

/-! ## Gathering a batch -/

/-- The inputs of the slot of a sequence that stay when a batch is gathered. -/
def Server.kept (s : Server σ μ) (seq : Sequence μ) : List (Input μ) :=
  if s.cache.cache.isSome then s.shifted seq else (s.cache.slot seq.cache).inputs

/-- What the visit of a sequence of `s` makes of it: some of its inputs are pending, and without a KV cache those of
its slot are too. -/
structure Taken (s s₁ : Server σ μ) (seq seq₁ : Sequence μ) : Prop where
  same : seq₁ = { seq with inputs := seq₁.inputs, pendingInputs := seq₁.pendingInputs, iBatch := seq₁.iBatch }
  all : (s₁.cache.slot seq.cache).inputs ++ seq₁.pendingInputs ++ seq₁.inputs = s.kept seq ++ seq.inputs
  enabled : s.cache.cache.isSome → (s₁.cache.slot seq.cache).inputs = s.kept seq
  pending : seq₁.pendingInputs ≠ []

/-- A visit of the sequence at a place: it leaves the others and their slots alone. -/
structure Turn (idx : Nat) (s s' : Server σ μ) : Prop where
  seqs : ∀ j, j ≠ idx → s'.seq j = s.seq j
  slots : ∀ id, (∀ seq, s.seq idx = some seq → seq.cache ≠ id) → s'.cache.slots[id]? = s.cache.slots[id]?
  shape : SameShape s s'
  enabled : s'.cache.cache.isSome = s.cache.cache.isSome
  own : ∀ seq', s'.seq idx = some seq' → ∃ seq, s.seq idx = some seq ∧ Taken s s' seq seq'

/-- What the loop over the inputs of a sequence is given: the sequence of `s`, which has those of its slot before its
own without a KV cache. -/
structure Prepared (s s₀ : Server σ μ) (seq seq₀ : Sequence μ) : Prop where
  seqs : s₀.seqs = s.seqs
  shape : SameShape s s₀
  enabled : s₀.cache.cache.isSome = s.cache.cache.isSome
  slots : ∀ id, seq.cache ≠ id → s₀.cache.slots[id]? = s.cache.slots[id]?
  slot : ∃ slot, s₀.cache.slots[seq.cache]? = some slot ∧ slot.inputs.length ≤ s.cache.numCtx
  same : seq₀ = { seq with inputs := seq₀.inputs }
  inputs : seq₀.inputs ≠ []
  all : s₀.shifted seq₀ ++ seq₀.inputs = s.kept seq ++ seq.inputs
  kept : s.cache.cache.isSome → s₀.shifted seq₀ = s.kept seq

/-- A turn in which inputs of the sequence are put into the batch. -/
theorem Prepared.turn {s s₀ : Server σ μ} {seq seq₀ : Sequence μ} {idx : Nat} {options : Options μ} {g : Gather σ μ}
    (h : Prepared s s₀ seq seq₀) (hs : s.seq idx = some seq) (hpend : seq.pendingInputs = []) (hbatch : 1 ≤ s.batchSize)
    (hg : gather K idx s₀.batchSize seq₀.inputs.length seq₀.inputs 0 ⟨s₀.cache, seq₀, options, s₀.nextSeq⟩ = some g)
    {s' : Server σ μ}
    (hs' : s' = { s₀.setSeq idx (some { g.seq with inputs := g.seq.inputs.drop g.seq.pendingInputs.length }) with
      cache := g.cache, nextSeq := g.nextSeq }) (hshape : SameShape s s') : Turn idx s s' := by
  obtain ⟨slot₀, hslot₀, hroom⟩ := h.slot
  have hcache₀ : seq₀.cache = seq.cache := by rw [h.same]
  have hpend₀ : seq₀.pendingInputs = [] := by
    rw [h.same]
    exact hpend
  obtain ⟨n, hn, _, hgathered, hsame, hset, _, hsome⟩ :=
    gather_spec (hcache₀ ▸ hslot₀) (h.shape.numCtx.symm ▸ hroom) hpend₀ h.inputs (h.shape.batchSize.symm ▸ hbatch) hg
  have hlen := hgathered.pending_length
  have hi : idx < s₀.seqs.length := h.seqs ▸ seq_lt hs
  have hown : (s'.cache.slot seq.cache).inputs = s₀.shifted seq₀ := by
    have hget : s'.cache.slots[seq.cache]? = some { slot₀ with inputs := s₀.shifted seq₀ } := by
      rw [hs', hset, hcache₀]
      exact List.getElem?_set_self (List.getElem?_eq_some_iff.1 hslot₀).1
    rw [slot_of_getElem? hget]
  refine ⟨fun j hj => ?_, fun id hid => ?_, hshape, ?_, fun seq' h' => ⟨seq, hs, ?_⟩⟩
  · rw [hs']
    refine ((seq_setSeq s₀ hi _ j).trans (if_neg hj)).trans ?_
    rw [Server.seq, Server.seq, h.seqs]
  · rw [hs', hset, hcache₀, List.getElem?_set_ne (hid seq hs)]
    exact h.slots id (hid seq hs)
  · rw [hs']
    exact hsome.trans h.enabled
  · rw [hs'] at h'
    have heq := Option.some.inj (((seq_setSeq s₀ hi _ idx).trans (if_pos rfl)).symm.trans h')
    rw [← heq]
    refine ⟨?_, ?_, fun he => hown.trans (h.kept he), List.ne_nil_of_length_pos (hlen.symm ▸ hn)⟩
    · show ({ g.seq with inputs := g.seq.inputs.drop g.seq.pendingInputs.length } : Sequence μ) = _
      rw [hsame, h.same]
    · show (s'.cache.slot seq.cache).inputs ++ g.seq.pendingInputs ++ g.seq.inputs.drop g.seq.pendingInputs.length = _
      rw [hown, hlen, hgathered.pending, hgathered.inputs, List.append_assoc, List.take_append_drop]
      exact h.all

theorem turn_gatherSeq {env : Env} {s s' : Server σ μ} {idx : Nat} {options options' : Options μ} (hplaced : Placed s)
    (hbatch : 1 ≤ s.batchSize) (hpend : ∀ seq, s.seq idx = some seq → seq.pendingInputs = [])
    (hne : ∀ seq, s.seq idx = some seq → seq.inputs ≠ [])
    (hg : gatherSeq K env idx s options = some (s', options')) : Turn idx s s' := by
  have hshape := (from_gatherSeq hg).1
  unfold gatherSeq at hg
  split at hg
  · rename_i hs
    obtain ⟨rfl, rfl⟩ := Prod.mk.inj (Option.some.inj hg)
    exact ⟨fun _ _ => rfl, fun _ _ => rfl, .refl s, rfl, fun seq' h => absurd (hs.symm.trans h) nofun⟩
  · rename_i seq hs
    have hi := seq_lt hs
    obtain ⟨slot, hslot, _, hroom⟩ := hplaced.live idx seq hs
    have hslot' : s.cache.slot seq.cache = slot := slot_of_getElem? hslot
    split at hg
    · -- the limit of its predictions is reached
      obtain ⟨rfl, rfl⟩ := Prod.mk.inj (Option.some.inj hg)
      refine ⟨fun j hj => (seq_setSeq s hi none j).trans (if_neg hj),
        fun id hid => (slots_setSlot hslot _ id).trans (if_neg (hid seq hs).symm), hshape, rfl, fun seq' h => ?_⟩
      have hnone : (s.removeSequence env idx seq).seq idx = none := (seq_setSeq s hi none idx).trans (if_pos rfl)
      exact absurd (hnone.symm.trans h) nofun
    · obtain ⟨g, hgather, heq⟩ := Option.map_eq_some_iff.1 hg
      obtain ⟨rfl, rfl⟩ := Prod.mk.inj heq
      by_cases hdis : s.cache.cache.isNone = true
      · have hnone : s.cache.cache.isSome = false := by
          rw [Option.isNone_iff_eq_none.1 hdis]
          rfl
        simp only [hdis, if_true] at hgather hshape ⊢
        have hget := slots_setSlot hslot { s.cache.slot seq.cache with inputs := [] }
        have hown : ((s.setInputs seq.cache []).cache.slot seq.cache).inputs = [] :=
          congrArg InputCacheSlot.inputs (slot_of_getElem? ((hget seq.cache).trans (if_pos rfl)))
        have hprepared : Prepared s (s.setInputs seq.cache []) seq { seq with
          inputs := (s.cache.slot seq.cache).inputs ++ seq.inputs } := by
          have hshifted : (s.setInputs seq.cache []).shifted { seq with
            inputs := (s.cache.slot seq.cache).inputs ++ seq.inputs } = [] := by
            unfold Server.shifted
            dsimp only
            rw [hown, if_neg (by have := hplaced.ctx; exact Nat.not_lt.2 this)]
          refine ⟨rfl, sameShape_setInputs s seq.cache [], rfl, fun id hid => (hget id).trans (if_neg hid.symm),
            ⟨_, (hget seq.cache).trans (if_pos rfl), Nat.zero_le _⟩, rfl,
            fun hnil => hne seq hs (List.append_eq_nil_iff.1 hnil).2, ?_,
            fun he => absurd (hnone.symm.trans he) Bool.false_ne_true⟩
          rw [hshifted, Server.kept, hnone, if_neg Bool.false_ne_true]
          rfl
        exact hprepared.turn hs (hpend seq hs) hbatch hgather rfl hshape
      · have hsome : s.cache.cache.isSome = true := by
          rw [← Option.not_isNone, Bool.not_eq_true']
          exact Bool.not_eq_true _ ▸ hdis
        simp only [hdis, Bool.false_eq_true, if_false] at hgather hshape ⊢
        have hkept : s.shifted seq = s.kept seq := by rw [Server.kept, if_pos hsome]
        have hprepared : Prepared s s seq seq :=
          ⟨rfl, .refl s, rfl, fun _ _ => rfl, ⟨slot, hslot, by omega⟩, rfl, hne seq hs, by rw [hkept], fun _ => hkept⟩
        exact hprepared.turn hs (hpend seq hs) hbatch hgather rfl hshape

/-- The visits of the sequences at some places. -/
structure Turns (idxs : List Nat) (s s' : Server σ μ) : Prop where
  seqs : ∀ j, j ∉ idxs → s'.seq j = s.seq j
  slots : ∀ id, (∀ j ∈ idxs, ∀ seq, s.seq j = some seq → seq.cache ≠ id) → s'.cache.slots[id]? = s.cache.slots[id]?
  shape : SameShape s s'
  enabled : s'.cache.cache.isSome = s.cache.cache.isSome
  own : ∀ i ∈ idxs, ∀ seq', s'.seq i = some seq' → ∃ seq, s.seq i = some seq ∧ Taken s s' seq seq'

/-- A visit before those of others. -/
theorem Turns.cons {idx : Nat} {idxs : List Nat} {s s₁ s' : Server σ μ} (hnot : idx ∉ idxs) (hplaced : Placed s)
    (h₁ : Turn idx s s₁) (h : Turns idxs s₁ s') : Turns (idx :: idxs) s s' := by
  have hsame : ∀ {j seq}, j ∈ idxs → s₁.seq j = some seq → s.seq j = some seq := by
    intro j seq hj hs
    rw [← h₁.seqs j (fun heq => hnot (heq ▸ hj))]
    exact hs
  refine ⟨fun j hj => ?_, fun id hid => ?_, h₁.shape.trans h.shape, h.enabled.trans h₁.enabled, fun i hi seq' hs' => ?_⟩
  · rw [List.mem_cons, not_or] at hj
    rw [h.seqs j hj.2, h₁.seqs j hj.1]
  · rw [h.slots id (fun j hj seq hs => hid j (List.mem_cons_of_mem _ hj) seq (hsame hj hs)),
      h₁.slots id (fun seq hs => hid idx (List.mem_cons_self ..) seq hs)]
  · by_cases hidx : i = idx
    · subst hidx
      rw [h.seqs i hnot] at hs'
      obtain ⟨seq, hs, htaken⟩ := h₁.own seq' hs'
      -- later visits are of sequences with other slots
      have hslot : s'.cache.slot seq.cache = s₁.cache.slot seq.cache := by
        rw [InputCache.slot, InputCache.slot, h.slots seq.cache (fun j hj seq₂ hs₂ heq =>
          hnot (hplaced.distinct j i seq₂ seq (hsame hj hs₂) hs heq ▸ hj))]
      exact ⟨seq, hs, htaken.same, hslot.symm ▸ htaken.all, fun he => hslot.symm ▸ htaken.enabled he, htaken.pending⟩
    · have hmem := (List.mem_cons.1 hi).resolve_left hidx
      obtain ⟨seq, hs₁, htaken⟩ := h.own i hmem seq' hs'
      have hs := hsame hmem hs₁
      have hslot : s₁.cache.slot seq.cache = s.cache.slot seq.cache := by
        rw [InputCache.slot, InputCache.slot,
          h₁.slots seq.cache (fun seq₂ hs₂ heq => hidx (hplaced.distinct i idx seq seq₂ hs hs₂ heq.symm))]
      have hkept : s₁.kept seq = s.kept seq := by
        unfold Server.kept Server.shifted InputCache.cut InputCache.discard InputCache.shiftDiscard
        rw [hslot, h₁.enabled, h₁.shape.numCtx]
      exact ⟨seq, hs, htaken.same, hkept ▸ htaken.all, fun he => hkept ▸ htaken.enabled (h₁.enabled.symm ▸ he),
        htaken.pending⟩

/-- The loop over the sequences, each visited once. -/
theorem turns_gatherAll {env : Env} {idxs : List Nat} (hnodup : idxs.Nodup) {s s' : Server σ μ}
    {options options' : Options μ} (h : Gathering K s options.rows) (hbatch : 1 ≤ s.batchSize)
    (hpend : ∀ j ∈ idxs, ∀ seq, s.seq j = some seq → seq.pendingInputs = [])
    (hne : ∀ j ∈ idxs, ∀ seq, s.seq j = some seq → seq.inputs ≠ [])
    (hg : gatherAll K env idxs s options = some (s', options')) : Turns idxs s s' := by
  induction idxs generalizing s options with
  | nil =>
    obtain ⟨rfl, rfl⟩ := Prod.mk.inj (Option.some.inj hg)
    exact ⟨fun _ _ => rfl, fun _ _ => rfl, .refl s, rfl, fun i hi => absurd hi List.not_mem_nil⟩
  | cons idx idxs ih =>
    obtain ⟨hnot, hnodup'⟩ := List.nodup_cons.1 hnodup
    rw [gatherAll, Option.bind_eq_some_iff] at hg
    obtain ⟨⟨s₁, options₁⟩, h₁, hg⟩ := hg
    obtain ⟨hgathering₁, _, _⟩ := gathering_gatherSeq h (hpend idx (List.mem_cons_self ..)) h₁
    have hturn := turn_gatherSeq h.placed hbatch (hpend idx (List.mem_cons_self ..))
      (hne idx (List.mem_cons_self ..)) h₁
    have hother : ∀ j ∈ idxs, s₁.seq j = s.seq j := fun j hj => hturn.seqs j (fun heq => hnot (heq ▸ hj))
    refine Turns.cons hnot h.placed hturn (ih hnodup' hgathering₁ (hturn.shape.batchSize.symm ▸ hbatch)
      (fun j hj seq hs => ?_)
      (fun j hj seq hs => ?_) hg)
    · exact hpend j (List.mem_cons_of_mem _ hj) seq (hother j hj ▸ hs)
    · exact hne j (List.mem_cons_of_mem _ hj) seq (hother j hj ▸ hs)

/-- A batch of no size has nothing in it. -/
theorem options_gatherAll_zero {env : Env} {idxs : List Nat} {s s' : Server σ μ} {options options' : Options μ}
    (hbatch : s.batchSize = 0) (hg : gatherAll K env idxs s options = some (s', options')) : options' = options := by
  have hgather : ∀ {idx batchSize total : Nat} {inputs : List (Input μ)} {g g' : Gather σ μ}, batchSize = 0 →
      gather K idx batchSize total inputs 0 g = some g' → g'.options = g.options := by
    rintro idx _ total inputs g g' rfl h
    cases inputs with
    | nil => rw [Option.some.inj h]
    | cons input rest =>
      simp only [gather, ge_iff_le, Nat.le_refl, if_true] at h
      split at h
      · split at h
        · obtain ⟨c, _, h⟩ := Option.bind_eq_some_iff.1 h
          rw [← Option.some.inj h]
        · rw [Option.some.inj h]
      · rw [Option.some.inj h]
  induction idxs generalizing s options with
  | nil => exact (Prod.mk.inj (Option.some.inj hg)).2.symm
  | cons idx idxs ih =>
    rw [gatherAll, Option.bind_eq_some_iff] at hg
    obtain ⟨⟨s₁, options₁⟩, h₁, hg⟩ := hg
    have hshape := (from_gatherSeq h₁).1
    rw [ih (hshape.batchSize.trans hbatch) hg]
    unfold gatherSeq at h₁
    split at h₁
    · exact (Prod.mk.inj (Option.some.inj h₁)).2.symm
    · split at h₁
      · exact (Prod.mk.inj (Option.some.inj h₁)).2.symm
      · obtain ⟨g, hg, heq⟩ := Option.map_eq_some_iff.1 h₁
        rw [← (Prod.mk.inj heq).2]
        refine hgather ?_ hg
        split <;> exact hbatch

/-! ## The numbers of a batch -/

/-- The numbers are in order, and those of tokens are all different. -/
def InOrder (xs : Numbered μ) : Prop := xs.Pairwise (fun x y => x.2 ≤ y.2 ∧ (x.2 = y.2 → x.2 = 0))

/-- The numbers of the inputs of a slot between two batches: those of the tokens before the last, which is the next
input of the sequence; and no more pieces are held back than there are tokens. -/
structure NumberedSeq (seq : Sequence μ) (inputs : List (Input μ)) (xs : Numbered μ) : Prop where
  inputs : xs.map Prod.fst = inputs
  order : InOrder xs
  below : ∀ x ∈ xs, x.2 = 0 ∨ x.2 < seq.numPredicted
  token : 1 ≤ seq.numPredicted → seq.inputs.length = 1
  pending : seq.responses.pending.length ≤ seq.numPredicted

/-- The numbers when a batch has been gathered. -/
structure NumberedBatch (seq : Sequence μ) (inputs : List (Input μ)) (xs : Numbered μ) : Prop where
  inputs : xs.map Prod.fst = inputs
  order : InOrder xs
  le : ∀ x ∈ xs, x.2 ≤ seq.numPredicted
  done : 1 ≤ seq.numPredicted → seq.inputs = []
  pending : seq.responses.pending.length ≤ seq.numPredicted

theorem keepNumbered_sublist (s : Server σ μ) (seq : Sequence μ) (xs : Numbered μ) :
    (s.keepNumbered seq xs).Sublist xs := by
  unfold Server.keepNumbered
  split
  · rw [← List.drop_drop]
    conv_rhs => rw [← List.take_append_drop seq.numKeep xs]
    exact (List.drop_sublist _ _).append_left _
  · exact List.Sublist.refl xs

/-- The inputs of the slot of a sequence that stay, with their numbers. -/
theorem map_keepNumbered {s : Server σ μ} {seq : Sequence μ} {xs : Numbered μ}
    (h : xs.map Prod.fst = (s.cache.slot seq.cache).inputs)
    (hroom : (s.cache.slot seq.cache).inputs.length ≤ s.cache.numCtx) :
    (s.keepNumbered seq xs).map Prod.fst = s.kept seq := by
  have hlen : xs.length = (s.cache.slot seq.cache).inputs.length := by rw [← h, List.length_map]
  unfold Server.keepNumbered Server.kept
  cases hsome : s.cache.cache.isSome with
  | false => rw [if_neg (fun hf => Bool.false_ne_true hf.1), if_neg Bool.false_ne_true, h]
  | true =>
    rw [if_pos rfl]
    unfold Server.shifted
    dsimp only
    by_cases hfull : (s.cache.slot seq.cache).inputs.length + 1 > s.cache.numCtx
    · have hctx : xs.length = s.cache.numCtx := by omega
      rw [if_pos hfull, if_pos ⟨rfl, hlen ▸ hfull⟩, List.map_append, List.map_take, List.map_drop, h, hctx]
      rfl
    · rw [if_neg hfull, if_neg (fun hf => hfull (hlen ▸ hf.2)), h]

/-- The numbers when the inputs of a sequence have been gathered: with a KV cache, or all of them. -/
theorem NumberedSeq.gather {s s₁ : Server σ μ} {seq seq₁ : Sequence μ} {xs : Nat → Numbered μ} {i : Nat}
    (h : NumberedSeq seq (s.cache.slot seq.cache).inputs (xs i)) (hs : s.seq i = some seq) (hs₁ : s₁.seq i = some seq₁)
    (ht : Taken s s₁ seq seq₁) (hroom : (s.cache.slot seq.cache).inputs.length ≤ s.cache.numCtx)
    (hlast : s.cache.cache.isSome ∨ seq₁.inputs = []) :
    NumberedBatch seq₁ ((s₁.cache.slot seq.cache).inputs ++ seq₁.pendingInputs) (s.gatherNumbered s₁ xs i) := by
  have hcache : seq₁.cache = seq.cache := by rw [ht.same]
  have hpredicted : seq₁.numPredicted = seq.numPredicted := by rw [ht.same]
  have hresponses : seq₁.responses = seq.responses := by rw [ht.same]
  have hkept := map_keepNumbered h.inputs hroom
  have hlen : (s.keepNumbered seq (xs i)).length = (s.kept seq).length := by rw [← hkept, List.length_map]
  -- what is new are first inputs of the sequence
  obtain ⟨new, hall, hnew, hdone⟩ : ∃ new, (s₁.cache.slot seq.cache).inputs ++ seq₁.pendingInputs = s.kept seq ++ new ∧
      new ++ seq₁.inputs = seq.inputs ∧ (seq.inputs.length = 1 → seq₁.inputs = []) := by
    have hbatch := ht.all
    rcases hlast with hsome | hnil
    · have hslot := ht.enabled hsome
      rw [hslot, List.append_assoc, List.append_cancel_left_eq] at hbatch
      refine ⟨seq₁.pendingInputs, by rw [hslot], hbatch, fun hone => ?_⟩
      have hsum := congrArg List.length hbatch
      have hpos := List.length_pos_iff.2 ht.pending
      rw [List.length_append] at hsum
      exact List.length_eq_zero_iff.1 (by omega)
    · rw [hnil, List.append_nil] at hbatch
      exact ⟨seq.inputs, hbatch, by rw [hnil, List.append_nil], fun _ => hnil⟩
  have hxs : s.gatherNumbered s₁ xs i = s.keepNumbered seq (xs i) ++ new.map (fun x => (x, seq.numPredicted)) := by
    unfold Server.gatherNumbered
    rw [hs, hs₁]
    dsimp only
    rw [hcache, hall, hlen, List.drop_left]
  rw [hxs]
  have hsub := keepNumbered_sublist s seq (xs i)
  have hfew : 1 ≤ seq.numPredicted → new.length ≤ 1 := by
    intro hpos
    have hsum := congrArg List.length hnew
    rw [List.length_append, h.token hpos] at hsum
    omega
  refine ⟨?_, ?_, fun x hx => ?_, fun hpos => hdone (h.token (hpredicted ▸ hpos)),
    by rw [hresponses, hpredicted]; exact h.pending⟩
  · rw [List.map_append, hkept, hall, List.map_map]
    exact congrArg _ (List.map_id' new)
  · refine List.pairwise_append.2 ⟨h.order.sublist hsub, ?_, fun x hx y hy => ?_⟩
    · rw [List.pairwise_map]
      rcases Nat.eq_zero_or_pos seq.numPredicted with hzero | hpos
      · exact List.pairwise_of_forall (fun _ _ => ⟨Nat.le_refl _, fun _ => hzero⟩)
      · have hshort := hfew hpos
        match new, hshort with
        | [], _ => exact List.Pairwise.nil
        | [_], _ => exact List.pairwise_singleton _ _
    · obtain ⟨_, _, rfl⟩ := List.mem_map.1 hy
      have := h.below x (hsub.subset hx)
      dsimp only
      omega
  · rw [hpredicted]
    rcases List.mem_append.1 hx with hx | hx
    · have := h.below x (hsub.subset hx)
      omega
    · obtain ⟨_, _, rfl⟩ := List.mem_map.1 hx
      exact Nat.le_refl _

/-! ## After the forward pass -/

/-- What a sequence goes on with after a forward pass: more of its inputs, with a KV cache only, or a token more. -/
inductive Next (enabled : Bool) (seq seq' : Sequence μ) : Prop where
  | rest (inputs : seq.inputs ≠ []) (enabled : enabled = true) (same : seq' = { seq with pendingInputs := [] })
  | token (inputs : seq.inputs = []) (token : seq'.inputs.length = 1) (numPredicted : seq'.numPredicted =
      seq.numPredicted + 1)
      (pending : seq'.responses.pending.length ≤ seq.responses.pending.length + 1)

/-- A piece more is held back, or none. -/
theorem length_emit_le {connected : Bool} {stops : List Bytes} {r r' : Responses} {piece : Bytes}
    (h : emit connected stops r piece = (r', .go)) : r'.pending.length ≤ r.pending.length + 1 := by
  unfold emit at h
  dsimp only at h
  split at h
  · nomatch (Prod.mk.inj h).2
  · split at h
    · rw [← (Prod.mk.inj h).1, List.length_append]
      exact Nat.le_refl _
    · rw [← (Prod.mk.inj h).1]
      unfold flushPending
      dsimp only
      split
      · exact Nat.zero_le _
      · split <;> exact Nat.zero_le _

theorem next_finishSeq {env : Env} {i : Nat} {s s' : Server σ μ} {seq seq' : Sequence μ} (hs : s.seq i = some seq)
    (hf : finishSeq env i s = some s') (hs' : s'.seq i = some seq') : Next s.cache.cache.isSome seq seq' := by
  have hi := seq_lt hs
  have hremoved : ∀ (s₁ : Server σ μ) (seq₁ : Sequence μ), some (s₁.removeSequence env i seq₁) = some s' →
    s₁.seqs = s.seqs → False := by
    intro s₁ seq₁ h hseqs
    rw [← Option.some.inj h] at hs'
    have hnone : (s₁.removeSequence env i seq₁).seq i = none := (seq_setSeq s₁ (hseqs ▸ hi) none i).trans (if_pos rfl)
    cases hnone.symm.trans hs'
  have hkept : ∀ (s₁ : Server σ μ) (seq₁ : Sequence μ), some (s₁.setSeq i (some seq₁)) = some s' →
    s₁.seqs = s.seqs → seq' = seq₁ := by
    intro s₁ seq₁ h hseqs
    rw [← Option.some.inj h] at hs'
    exact (Option.some.inj (((seq_setSeq s₁ (hseqs ▸ hi) (some seq₁) i).trans (if_pos rfl)).symm.trans hs')).symm
  simp only [finishSeq, hs] at hf
  split at hf
  · rename_i hne
    split at hf
    · cases hf
    · rename_i hsome
      refine .rest (fun h => hne (List.length_eq_zero_iff.2 h)) ?_ (hkept _ _ hf rfl)
      rw [← Option.not_isNone, Bool.not_eq_true']
      exact Bool.not_eq_true _ ▸ hsome
  · rename_i hnil
    have hinputs : seq.inputs = [] := List.length_eq_zero_iff.1 (not_not.1 hnil)
    split at hf
    · exact (hremoved _ _ hf rfl).elim
    · obtain ⟨token, _, hf⟩ := Option.bind_eq_some_iff.1 hf
      split at hf
      · exact (hremoved _ _ hf rfl).elim
      · obtain ⟨piece, _, hf⟩ := Option.bind_eq_some_iff.1 hf
        split at hf
        · split at hf
          · cases hf
          · exact (hremoved _ _ hf rfl).elim
        · rename_i hgo
          rw [hkept _ _ hf rfl]
          exact .token hinputs rfl rfl (length_emit_le (Prod.ext rfl hgo))
        · exact (hremoved _ _ hf rfl).elim

theorem cache_finishSeq {env : Env} {i : Nat} {s s' : Server σ μ} (hf : finishSeq env i s = some s') :
    s'.cache.cache = s.cache.cache := by
  rcases hs : s.seq i with _ | seq
  · rw [finishSeq, hs] at hf
    rw [Option.some.inj hf]
  · rcases finishSeq_cases hs hf with ⟨_, _, rfl⟩ | ⟨_, _, _, _, rfl⟩
    · rfl
    · rfl

/-- What the loop after the forward pass makes of a sequence that goes on. -/
theorem next_finishAll {env : Env} {idxs : List Nat} (hnodup : idxs.Nodup) {s s' : Server σ μ}
    (hf : finishAll env idxs s = some s') {i : Nat} (hi : i ∈ idxs) {seq' : Sequence μ} (hs' : s'.seq i = some seq') :
    ∃ seq, s.seq i = some seq ∧ Next s.cache.cache.isSome seq seq' := by
  induction idxs generalizing s with
  | nil => nomatch hi
  | cons idx idxs ih =>
    obtain ⟨hnot, hnodup'⟩ := List.nodup_cons.1 hnodup
    rw [finishAll, Option.bind_eq_some_iff] at hf
    obtain ⟨s₁, h₁, hf⟩ := hf
    by_cases hidx : i = idx
    · subst hidx
      rcases (goesOn_finishAll hnodup' hf).2 i seq' hs' with ⟨hs₁, _⟩ | ⟨hmem, _⟩
      · rcases (goesOn_finishSeq h₁).2 i seq' hs₁ with ⟨_, hne⟩ | ⟨_, seq, hs, _⟩
        · exact absurd rfl hne
        · exact ⟨seq, hs, next_finishSeq hs h₁ hs₁⟩
      · exact absurd hmem hnot
    · obtain ⟨seq, hs₁, hnext⟩ := ih hnodup' hf ((List.mem_cons.1 hi).resolve_left hidx)
      rcases (goesOn_finishSeq h₁).2 i seq hs₁ with ⟨hs, _⟩ | ⟨heq, _⟩
      · rw [cache_finishSeq h₁] at hnext
        exact ⟨seq, hs, hnext⟩
      · exact absurd heq hidx

/-! ## Runs -/

/-- The invariant of the numbers between two sections of the server. -/
def NumberedInv (s : Server σ μ) (xs : Nat → Numbered μ) : Prop :=
  ∀ i seq, s.seq i = some seq → NumberedSeq seq (s.cache.slot seq.cache).inputs (xs i)

/-- A batch that is gathered between two sections, and the numbers in it of a sequence with a KV cache, or with no
inputs left. -/
theorem numbered_gatherAll {env : Env} {s s₁ : Server σ μ} {xs : Nat → Numbered μ} {options : Options μ}
    (hinv : ServerInv K s) (hready : Ready s) (hbatch : 1 ≤ s.batchSize) (h : NumberedInv s xs)
    (hg : gatherAll K env s.order s {} = some (s₁, options)) {i : Nat} {seq₁ : Sequence μ}
    (hs₁ : s₁.seq i = some seq₁) :
    s₁.cache.cache.isSome = s.cache.cache.isSome ∧ seq₁.pendingInputs ≠ [] ∧ (s.cache.cache.isSome ∨ seq₁.inputs = [] →
      NumberedBatch seq₁ ((s₁.cache.slot seq₁.cache).inputs ++ seq₁.pendingInputs) (s.gatherNumbered s₁ xs i)) := by
  have hstart : Gathering K s ({} : Options μ).rows := hinv
  have hturns := turns_gatherAll (nodup_rotate _ _) hstart hbatch (fun _ _ _ hs => hinv.pending_nil hs)
    (fun j _ seq hs => hready.inputs j seq hs) hg
  have hlt := seq_lt hs₁
  rw [hturns.shape.seqs] at hlt
  obtain ⟨seq, hs, htaken⟩ := hturns.own i (BatchAux.mem_rotate hlt) seq₁ hs₁
  have hcache : seq₁.cache = seq.cache := by rw [htaken.same]
  obtain ⟨slot, hslot, _⟩ := hinv.placed.live i seq hs
  have hroom := hinv.placed.room _ slot hslot
  rw [← slot_of_getElem? hslot] at hroom
  rw [hcache]
  exact ⟨hturns.enabled, htaken.pending, fun hlast => (h i seq hs).gather hs hs₁ htaken hroom hlast⟩

/-- `processBatch` keeps the invariant of the numbers. -/
theorem numberedInv_processBatch {env : Env} {s s₁ s' : Server σ μ} {xs : Nat → Numbered μ} {options : Options μ}
    (hinv : ServerInv K s) (hready : Ready s) (hbatch : 1 ≤ s.batchSize) (h : NumberedInv s xs)
    (hg : gatherAll K env s.order s {} = some (s₁, options)) (hp : s.processBatch K env = some s') :
    NumberedInv s' (s.gatherNumbered s₁ xs) := by
  intro i seq' hs'
  have hstart : Gathering K s ({} : Options μ).rows := hinv
  obtain ⟨s₁', options', hg', hp⟩ := processBatch_cases hp
  obtain ⟨rfl, rfl⟩ := Prod.mk.inj (Option.some.inj (hg.symm.trans hg'))
  obtain ⟨hgathering, hlen⟩ := gathering_gatherAll (nodup_rotate _ _) hstart (fun _ _ _ hs => hinv.pending_nil hs) hg
  rcases hp with ⟨hrows, rfl⟩ | ⟨s₂, hforward, hp⟩
  · -- with nothing in the batch there is no sequence left
    rw [hrows] at hgathering
    exact absurd (hgathering.pending_nil hs') (numbered_gatherAll hinv hready hbatch h hg hs').2.1
  · obtain ⟨hcomputing, hseqs⟩ := computing_forward hgathering hforward
    obtain ⟨_, _, hslots⟩ := sameShape_forward hforward
    obtain ⟨hshape, hon⟩ := goesOn_finishAll List.nodup_range hp
    have hi : i ∈ List.range s.seqs.length := by
      have hlt := seq_lt hs'
      rw [hshape.seqs, hseqs, hlen] at hlt
      exact List.mem_range.2 hlt
    obtain ⟨seq₁, hs₂, hnext⟩ := next_finishAll List.nodup_range hp hi hs'
    have hs₁ : s₁.seq i = some seq₁ := by rw [← hs₂, Server.seq, Server.seq, hseqs]
    obtain ⟨henabled, _, hnumbers⟩ := numbered_gatherAll hinv hready hbatch h hg hs₁
    obtain ⟨seq₂, hs₂', hon, hinputs⟩ : ∃ seq₂, s'.seq i = some seq₂ ∧ GoesOn env i seq₁ seq₂ ∧
        (s'.cache.slot seq₁.cache).inputs = (s₂.cache.slot seq₁.cache).inputs ++ seq₁.pendingInputs := by
      rcases BatchAux.finishAll_at List.nodup_range hcomputing hp hi hs₂ with hgoes | ⟨hnone, _⟩
      · exact hgoes
      · cases hnone.symm.trans hs'
    obtain rfl := Option.some.inj (hs₂'.symm.trans hs')
    have hslot : s₂.cache.slot seq₁.cache = s₁.cache.slot seq₁.cache := by rw [InputCache.slot, InputCache.slot, hslots]
    have hsome : s₂.cache.cache.isSome = s₁.cache.cache.isSome := by
      rcases forward_cases hforward with ⟨_, rfl⟩ | ⟨kv, kv', hkv, _, rfl⟩
      · rfl
      · rw [hkv]
        rfl
    rw [hsome, henabled] at hnext
    rw [hon.cache, hinputs, hslot]
    cases hnext with
    | rest hne he hsame =>
      obtain ⟨hmap, horder, hle, hdone, hpending⟩ := hnumbers (.inl he)
      -- no token has been generated yet
      have hzero : seq₁.numPredicted = 0 := by
        by_contra hpos
        exact hne (hdone (Nat.pos_of_ne_zero hpos))
      have hpredicted : seq₂.numPredicted = seq₁.numPredicted := by rw [hsame]
      refine ⟨hmap, horder, fun x hx => .inl ?_, fun hpos => ?_, ?_⟩
      · have := hle x hx
        omega
      · omega
      · rw [hsame]
        exact hpending
    | token hnil htoken hpredicted hpieces =>
      obtain ⟨hmap, horder, hle, _, hpending⟩ := hnumbers (.inr hnil)
      refine ⟨hmap, horder, fun x hx => .inr ?_, fun _ => htoken, ?_⟩
      · have := hle x hx
        omega
      · omega

/-- `completion` keeps the invariant of the numbers. -/
theorem numberedInv_completion {req : Request μ} {s s' : Server σ μ} {xs : Nat → Numbered μ} (hinv : ServerInv K s)
    (h : NumberedInv s xs) (hc : s.completion K req = some s') : NumberedInv s' (s.startNumbered s' xs) := by
  have hold : ∀ {i seq}, s.seq i = some seq → s'.seq i = some seq →
    (s'.cache.slot seq.cache).inputs = (s.cache.slot seq.cache).inputs →
      NumberedSeq seq (s'.cache.slot seq.cache).inputs (s.startNumbered s' xs i) := by
    intro i seq hs hs' hinputs
    have hxs : s.startNumbered s' xs i = xs i := by
      unfold Server.startNumbered
      rw [hs]
    rw [hxs, hinputs]
    exact h i seq hs
  intro j seq' hs'
  rcases completion_cases hc with rfl | ⟨prompt, numKeep, i, c', out, _, hi, hfree, hload, hout⟩
  · exact hold hs' hs' rfl
  rcases loadCacheSlot_spec hinv.holds hinv.placed.slots_small hload with ⟨rfl, rfl⟩ | ⟨slot, rest, s₀, ins, rfl, hl⟩
  · rcases hout with ⟨_, rfl⟩ | ⟨_, _, hsome, _⟩
    · exact hold hs' hs' rfl
    · cases hsome
  · rcases hout with ⟨hnone, _⟩ | ⟨_, _, hsome, rfl⟩
    · cases hnone
    obtain ⟨rfl, rfl⟩ := Prod.mk.inj (Option.some.inj hsome)
    have hcases := (seq_setSeq s hi _ j).symm.trans hs'
    by_cases hji : j = i
    · subst hji
      have hxs : ∀ s₁ : Server σ μ, s₁.seq j = some seq' → s.startNumbered s₁ xs j =
          (s₁.cache.slot seq'.cache).inputs.map (fun x => (x, 0)) := by
        intro s₁ hs₁
        unfold Server.startNumbered
        rw [hfree, hs₁]
      rw [hxs _ hs']
      rw [if_pos rfl] at hcases
      have hnew := (Option.some.inj hcases).symm
      refine ⟨?_, ?_, fun x hx => ?_, fun hpos => ?_, ?_⟩
      · rw [List.map_map]
        exact List.map_id' _
      · exact List.pairwise_map.2 (List.pairwise_of_forall (fun _ _ => ⟨Nat.le_refl _, fun _ => rfl⟩))
      · obtain ⟨_, _, rfl⟩ := List.mem_map.1 hx
        exact .inl rfl
      · rw [hnew] at hpos
        exact absurd hpos (Nat.not_succ_le_zero 0)
      · rw [hnew]
        exact Nat.zero_le _
    · rw [if_neg hji] at hcases
      refine hold hcases hs' ?_
      -- a slot that was free is not the slot of a sequence
      have hne : seq'.cache ≠ slot := by
        intro heq
        obtain ⟨slot', hslot', huse, _⟩ := hinv.placed.live j seq' hcases
        rw [heq, hl.slot, Option.some.injEq] at hslot'
        rw [← hslot', hl.free] at huse
        cases huse
      show (c'.slot seq'.cache).inputs = _
      rw [InputCache.slot, InputCache.slot, hl.slots, List.getElem?_set_ne hne.symm]

/-- In every run over batches of some size the numbers are in order. -/
theorem numberedInv_reachable {s : Server σ μ} {xs : Nat → Numbered μ} (h : (numberedSystem K).Reachable (s, xs)) :
    (system K).Reachable s ∧ (1 ≤ s.batchSize → NumberedInv s xs) := by
  have hall : ∀ t, (numberedSystem K).Reachable t → (system K).Reachable t.1 ∧
    (1 ≤ t.1.batchSize → NumberedInv t.1 t.2) := by
    intro t ht
    induction ht with
    | init hinit => exact ⟨.init hinit.1, fun _ i seq hs => absurd hs (seq_init hinit.1 i seq)⟩
    | step _ hstep ih =>
      obtain ⟨hr, hnumbered⟩ := ih
      have hinv := serverInv_reachable hr
      have hready := ready_reachable hr
      rcases hstep with ⟨req, hc, hxs⟩ | ⟨env, s₁, options, hg, hp, hxs⟩
      · refine ⟨hr.step (.inl ⟨req, hc⟩), fun hbatch => ?_⟩
        rw [(ready_completion hinv hready hc).1.batchSize] at hbatch
        exact hxs ▸ numberedInv_completion hinv (hnumbered hbatch) hc
      · refine ⟨hr.step (.inr ⟨env, hp⟩), fun hbatch => ?_⟩
        rw [(ready_processBatch hinv hready hp).1.batchSize] at hbatch
        exact hxs ▸ numberedInv_processBatch hinv hready hbatch (hnumbered hbatch) hg hp
  exact hall (s, xs) h

/-- The numbers can be written down beside every run. -/
theorem exists_numbered {s : Server σ μ} (h : (system K).Reachable s) : ∃ xs, (numberedSystem K).Reachable (s, xs) := by
  induction h with
  | init hinit => exact ⟨_, .init ⟨hinit, rfl⟩⟩
  | step _ hstep ih =>
    obtain ⟨xs, hr⟩ := ih
    rcases hstep with ⟨req, hc⟩ | ⟨env, hp⟩
    · exact ⟨Server.startNumbered _ _ xs, hr.step (.inl ⟨req, hc, rfl⟩)⟩
    · obtain ⟨s₁, options, hg, _⟩ := processBatch_cases hp
      exact ⟨Server.gatherNumbered _ s₁ xs, hr.step (.inr ⟨env, s₁, options, hg, hp, rfl⟩)⟩

end Ollama.Runner
