import Ollama.Runner.Lemmas.Numbered
import Mathlib.Order.Interval.Finset.Nat

/-!
# The tokens at a stop sequence

When a stop sequence is found, the length of the slot is computed from the numbers of pieces before and after the text
is cut. It is that of the inputs before the first token whose piece is dropped or cut exactly when the tokens from
that one on are still in the slot (`stop_accounted_iff`): a context shift while their pieces are held back may have
discarded some. With a context of one input and a stop sequence over three pieces the length is negative, and the
runner panics (`stop_negative`).
-/

namespace Ollama.Runner

open Lib

variable {σ ρ μ : Type} {K : KvCache σ ρ μ}

/-- The pieces that are held back when a piece is generated. -/
def Sequence.pieces (seq : Sequence μ) (piece : Bytes) : List Bytes := seq.responses.pending ++ [piece]

/-- The number of the first token whose piece is dropped or cut before a stop sequence. The pieces are those of the
last tokens, and the one that is generated has the number `numPredicted + 1`. -/
def Sequence.firstCut (seq : Sequence μ) (piece stop : Bytes) : Nat :=
  seq.numPredicted + 1 - (seq.pieces piece).length + wholePieces (seq.pieces piece)
    (truncateStop (seq.pieces piece) stop).1 + 1

/-- `tokenLen`, for a slot with so many inputs. -/
def Sequence.tokenLen (seq : Sequence μ) (piece stop : Bytes) (inputs : Nat) : Int :=
  let origLen := (seq.pieces piece).length
  let out := truncateStop (seq.pieces piece) stop
  (inputs : Int) + 1 - ((origLen : Int) - out.1.length) - if out.2 ∨ origLen = out.1.length then 1 else 0

/-- `processBatch` finds a stop sequence in the turn of the sequence at place `i`: the batch that was gathered is in
`s₁`, and `s₃` is the server at that turn. -/
structure StopFound (K : KvCache σ ρ μ) (env : Env) (s : Server σ μ) (i : Nat) (s₁ s₃ : Server σ μ) (seq : Sequence μ)
    (piece stop : Bytes) : Prop where
  turn : ∃ options s₂, gatherAll K env s.order s {} = some (s₁, options) ∧ options.rows.length ≠ 0 ∧
    s₁.forward K options.rows = some s₂ ∧ i < s.seqs.length ∧ finishAll env (List.range i) s₂ = some s₃
  live : s₃.seq i = some seq
  inputs : seq.inputs.length = 0
  generates : seq.embeddingOnly = false
  token : ∃ token, env.sample i seq.iBatch = some token ∧ env.eos token = false ∧ env.decode token = some piece
  found : findStop (seq.pieces piece).flatten seq.stop = some stop

/-- The turn does not panic, and leaves the inputs before the first token whose piece is dropped or cut. -/
structure Accounted (env : Env) (i : Nat) (s : Server σ μ) (seq : Sequence μ) (piece stop : Bytes)
    (xs : Numbered μ) : Prop where
  inputs : (s.cache.slot seq.cache).inputs ++ seq.pendingInputs = xs.map Prod.fst
  nonneg : 0 ≤ seq.tokenLen piece stop xs.length
  le : seq.tokenLen piece stop xs.length ≤ xs.length
  kept : ∃ s', finishSeq env i s = some s' ∧
    (s'.cache.slot seq.cache).inputs = (xs.filter (fun x => x.2 < seq.firstCut piece stop)).map Prod.fst

namespace AccountingAux

/-! ## The inputs before a token -/

/-- The inputs before a token come first. -/
theorem filter_append_of_inOrder {xs : Numbered μ} (h : InOrder xs) (n : Nat) :
    xs.filter (fun x => x.2 < n) ++ xs.filter (fun x => ¬x.2 < n) = xs := by
  induction xs with
  | nil => rfl
  | cons x xs ih =>
    obtain ⟨hx, h'⟩ := List.pairwise_cons.1 h
    by_cases hlt : x.2 < n
    · rw [List.filter_cons_of_pos (by simpa using hlt), List.filter_cons_of_neg (by simpa using hlt),
        List.cons_append, ih h']
    · have hnone : xs.filter (fun x => x.2 < n) = [] := by
        rw [List.filter_eq_nil_iff]
        intro y hy hyn
        have hle := (hx y hy).1
        have := of_decide_eq_true hyn
        omega
      have hall := ih h'
      rw [hnone, List.nil_append] at hall
      rw [List.filter_cons_of_neg (by simpa using hlt), hnone, List.nil_append,
        List.filter_cons_of_pos (by simpa using hlt), hall]

/-- The tokens from one on are each there once or not at all. -/
theorem length_filter_le {xs : Numbered μ} (h : InOrder xs) {n last : Nat} (hn : 1 ≤ n) (hle : ∀ x ∈ xs, x.2 ≤ last) :
    (xs.filter (fun x => ¬x.2 < n)).length ≤ last + 1 - n ∧
      ((xs.filter (fun x => ¬x.2 < n)).length = last + 1 - n ↔ ∀ j, n ≤ j → j ≤ last → ∃ x ∈ xs, x.2 = j) := by
  have hnodup : ((xs.filter (fun x => ¬x.2 < n)).map Prod.snd).Nodup := by
    refine List.pairwise_map.2 ((h.sublist List.filter_sublist).imp_of_mem (fun {x y} hx _ hxy heq => ?_))
    have hx' := of_decide_eq_true (List.mem_filter.1 hx).2
    have hzero := hxy.2 heq
    omega
  have hsub : ((xs.filter (fun x => ¬x.2 < n)).map Prod.snd).toFinset ⊆ Finset.Icc n last := by
    intro j hj
    obtain ⟨x, hx, rfl⟩ := List.mem_map.1 (List.mem_toFinset.1 hj)
    obtain ⟨hmem, hx⟩ := List.mem_filter.1 hx
    have hx := of_decide_eq_true hx
    exact Finset.mem_Icc.2 ⟨by omega, hle x hmem⟩
  have hcard := List.toFinset_card_of_nodup hnodup
  rw [List.length_map] at hcard
  have hIcc := Nat.card_Icc n last
  constructor
  · rw [← hcard, ← hIcc]
    exact Finset.card_le_card hsub
  · rw [← hcard, ← hIcc]
    constructor
    · intro heq j hnj hj
      have hmem : j ∈ Finset.Icc n last := Finset.mem_Icc.2 ⟨hnj, hj⟩
      rw [← Finset.eq_of_subset_of_card_le hsub (Nat.le_of_eq heq.symm), List.mem_toFinset] at hmem
      obtain ⟨x, hx, rfl⟩ := List.mem_map.1 hmem
      exact ⟨x, (List.mem_filter.1 hx).1, rfl⟩
    · intro hall
      refine Nat.le_antisymm (Finset.card_le_card hsub) (Finset.card_le_card (fun j hj => ?_))
      obtain ⟨hnj, hj⟩ := Finset.mem_Icc.1 hj
      obtain ⟨x, hx, rfl⟩ := hall j hnj hj
      exact List.mem_toFinset.2 (List.mem_map.2 ⟨x, List.mem_filter.2 ⟨hx, decide_eq_true (Nat.not_lt.2 hnj)⟩, rfl⟩)

/-! ## The turn -/

/-- The tokens that are taken off the slot and the last token. -/
def cutTokens (seq : Sequence μ) (piece stop : Bytes) : Nat :=
  (seq.pieces piece).length - wholePieces (seq.pieces piece) (truncateStop (seq.pieces piece) stop).1

theorem emit_stop (connected : Bool) {seq : Sequence μ} {piece stop : Bytes}
    (h : findStop (seq.pieces piece).flatten seq.stop = some stop) :
    (emit connected seq.stop seq.responses piece).2 = .stop (cutTokens seq piece stop) ∧
      1 ≤ cutTokens seq piece stop ∧ cutTokens seq piece stop ≤ (seq.pieces piece).length ∧
      ∀ n : Nat, seq.tokenLen piece stop n = n + 1 - cutTokens seq piece stop := by
  have hsome := List.find?_some (p := fun stop => (index stop (seq.pieces piece).flatten).isSome) h
  have hinfix : stop <:+: (seq.pieces piece).flatten := index_isSome_iff.1 hsome
  obtain ⟨hlt, htokens, hle⟩ :=
    truncateStop_tokens (List.append_ne_nil_of_right_ne_nil _ (List.cons_ne_nil piece [])) hinfix
  refine ⟨?_, Nat.sub_pos_of_lt hlt, Nat.sub_le _ _, fun n => ?_⟩
  · unfold emit
    have hfound : findStop (seq.responses.pending ++ [piece]).flatten seq.stop = some stop := h
    dsimp only
    rw [hfound]
    exact congrArg Verdict.stop htokens
  · have hcut : cutTokens seq piece stop = (seq.pieces piece).length - (truncateStop (seq.pieces piece) stop).1.length +
        if (truncateStop (seq.pieces piece) stop).2 ∨
        (seq.pieces piece).length = (truncateStop (seq.pieces piece) stop).1.length then 1 else 0 :=
      htokens.symm
    have hle' : (truncateStop (seq.pieces piece) stop).1.length ≤ (seq.pieces piece).length := hle
    unfold Sequence.tokenLen
    dsimp only
    rw [hcut]
    split <;> push_cast <;> omega

theorem inputs_removed {env : Env} {i : Nat} {s : Server σ μ} (seq : Sequence μ) {slot : InputCacheSlot μ}
    (hslot : s.cache.slots[seq.cache]? = some slot) (inputs : List (Input μ)) :
    (((s.setInputs seq.cache inputs).removeSequence env i seq).cache.slot seq.cache).inputs = inputs := by
  have h₁ : (s.setInputs seq.cache inputs).cache.slots[seq.cache]? = some { slot with inputs := inputs } := by
    rw [← slot_of_getElem? hslot]
    exact (slots_setSlot hslot _ _).trans (if_pos rfl)
  have h₂ : ((s.setInputs seq.cache inputs).removeSequence env i seq).cache.slots[seq.cache]? =
      some { slot with inputs := inputs, inUse := false } := by
    refine (slots_setSlot h₁ _ _).trans ((if_pos rfl).trans ?_)
    rw [slot_of_getElem? h₁]
  rw [slot_of_getElem? h₂]

/-- The turn of a sequence in which a stop sequence is found. -/
theorem finishSeq_stop {env : Env} {i : Nat} {s : Server σ μ} {seq : Sequence μ} {slot : InputCacheSlot μ}
    {piece stop : Bytes} {token : Int} (hs : s.seq i = some seq) (hslot : s.cache.slots[seq.cache]? = some slot)
    (hinputs : seq.inputs.length = 0) (hgenerates : seq.embeddingOnly = false)
    (htoken : env.sample i seq.iBatch = some token) (heos : env.eos token = false)
    (hdecode : env.decode token = some piece) (hfound : findStop (seq.pieces piece).flatten seq.stop = some stop) :
    if cutTokens seq piece stop > (slot.inputs ++ seq.pendingInputs).length + 1 then finishSeq env i s = none
    else ∃ s', finishSeq env i s = some s' ∧ (s'.cache.slot seq.cache).inputs =
      (slot.inputs ++ seq.pendingInputs).take
        ((slot.inputs ++ seq.pendingInputs).length + 1 - cutTokens seq piece stop) := by
  obtain ⟨hemit, _⟩ := emit_stop (env.connected i) hfound
  have hturn : finishSeq env i s = if cutTokens seq piece stop > (slot.inputs ++ seq.pendingInputs).length + 1
    then none else
      some (((s.setInputs seq.cache (slot.inputs ++ seq.pendingInputs)).setInputs seq.cache
        ((slot.inputs ++ seq.pendingInputs).take
          ((slot.inputs ++ seq.pendingInputs).length + 1 - cutTokens seq piece stop))).removeSequence env i
          { seq with pendingInputs := [], numPredicted := seq.numPredicted + 1, inputs := [{ token := token }]
                     responses := (emit (env.connected i) seq.stop seq.responses piece).1 }) := by
    simp only [finishSeq, hs, slot_of_getElem? hslot, hinputs, ne_eq, not_true_eq_false, if_false, hgenerates,
      Bool.false_eq_true, htoken, Option.bind_some, heos, hdecode, hemit]
  rw [hturn]
  split
  · rfl
  · refine ⟨_, rfl, ?_⟩
    rw [setInputs_setInputs]
    let seq' : Sequence μ :=
      { seq with
        pendingInputs := [], numPredicted := seq.numPredicted + 1, inputs := [{ token := token }]
        responses := (emit (env.connected i) seq.stop seq.responses piece).1 }
    exact inputs_removed seq' hslot _

/-- What the turn leaves, from the numbers of the inputs. -/
theorem accounted_iff {env : Env} {i : Nat} {s : Server σ μ} {seq : Sequence μ} {slot : InputCacheSlot μ}
    {piece stop : Bytes} {token : Int} {xs : Numbered μ} (hs : s.seq i = some seq)
    (hslot : s.cache.slots[seq.cache]? = some slot) (hinputs : seq.inputs.length = 0)
    (hgenerates : seq.embeddingOnly = false) (htoken : env.sample i seq.iBatch = some token)
    (heos : env.eos token = false) (hdecode : env.decode token = some piece)
    (hfound : findStop (seq.pieces piece).flatten seq.stop = some stop)
    (hxs : NumberedBatch seq (slot.inputs ++ seq.pendingInputs) xs) :
    Accounted env i s seq piece stop xs ↔
      ∀ j, seq.firstCut piece stop ≤ j → j ≤ seq.numPredicted → ∃ x ∈ xs, x.2 = j := by
  have hturn := finishSeq_stop hs hslot hinputs hgenerates htoken heos hdecode hfound
  obtain ⟨_, hpos, hle, htokenLen⟩ := emit_stop (env.connected i) hfound
  have hpieces : (seq.pieces piece).length = seq.responses.pending.length + 1 := List.length_append
  have hpending := hxs.pending
  have hfirst : seq.firstCut piece stop = seq.numPredicted + 2 - cutTokens seq piece stop := by
    unfold Sequence.firstCut cutTokens at *
    omega
  have hsplit := filter_append_of_inOrder hxs.order (seq.firstCut piece stop)
  obtain ⟨hcount, hall⟩ := length_filter_le hxs.order (n := seq.firstCut piece stop) (by omega) hxs.le
  have hlen : (slot.inputs ++ seq.pendingInputs).length = xs.length := by rw [← hxs.inputs, List.length_map]
  have hsum := congrArg List.length hsplit
  rw [List.length_append] at hsum
  rw [hlen] at hturn
  rw [← hall]
  constructor
  · rintro ⟨_, hnonneg, _, s', hfinish, hkept⟩
    rw [htokenLen] at hnonneg
    rw [if_neg (by omega)] at hturn
    obtain ⟨s'', hfinish', hinputs'⟩ := hturn
    obtain rfl := Option.some.inj (hfinish.symm.trans hfinish')
    have hkeptlen := congrArg List.length (hinputs'.symm.trans hkept)
    rw [List.length_take, hlen, List.length_map] at hkeptlen
    omega
  · intro heq
    rw [if_neg (by omega)] at hturn
    obtain ⟨s', hfinish, hinputs'⟩ := hturn
    refine ⟨?_, by rw [htokenLen]; omega, by rw [htokenLen]; omega, s', hfinish, ?_⟩
    · rw [slot_of_getElem? hslot]
      exact hxs.inputs.symm
    · have htake : xs.length + 1 - cutTokens seq piece stop =
        (xs.filter (fun x => x.2 < seq.firstCut piece stop)).length := by omega
      have hbefore : ∀ before rest : Numbered μ, before ++ rest = xs → xs.take before.length = before := by
        rintro before rest rfl
        exact List.take_left
      rw [hinputs', htake, ← hxs.inputs, ← List.map_take, hbefore _ _ hsplit]

end AccountingAux

open AccountingAux

/-- In every run, when a stop sequence is found the runner does not panic and keeps the inputs before the first token
whose piece is dropped or cut, if and only if each token from that one on, but the one just generated, is still in the
slot. -/
theorem stop_accounted_iff {s : Server σ μ} {xs : Nat → Numbered μ} (h : (numberedSystem K).Reachable (s, xs))
    {env : Env} {i : Nat} {s₁ s₃ : Server σ μ} {seq : Sequence μ} {piece stop : Bytes}
    (hfound : StopFound K env s i s₁ s₃ seq piece stop) :
    Accounted env i s₃ seq piece stop (s.gatherNumbered s₁ xs i) ↔
      ∀ j, seq.firstCut piece stop ≤ j → j ≤ seq.numPredicted → ∃ x ∈ s.gatherNumbered s₁ xs i, x.2 = j := by
  obtain ⟨options, s₂, hg, hrows, hforward, hi, hfinish⟩ := hfound.turn
  obtain ⟨token, htoken, heos, hdecode⟩ := hfound.token
  obtain ⟨hr, hnumbered⟩ := numberedInv_reachable h
  have hinv := serverInv_reachable hr
  have hready := ready_reachable hr
  have hbatch : 1 ≤ s.batchSize := by
    by_contra hzero
    rw [options_gatherAll_zero (by omega) hg] at hrows
    exact hrows rfl
  have hstart : Gathering K s ({} : Options μ).rows := hinv
  obtain ⟨hgathering, _⟩ := gathering_gatherAll (nodup_rotate _ _) hstart (fun _ _ _ hs => hinv.pending_nil hs) hg
  obtain ⟨hcomputing, hseqs⟩ := computing_forward hgathering hforward
  obtain ⟨_, _, hslots⟩ := sameShape_forward hforward
  have hs₂ : s₂.seq i = some seq := by
    rcases (goesOn_finishAll List.nodup_range hfinish).2 i seq hfound.live with ⟨hs, _⟩ | ⟨hmem, _⟩
    · exact hs
    · exact absurd (List.mem_range.1 hmem) (Nat.lt_irrefl i)
  have hs₁ : s₁.seq i = some seq := by rw [← hs₂, Server.seq, Server.seq, hseqs]
  -- the turns of the places before leave the slot of the sequence alone
  obtain ⟨slot, hslot, _⟩ := hcomputing.placed.live i seq hs₂
  have hkeep := (BatchAux.keep_finishAll hcomputing hfinish (fun hmem => Nat.lt_irrefl i (List.mem_range.1 hmem))
    (fun j seq' hj hs' heq => hj (hcomputing.placed.distinct j i seq' seq hs' hs₂ heq))).2
  have hnumbers := (numbered_gatherAll hinv hready hbatch (hnumbered hbatch) hg hs₁).2.2
    (.inr (List.length_eq_zero_iff.1 hfound.inputs))
  rw [slot_of_getElem? (hslots ▸ hslot)] at hnumbers
  exact accounted_iff hfound.live (hkeep.trans hslot) hfound.inputs hfound.generates htoken heos hdecode
    hfound.found hnumbers

/-! ## Runs of one slot -/

/-- A server with one slot. -/
def oneSlot (numCtx : Nat) : Server (Nat → Int → Multiset (Int × Int)) Unit :=
  { seqs := List.replicate 1 none, batchSize := 4, cache := ⟨numCtx, List.replicate 1 {}, false, some (fun _ _ => 0)⟩ }

/-- A prompt of one token, with a stop sequence. -/
def stopRequest (stop : Bytes) : Request Unit := ⟨[{ token := 7 }], true, 0, -1, [stop], false, 1, 2⟩

/-- The model samples a letter. -/
def sampleLetter (letter : Int) : Env :=
  ⟨fun _ _ => some letter, fun _ => false, fun token => some [UInt8.ofNat token.toNat], fun _ => true⟩

theorem reachable_oneSlot {numCtx : Nat} (h1 : 1 ≤ numCtx) (h2 : (numCtx : Int) ≤ Kvcache.maxInt32) :
    (numberedSystem tokenRows).Reachable (oneSlot numCtx, fun _ => []) := by
  refine .init ⟨⟨1, 4, numCtx, false, some (fun _ _ => 0), h1, h2, fun kv hkv seq p => ?_, rfl⟩, rfl⟩
  rw [← Option.some.inj hkv]
  rfl

/-- With a context of eight inputs, the first token of the stop sequence is taken off the slot. -/
theorem stop_accounted_iff_two : ∃ s xs s₁ s₃ seq, (numberedSystem tokenRows).Reachable (s, xs) ∧
    StopFound tokenRows (sampleLetter 98) s 0 s₁ s₃ seq [98] [97, 98] ∧
    Accounted (sampleLetter 98) 0 s₃ seq [98] [97, 98] (s.gatherNumbered s₁ xs 0) := by
  have hrun : ((oneSlot 8).completion tokenRows (stopRequest [97, 98])).bind (fun a =>
      (gatherAll tokenRows (sampleLetter 97) a.order a {}).bind (fun b =>
        (a.processBatch tokenRows (sampleLetter 97)).bind (fun s =>
          (gatherAll tokenRows (sampleLetter 98) s.order s {}).bind (fun c =>
            (c.1.forward tokenRows c.2.rows).bind (fun s₃ => (s₃.seq 0).map (fun seq =>
              ((c.2.rows.length, s.seqs.length, seq.inputs.length, seq.embeddingOnly,
                decide (findStop (seq.pieces [98]).flatten seq.stop = some [97, 98])),
                seq.firstCut [98] [97, 98], seq.numPredicted,
                (s.gatherNumbered c.1 (a.gatherNumbered b.1 ((oneSlot 8).startNumbered a (fun _ => []))) 0).map
                  Prod.snd))))))) =
      some ((1, 1, 0, false, true), 1, 1, [0, 1]) := by decide +kernel
  obtain ⟨a, ha, hrun⟩ := Option.bind_eq_some_iff.1 hrun
  obtain ⟨b, hb, hrun⟩ := Option.bind_eq_some_iff.1 hrun
  obtain ⟨s, hs, hrun⟩ := Option.bind_eq_some_iff.1 hrun
  obtain ⟨c, hc, hrun⟩ := Option.bind_eq_some_iff.1 hrun
  obtain ⟨s₃, hs₃, hrun⟩ := Option.bind_eq_some_iff.1 hrun
  obtain ⟨seq, hseq, hrun⟩ := Option.map_eq_some_iff.1 hrun
  simp only [Prod.mk.injEq] at hrun
  obtain ⟨⟨hrows, hseqs, hinputs, hgenerates, hfound⟩, hfirst, hpredicted, hnumbers⟩ := hrun
  have hreach₁ : (numberedSystem tokenRows).Reachable (a, (oneSlot 8).startNumbered a (fun _ => [])) :=
    (reachable_oneSlot (by decide) (by decide)).step (.inl ⟨_, ha, rfl⟩)
  have hreach : (numberedSystem tokenRows).Reachable (s,
    a.gatherNumbered b.1 ((oneSlot 8).startNumbered a (fun _ => []))) :=
    hreach₁.step (.inr ⟨_, b.1, b.2, hb, hs, rfl⟩)
  have hstop : StopFound tokenRows (sampleLetter 98) s 0 c.1 s₃ seq [98] [97, 98] :=
    ⟨⟨c.2, s₃, hc, by omega, hs₃, by omega, rfl⟩, hseq, hinputs, hgenerates, ⟨98, rfl, rfl, rfl⟩,
      of_decide_eq_true hfound⟩
  refine ⟨s, _, c.1, s₃, seq, hreach, hstop, (stop_accounted_iff hreach hstop).2 (fun j hj hle => ?_)⟩
  have hmem : j ∈ (s.gatherNumbered c.1 (a.gatherNumbered b.1 ((oneSlot 8).startNumbered a (fun _ => []))) 0).map
    Prod.snd := by
    rw [hnumbers, show j = 1 by omega]
    decide
  obtain ⟨x, hx, rfl⟩ := List.mem_map.1 hmem
  exact ⟨x, hx, rfl⟩

/-- With a context of one input, two shifts discard the prompt and the first token while the pieces of a stop sequence
of three tokens are held back: three tokens are taken off a slot of one input and the last token, and the runner
panics. -/
theorem stop_negative : ∃ s xs s₁ s₃ seq, (numberedSystem tokenRows).Reachable (s, xs) ∧
    StopFound tokenRows (sampleLetter 99) s 0 s₁ s₃ seq [99] [97, 98, 99] ∧
    ¬Accounted (sampleLetter 99) 0 s₃ seq [99] [97, 98, 99] (s.gatherNumbered s₁ xs 0) ∧
    s.processBatch tokenRows (sampleLetter 99) = none := by
  have hrun : ((((oneSlot 1).completion tokenRows (stopRequest [97, 98, 99])).bind
    (Server.processBatch tokenRows (sampleLetter 97))).bind
      (Server.processBatch tokenRows (sampleLetter 98))).bind (fun s =>
        (gatherAll tokenRows (sampleLetter 99) s.order s {}).bind (fun c =>
          (c.1.forward tokenRows c.2.rows).bind (fun s₃ => (s₃.seq 0).map (fun seq =>
            ((c.2.rows.length, s.seqs.length, seq.inputs.length, seq.embeddingOnly,
              decide (findStop (seq.pieces [99]).flatten seq.stop = some [97, 98, 99])),
              (finishSeq (sampleLetter 99) 0 s₃).isNone, (s.processBatch tokenRows (sampleLetter 99)).isNone))))) =
      some ((1, 1, 0, false, true), true, true) := by decide +kernel
  obtain ⟨s, hs, hrun⟩ := Option.bind_eq_some_iff.1 hrun
  obtain ⟨b, hb, hs⟩ := Option.bind_eq_some_iff.1 hs
  obtain ⟨a, ha, hb⟩ := Option.bind_eq_some_iff.1 hb
  obtain ⟨c, hc, hrun⟩ := Option.bind_eq_some_iff.1 hrun
  obtain ⟨s₃, hs₃, hrun⟩ := Option.bind_eq_some_iff.1 hrun
  obtain ⟨seq, hseq, hrun⟩ := Option.map_eq_some_iff.1 hrun
  simp only [Prod.mk.injEq] at hrun
  obtain ⟨⟨hrows, hseqs, hinputs, hgenerates, hfound⟩, hpanic, hnone⟩ := hrun
  have hreach : (system tokenRows).Reachable s :=
    ((((numberedInv_reachable (reachable_oneSlot (by decide) (by decide))).1).step (.inl ⟨_, ha⟩)).step
      (.inr ⟨_, hb⟩)).step (.inr ⟨_, hs⟩)
  obtain ⟨xs, hxs⟩ := exists_numbered hreach
  refine ⟨s, xs, c.1, s₃, seq, hxs, ⟨⟨c.2, s₃, hc, by omega, hs₃, by omega, rfl⟩, hseq, hinputs, hgenerates,
    ⟨99, rfl, rfl, rfl⟩, of_decide_eq_true hfound⟩, fun haccounted => ?_, Option.isNone_iff_eq_none.1 hnone⟩
  obtain ⟨s', hfinish, _⟩ := haccounted.kept
  rw [hfinish] at hpanic
  nomatch hpanic

end Ollama.Runner
