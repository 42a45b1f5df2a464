import Ollama.Runner.Lemmas.Handlers
import Ollama.Runner.Theorems.Slots

/-!
# Slots, sequences and permits

In every interleaving of the handlers with the turns of `processBatch`, the slots in use are those of the sequences,
one each, every sequence has a permit, and no handler that has a permit fails. The permits that are held are those of
the sequences and those of the handlers that wait for the mutex; as there are no more than places, a handler that
waits finds an empty place, and with it a free slot.

When the mutex is free the server is one that requests and batches, each as a whole, could have led to (`system`).
-/

namespace Ollama.Runner

open Lib

variable {σ ρ μ : Type} {K : KvCache σ ρ μ}

/-- The handler has a permit and waits for the mutex. -/
def Handler.isLocking : Handler μ → Bool
  | .locking _ _ _ => true
  | _ => false

/-- The handler has the inputs of a sequence that is not in place yet. -/
def Handler.prompt : Handler μ → Option (List (Input μ))
  | .acquiring _ prompt _ => some prompt
  | .locking _ prompt _ => some prompt
  | _ => none

/-- The slots match the sequences, and every permit that is held is that of a sequence or of a handler that waits for
the mutex. -/
structure Balanced (st : Serving σ μ) : Prop where
  matched : st.server.allocation.Matched
  slots : st.server.allocation.used.length = st.parallel
  places : st.server.allocation.places.length = st.parallel
  held : st.held = st.server.allocation.live + st.handlers.countP Handler.isLocking
  bound : st.held ≤ st.parallel
  noError : ∀ err, Handler.failed err ∉ st.handlers
  prompts : ∀ h ∈ st.handlers, ∀ prompt, h.prompt = some prompt → prompt ≠ []
  policy : st.server.cache.multiUserCache = false
  ctx : 1 ≤ st.server.cache.numCtx

namespace BalancedAux

/-- `NewSequence` makes some inputs of a request. -/
theorem newInputs_ne_nil {numCtx numKeep' : Nat} {numKeep : Int} {inputs prompt : List (Input μ)} (hctx : 1 ≤ numCtx)
    (h : newInputs numCtx numKeep inputs = some (prompt, numKeep')) : prompt ≠ [] := by
  have hkeep := Nat.min_le_right (if numKeep < 0 then inputs.length else numKeep.toNat) (numCtx - 1)
  unfold newInputs at h
  split at h
  · nomatch h
  · rename_i hne
    generalize min (if numKeep < 0 then inputs.length else numKeep.toNat) (numCtx - 1) = keep at h hkeep
    split at h
    · rename_i hlong
      obtain ⟨rfl, _⟩ := Prod.mk.inj (Option.some.inj h)
      rw [← List.length_pos_iff, List.length_append, List.length_take, List.length_drop]
      omega
    · obtain ⟨rfl, _⟩ := Prod.mk.inj (Option.some.inj h)
      exact fun hnil => hne (List.length_eq_zero_iff.2 hnil)

theorem balanced_init {st : Serving σ μ} (h : (serving K false).init st) : Balanced st := by
  obtain ⟨parallel, batchSize, numCtx, cache, hctx, _, _, rfl⟩ := h
  have halloc : Server.allocation (σ := σ) (μ := μ)
      { seqs := List.replicate parallel none, batchSize := batchSize, cache := ⟨numCtx, List.replicate parallel {},
        false, cache⟩ } = ⟨List.replicate parallel none, List.replicate parallel false⟩ := by
    unfold Server.allocation
    rw [List.map_replicate, List.map_replicate]
    rfl
  refine ⟨?_, ?_, ?_, ?_, Nat.zero_le _, fun _ => List.not_mem_nil, nofun, rfl, hctx⟩
  · dsimp only
    rw [halloc]
    exact Allocation.matched_empty parallel
  · dsimp only
    rw [halloc]
    exact List.length_replicate
  · dsimp only
    rw [halloc]
    exact List.length_replicate
  · dsimp only
    rw [halloc]
    exact (List.countP_eq_zero.2 fun o ho => by rw [List.eq_of_mem_replicate ho]; nofun).symm

/-- The permits of the sequences that a turn removes are held. -/
theorem balanced_turned {st : Serving σ μ} (h : Balanced st) {s : Server σ μ} (ht : Turned st.server s)
    (batch : Section μ) :
    ∃ st', st.turned s batch = some st' ∧ Balanced st' := by
  have hctx : 1 ≤ s.cache.numCtx := ht.numCtx ▸ h.ctx
  have hpolicy : s.cache.multiUserCache = false := ht.policy.trans h.policy
  unfold Serving.turned
  rcases ht.outcome with ⟨halloc, hfinished⟩ | ⟨i, key, hi, halloc, hfinished⟩
  · rw [hfinished, Nat.sub_self, if_pos (Nat.zero_le _)]
    exact ⟨_, rfl, halloc ▸ h.matched, halloc ▸ h.slots, halloc ▸ h.places, halloc ▸ h.held, h.bound, h.noError,
      h.prompts, hpolicy, hctx⟩
  · have hlive := Allocation.live_release hi
    have hheld := h.held
    have hbound := h.bound
    obtain ⟨hplaces, hused⟩ := st.server.allocation.length_release i key
    rw [hfinished, Nat.add_sub_cancel_left, if_pos (by omega)]
    refine ⟨_, rfl, ?_, ?_, ?_, ?_, ?_, h.noError, h.prompts, hpolicy, hctx⟩
    · exact halloc ▸ h.matched.release hi
    · exact (congrArg (fun a => a.used.length) halloc).trans (hused.trans h.slots)
    · exact (congrArg (fun a => a.places.length) halloc).trans (hplaces.trans h.places)
    · show st.held - 1 = s.allocation.live + st.handlers.countP Handler.isLocking
      rw [halloc]
      omega
    · show st.held - 1 ≤ st.parallel
      omega

theorem balanced_turn {st st' : Serving σ μ} (h : Balanced st) (hturn : st.turn K = some st') : Balanced st' := by
  unfold Serving.turn at hturn
  have hsame : ∀ {s : Server σ μ} {batch : Section μ}, Turned st.server s → st.turned s batch = some st' →
    Balanced st' := by
    intro s batch ht hturned
    obtain ⟨st₁, hst₁, hbalanced⟩ := balanced_turned h ht batch
    exact Option.some.inj (hst₁.symm.trans hturned) ▸ hbalanced
  split at hturn
  · nomatch hturn
  · obtain ⟨⟨s, options⟩, hg, hturned⟩ := Option.bind_eq_some_iff.1 hturn
    exact hsame (turned_gatherSeq hg) hturned
  · split at hturn
    · rw [← Option.some.inj hturn]
      exact ⟨h.matched, h.slots, h.places, h.held, h.bound, h.noError, h.prompts, h.policy, h.ctx⟩
    · obtain ⟨s, hf, rfl⟩ := Option.map_eq_some_iff.1 hturn
      obtain ⟨halloc, hctx, hpolicy, _⟩ := allocation_forward hf
      exact ⟨halloc ▸ h.matched, halloc ▸ h.slots, halloc ▸ h.places, halloc ▸ h.held, h.bound, h.noError, h.prompts,
        hpolicy.trans h.policy, hctx ▸ h.ctx⟩
  · obtain ⟨s, hf, hturned⟩ := Option.bind_eq_some_iff.1 hturn
    exact hsame (turned_finishSeq hf) hturned
  · rw [← Option.some.inj hturn]
    exact ⟨h.matched, h.slots, h.places, h.held, h.bound, h.noError, h.prompts, h.policy, h.ctx⟩

/-- The section of a handler that has a permit succeeds. -/
theorem insert_succeeds {st : Serving σ μ} (h : Balanced st) {i : Nat} {req : Request μ} {prompt : List (Input μ)}
    {numKeep : Nat} (hi : st.handlers[i]? = some (.locking req prompt numKeep)) :
    ∃ s', st.server.insert K req prompt numKeep = some (s', none) ∧
      Balanced { st with server := s', handlers := st.handlers.set i .serving } := by
  have hmem := List.mem_of_getElem? hi
  have hpos : 0 < st.handlers.countP Handler.isLocking := List.countP_pos_iff.2 ⟨_, hmem, rfl⟩
  have hheld := h.held
  have hbound := h.bound
  have hempty : st.server.allocation.live < st.server.allocation.places.length := by
    rw [h.places]
    omega
  obtain ⟨s', j, key, hinsert, hj, hkey, halloc, hctx, hpolicy, _⟩ :=
    insert_claims (K := K) h.policy h.matched (h.slots.trans h.places.symm) hempty
      (h.prompts _ hmem prompt rfl) req numKeep
  obtain ⟨hplaces, hused⟩ := st.server.allocation.length_claim j key
  have hlive : s'.allocation.live = st.server.allocation.live + 1 := halloc ▸ Allocation.live_claim hj
  have hcount : (st.handlers.set i Handler.serving).countP Handler.isLocking + 1 =
    st.handlers.countP Handler.isLocking := countP_replace hi Handler.isLocking .serving
  refine ⟨s', hinsert, ?_, ?_, ?_, ?_, hbound, fun err hfailed => ?_, fun hd hhd prompt' hprompt => ?_,
    hpolicy.trans h.policy, ?_⟩
  · exact halloc ▸ h.matched.claim hj hkey
  · exact (congrArg (fun a => a.used.length) halloc).trans (hused.trans h.slots)
  · exact (congrArg (fun a => a.places.length) halloc).trans (hplaces.trans h.places)
  · show st.held = s'.allocation.live + (st.handlers.set i Handler.serving).countP Handler.isLocking
    omega
  · rcases List.mem_or_eq_of_mem_set hfailed with hold | heq
    · exact h.noError err hold
    · nomatch heq
  · rcases List.mem_or_eq_of_mem_set hhd with hold | rfl
    · exact h.prompts hd hold prompt' hprompt
    · nomatch hprompt
  · show 1 ≤ s'.cache.numCtx
    rw [hctx]
    exact h.ctx

/-- A handler begins, takes a permit or gives up. -/
theorem balanced_handler {st : Serving σ μ} (h : Balanced st) {handlers : List (Handler μ)} {held : Nat}
    (hheld : held + st.handlers.countP Handler.isLocking = st.held + handlers.countP Handler.isLocking)
    (hbound : held ≤ st.parallel) (herr : ∀ err, Handler.failed err ∉ handlers)
    (hprompts : ∀ hd ∈ handlers, ∀ prompt, hd.prompt = some prompt → prompt ≠ []) :
    Balanced { st with handlers := handlers, held := held } := by
  refine ⟨h.matched, h.slots, h.places, ?_, hbound, herr, hprompts, h.policy, h.ctx⟩
  have hold := h.held
  show held = st.server.allocation.live + handlers.countP Handler.isLocking
  omega

theorem balanced_act {st st' : Serving σ μ} (h : Balanced st) {a : ServingAct μ} (hact : st.act K a = some st') :
    Balanced st' := by
  cases a with
  | request req =>
    have happend : ∀ hd : Handler μ, hd.isLocking = false → (∀ err, hd ≠ .failed err) →
        (∀ prompt, hd.prompt = some prompt → prompt ≠ []) → Balanced { st with handlers := st.handlers ++ [hd] } := by
      intro hd hlocking hfailed hprompt
      refine balanced_handler h ?_ h.bound (fun err hmem => ?_) (fun hd' hmem prompt' hprompt' => ?_)
      · rw [List.countP_append, List.countP_singleton, hlocking]
        rfl
      · rcases List.mem_append.1 hmem with hold | hnew
        · exact h.noError err hold
        · exact hfailed err (List.mem_singleton.1 hnew).symm
      · rcases List.mem_append.1 hmem with hold | hnew
        · exact h.prompts hd' hold prompt' hprompt'
        · rw [List.mem_singleton.1 hnew] at hprompt'
          exact hprompt prompt' hprompt'
    unfold Serving.act at hact
    dsimp only at hact
    split at hact
    · rw [← Option.some.inj hact]
      exact happend .returned rfl nofun nofun
    · rename_i prompt numKeep hnew
      rw [← Option.some.inj hact]
      refine happend (.acquiring req prompt numKeep) rfl nofun (fun prompt' hprompt => ?_)
      rw [← Option.some.inj hprompt]
      exact newInputs_ne_nil h.ctx hnew
  | acquire i =>
    unfold Serving.act at hact
    dsimp only at hact
    split at hact
    · rename_i req prompt numKeep hi
      split at hact
      · rename_i hlt
        rw [← Option.some.inj hact]
        refine balanced_handler h ?_ hlt (fun err hmem => ?_) (fun hd hmem prompt' hprompt' => ?_)
        · have hcount := countP_replace hi Handler.isLocking (.locking req prompt numKeep)
          simp only [Handler.isLocking, if_true, Bool.false_eq_true, if_false] at hcount
          omega
        · rcases List.mem_or_eq_of_mem_set hmem with hold | heq
          · exact h.noError err hold
          · nomatch heq
        · rcases List.mem_or_eq_of_mem_set hmem with hold | rfl
          · exact h.prompts hd hold prompt' hprompt'
          · exact h.prompts _ (List.mem_of_getElem? hi) prompt' hprompt'
      · nomatch hact
    · nomatch hact
  | abort i =>
    unfold Serving.act at hact
    dsimp only at hact
    split at hact
    · rename_i req prompt numKeep hi
      rw [← Option.some.inj hact]
      refine balanced_handler h ?_ h.bound (fun err hmem => ?_) (fun hd hmem prompt' hprompt' => ?_)
      · exact congrArg (st.held + ·) (countP_replace hi Handler.isLocking .returned).symm
      · rcases List.mem_or_eq_of_mem_set hmem with hold | heq
        · exact h.noError err hold
        · nomatch heq
      · rcases List.mem_or_eq_of_mem_set hmem with hold | rfl
        · exact h.prompts hd hold prompt' hprompt'
        · nomatch hprompt'
    · nomatch hact
  | insert i =>
    unfold Serving.act at hact
    dsimp only at hact
    split at hact
    · rename_i req prompt numKeep _ hi
      obtain ⟨s', hinsert, hbalanced⟩ := insert_succeeds (K := K) h hi
      rw [hinsert] at hact
      exact Option.some.inj hact ▸ hbalanced
    · nomatch hact
  | lock env =>
    unfold Serving.act at hact
    dsimp only at hact
    split at hact
    · split at hact
      · rw [← Option.some.inj hact]
        exact ⟨h.matched, h.slots, h.places, h.held, h.bound, h.noError, h.prompts, h.policy, h.ctx⟩
      · nomatch hact
    · nomatch hact
  | turn => exact balanced_turn h hact

theorem balanced_reachable {st : Serving σ μ} (h : (serving K false).system.Reachable st) : Balanced st := by
  refine h.invariant (I := Balanced) (fun st hst => balanced_init hst) ?_
  rintro st st' hbalanced ⟨a, _, hact⟩
  exact balanced_act hbalanced hact

end BalancedAux

open BalancedAux in
/-- In every state of a server of a single user and its handlers, the slots in use are those of its sequences, no two
sequences have one slot, each has a permit, and no handler that had a permit has failed or can fail. -/
theorem slots_match_sequences {st : Serving σ μ} (h : (serving K false).system.Reachable st) :
    (∀ j, (∃ slot, st.server.cache.slots[j]? = some slot ∧ slot.inUse = true) ↔
      ∃ i seq, st.server.seq i = some seq ∧ seq.cache = j) ∧
    (∀ i i' seq seq', st.server.seq i = some seq → st.server.seq i' = some seq' → seq.cache = seq'.cache → i = i') ∧
    st.server.seqs.countP Option.isSome ≤ st.held ∧
    (∀ err, Handler.failed err ∉ st.handlers) ∧
    ∀ (i : Nat) req prompt numKeep, st.handlers[i]? = some (.locking req prompt numKeep) →
      ∃ s', st.server.insert K req prompt numKeep = some (s', none) := by
  have hbalanced := balanced_reachable h
  refine ⟨fun j => ?_, fun i i' seq seq' hs hs' heq => ?_, ?_, hbalanced.noError, fun i req prompt numKeep hi => ?_⟩
  · rw [← allocation_used, hbalanced.matched.used_iff, List.mem_iff_getElem?]
    exact exists_congr fun i => allocation_places
  · exact hbalanced.matched.distinct i i' seq'.cache (allocation_places.2 ⟨seq, hs, heq⟩)
      (allocation_places.2 ⟨seq', hs', rfl⟩)
  · rw [← allocation_live, hbalanced.held]
    exact Nat.le_add_right _ _
  · obtain ⟨s', hinsert, _⟩ := insert_succeeds (K := K) hbalanced hi
    exact ⟨s', hinsert⟩

/-- One place, two requests, and a token that ends every sequence: the second handler takes the permit of the first
sequence in the middle of a batch, and puts its own in place when the mutex is free. -/
theorem slots_match_sequences_two :
    ∃ (st : Serving (Nat → Int → Multiset (Int × Int)) Unit) (slot : InputCacheSlot Unit)
    (seq : Sequence Unit),
    (serving tokenRows false).system.Reachable st ∧ st.server.seq 0 = some seq ∧ seq.cache = 0 ∧
    st.server.cache.slots[0]? = some slot ∧ slot.inUse = true ∧ st.handlers.length = 2 ∧ st.held = 1 := by
  let st₀ : Serving (Nat → Int → Multiset (Int × Int)) Unit :=
    { server := { seqs := List.replicate 1 none, batchSize := 4, cache := ⟨8, List.replicate 1 {}, false,
      some (fun _ _ => 0)⟩ }
      parallel := 1 }
  let req : Request Unit := ⟨[{ token := 7 }, { token := 8 }], true, 0, -1, [], false, 1, 2⟩
  let env : Env := ⟨fun _ _ => some 9, fun _ => true, fun _ => some [], fun _ => true⟩
  let acts : List (ServingAct Unit) :=
    [.request req, .request req, .acquire 0, .insert 0, .lock env, .turn, .turn, .turn, .acquire 1, .turn, .insert 1]
  have h₀ : (serving tokenRows false).system.Reachable st₀ := by
    refine Lib.System.Reachable.init ⟨1, 4, 8, some (fun _ _ => 0), by decide, by decide, fun kv hkv seq p => ?_, rfl⟩
    rw [← Option.some.inj hkv]
    rfl
  have hrun : ((serving tokenRows false).run st₀ acts).map (fun st =>
      ((st.server.seq 0).map Sequence.cache, st.handlers.length, st.held)) = some (some 0, 2, 1) := by decide +kernel
  obtain ⟨st, hst, hout⟩ := Option.map_eq_some_iff.1 hrun
  rw [Prod.mk.injEq, Prod.mk.injEq, Option.map_eq_some_iff] at hout
  obtain ⟨⟨seq, hseq, hcache⟩, hhandlers, hheld⟩ := hout
  have hreach := Lib.Machine.reachable_run h₀ hst
  obtain ⟨slot, hslot, huse⟩ := ((slots_match_sequences hreach).1 0).2 ⟨0, seq, hseq, hcache⟩
  exact ⟨st, slot, seq, hreach, hseq, hcache, hslot, huse, hhandlers, hheld⟩

/-! ## Whole batches -/

/-- `completion` is the section of its handler, after `NewSequence`. -/
theorem completion_of_insert {req : Request μ} {s s' : Server σ μ} {prompt : List (Input μ)} {numKeep : Nat}
    {err : Option InsertErr} (hnew : newInputs s.cache.numCtx req.numKeep req.inputs = some (prompt, numKeep))
    (h : s.insert K req prompt numKeep = some (s', err)) : s.completion K req = some s' := by
  unfold Server.completion
  rw [hnew]
  unfold Server.insert at h
  dsimp only
  rcases hplace : s.seqs.findIdx? Option.isNone with _ | i
  · rw [hplace] at h
    rw [(Prod.mk.inj (Option.some.inj h)).1]
  · rw [hplace] at h
    obtain ⟨⟨c, out⟩, hload, heq⟩ := Option.map_eq_some_iff.1 h
    dsimp only
    rw [hload, Option.map_some]
    cases out with
    | none => exact congrArg some (Prod.mk.inj heq).1
    | some loaded => exact congrArg some (Prod.mk.inj heq).1

/-- What the rest of a batch that has begun makes of a server with `n` places. -/
def Section.rest (K : KvCache σ ρ μ) (n : Nat) (s : Server σ μ) : Section μ → Option (Server σ μ)
  | .free => some s
  | .gathering env todo options => (gatherAll K env todo s options).bind (fun out =>
      if out.2.rows.length = 0 then some out.1 else (out.1.forward K out.2.rows).bind (finishAll env (List.range n)))
  | .finishing env todo => finishAll env todo s

/-- A server on the way through a batch: requests and whole batches lead to what the rest of the batch makes of it.
The handlers that have not put their sequences in place have what `NewSequence` makes of their requests. -/
structure OnTheWay (K : KvCache σ ρ μ) (st : Serving σ μ) : Prop where
  rest : ∀ s', st.batch.rest K st.server.seqs.length st.server = some s' → (system K).Reachable s'
  pending : ∀ h ∈ st.handlers, ∀ req prompt numKeep, h = .acquiring req prompt numKeep ∨
    h = .locking req prompt numKeep →
    newInputs st.server.cache.numCtx req.numKeep req.inputs = some (prompt, numKeep)

namespace OnTheWayAux

theorem onTheWay_init {multiUserCache : Bool} {st : Serving σ μ} (h : (serving K multiUserCache).init st) :
    OnTheWay K st := by
  obtain ⟨parallel, batchSize, numCtx, cache, hctx, hsmall, hempty, rfl⟩ := h
  refine ⟨fun s' hs' => ?_, by simp⟩
  rw [← Option.some.inj hs']
  exact .init ⟨parallel, batchSize, numCtx, multiUserCache, cache, hctx, hsmall, hempty, rfl⟩

/-- A handler that has changed has the inputs it had. -/
theorem onTheWay_set {st : Serving σ μ} (h : OnTheWay K st) (i : Nat) (hd : Handler μ) (held : Nat)
    (hpending : ∀ req prompt numKeep, hd = .acquiring req prompt numKeep ∨ hd = .locking req prompt numKeep →
      newInputs st.server.cache.numCtx req.numKeep req.inputs = some (prompt, numKeep)) :
    OnTheWay K { st with handlers := st.handlers.set i hd, held := held } := by
  refine ⟨h.rest, fun hd' hmem => ?_⟩
  rcases List.mem_or_eq_of_mem_set hmem with hold | rfl
  · exact h.pending hd' hold
  · exact hpending

/-- A turn that leaves the same rest. -/
theorem onTheWay_turned {st st' : Serving σ μ} (h : OnTheWay K st) {s : Server σ μ} {batch : Section μ}
    (hshape : SameShape st.server s)
    (hrest : batch.rest K st.server.seqs.length s = st.batch.rest K st.server.seqs.length st.server)
    (ht : st.turned s batch = some st') : OnTheWay K st' := by
  unfold Serving.turned at ht
  dsimp only at ht
  split at ht
  · rw [← Option.some.inj ht]
    refine ⟨fun s' hs' => h.rest s' ?_, fun hd hmem => ?_⟩
    · rw [← hrest, ← hshape.seqs]
      exact hs'
    · show ∀ req prompt numKeep, _ → newInputs s.cache.numCtx _ _ = _
      rw [hshape.numCtx]
      exact h.pending hd hmem
  · nomatch ht

theorem onTheWay_turn {st st' : Serving σ μ} (h : OnTheWay K st) (hturn : st.turn K = some st') : OnTheWay K st' := by
  unfold Serving.turn at hturn
  split at hturn
  · nomatch hturn
  · rename_i env i todo options hbatch
    obtain ⟨⟨s, options'⟩, hg, hturned⟩ := Option.bind_eq_some_iff.1 hturn
    refine onTheWay_turned h (from_gatherSeq hg).1 ?_ hturned
    rw [hbatch]
    simp only [Section.rest, gatherAll, hg, Option.bind_some]
  · rename_i env options hbatch
    split at hturn
    · rename_i hrows
      rw [← Option.some.inj hturn]
      refine ⟨fun s' hs' => h.rest s' ?_, h.pending⟩
      rw [hbatch, Section.rest, gatherAll, Option.bind_some, if_pos hrows]
      exact hs'
    · rename_i hrows
      obtain ⟨s, hf, rfl⟩ := Option.map_eq_some_iff.1 hturn
      have hshape := (sameShape_forward hf).1
      refine ⟨fun s' hs' => h.rest s' ?_, fun hd hmem => ?_⟩
      · rw [hbatch, Section.rest, gatherAll, Option.bind_some, if_neg hrows, hf, Option.bind_some, ← hshape.seqs]
        exact hs'
      · show ∀ req prompt numKeep, _ → newInputs s.cache.numCtx _ _ = _
        rw [hshape.numCtx]
        exact h.pending hd hmem
  · rename_i env i todo hbatch
    obtain ⟨s, hf, hturned⟩ := Option.bind_eq_some_iff.1 hturn
    refine onTheWay_turned h (goesOn_finishSeq hf).1 ?_ hturned
    rw [hbatch]
    simp only [Section.rest, finishAll, hf, Option.bind_some]
  · rename_i env hbatch
    rw [← Option.some.inj hturn]
    refine ⟨fun s' hs' => h.rest s' ?_, h.pending⟩
    rw [hbatch]
    exact hs'

theorem onTheWay_act {st st' : Serving σ μ} (h : OnTheWay K st) {a : ServingAct μ} (hact : st.act K a = some st') :
    OnTheWay K st' := by
  unfold Serving.act at hact
  split at hact
  · rename_i req
    split at hact
    · rw [← Option.some.inj hact]
      refine ⟨h.rest, fun hd hmem req' prompt' numKeep' heq => ?_⟩
      rcases List.mem_append.1 hmem with hold | hnew
      · exact h.pending hd hold req' prompt' numKeep' heq
      · rw [List.mem_singleton.1 hnew] at heq
        rcases heq with heq | heq <;> nomatch heq
    · rename_i prompt numKeep hnew
      rw [← Option.some.inj hact]
      refine ⟨h.rest, fun hd hmem req' prompt' numKeep' heq => ?_⟩
      rcases List.mem_append.1 hmem with hold | hlast
      · exact h.pending hd hold req' prompt' numKeep' heq
      · rw [List.mem_singleton.1 hlast] at heq
        rcases heq with heq | heq
        · obtain ⟨rfl, rfl, rfl⟩ := Handler.acquiring.inj heq
          exact hnew
        · nomatch heq
  · split at hact
    · rename_i i _ req prompt numKeep hi
      split at hact
      · rw [← Option.some.inj hact]
        refine onTheWay_set h i _ _ (fun req' prompt' numKeep' heq => ?_)
        rcases heq with heq | heq
        · nomatch heq
        · obtain ⟨rfl, rfl, rfl⟩ := Handler.locking.inj heq
          exact h.pending _ (List.mem_of_getElem? hi) req prompt numKeep (.inl rfl)
      · nomatch hact
    · nomatch hact
  · split at hact
    · rename_i i _ req prompt numKeep hi
      rw [← Option.some.inj hact]
      refine onTheWay_set h i _ _ (fun req' prompt' numKeep' heq => ?_)
      rcases heq with heq | heq <;> nomatch heq
    · nomatch hact
  · split at hact
    · rename_i i _ _ req prompt numKeep hbatch hi
      obtain ⟨⟨s', err⟩, hinsert, rfl⟩ := Option.map_eq_some_iff.1 hact
      have hreach : (system K).Reachable st.server := h.rest _ (by rw [hbatch]; rfl)
      have hcompletion :=
        completion_of_insert (h.pending _ (List.mem_of_getElem? hi) req prompt numKeep (.inr rfl)) hinsert
      have hshape := (ready_completion (serverInv_reachable hreach) (ready_reachable hreach) hcompletion).1
      refine ⟨fun s'' hs'' => ?_, fun hd hmem req' prompt' numKeep' heq => ?_⟩
      · rw [hbatch] at hs''
        rw [← Option.some.inj hs'']
        exact hreach.step (.inl ⟨req, hcompletion⟩)
      · show newInputs s'.cache.numCtx _ _ = _
        rw [hshape.numCtx]
        rcases List.mem_or_eq_of_mem_set hmem with hold | rfl
        · exact h.pending hd hold req' prompt' numKeep' heq
        · cases err <;> rcases heq with heq | heq <;> nomatch heq
    · nomatch hact
  · split at hact
    · rename_i env _ hbatch
      split at hact
      · rw [← Option.some.inj hact]
        have hreach : (system K).Reachable st.server := h.rest _ (by rw [hbatch]; rfl)
        exact ⟨fun s' hs' => hreach.step (.inr ⟨env, hs'⟩), h.pending⟩
      · nomatch hact
    · nomatch hact
  · exact onTheWay_turn h hact

end OnTheWayAux

open OnTheWayAux in
/-- When the mutex is free, requests and whole batches lead to the server: what holds in every state of `system` holds
of it. -/
theorem reachable_server {multiUserCache : Bool} {st : Serving σ μ} (h : (serving K multiUserCache).system.Reachable st)
    (hfree : st.batch = .free) : (system K).Reachable st.server := by
  have hway : OnTheWay K st := by
    refine h.invariant (I := OnTheWay K) (fun st hst => onTheWay_init hst) ?_
    rintro st st' hway ⟨a, _, hact⟩
    exact onTheWay_act hway hact
  exact hway.rest st.server (by rw [hfree]; rfl)

end Ollama.Runner
