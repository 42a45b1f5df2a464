import Ollama.Sched.Lemmas.State

/-!
# What a step can do

`Handle` says once what a step can do to a request, and for each place of the two loops and of `expireRunner` a lemma
says what a step can have done that the goroutine stands there. The lemmas name the steps that matter; the others
leave the part as it is, or take it elsewhere. What is true in every run follows from these.
-/

namespace Ollama.Sched

open Lib

variable {s s' : Scheduler} {a : Action} {q r : Nat}

/-! ## Requests -/

/-- The request `processPending` has in hand. -/
def Pending.request : Pending → Option Nat
  | .idle => none
  | .trying q => some q
  | .reuse q _ => some q
  | .using q _ => some q
  | .handing q _ => some q
  | .placing q _ => some q
  | .freeing q _ => some q
  | .fitting q => some q
  | .loading q _ => some q
  | .choosing q => some q
  | .scanning q _ _ => some q
  | .expiring q _ => some q
  | .evicting q _ => some q
  | .waiting q => some q

/-- The context that the action gives to the request in hand. -/
def Action.numCtx : Action → Option Int
  | .serverError numCtx | .load numCtx _ _ | .updateFreeSpace numCtx | .delay numCtx | .makeRoom numCtx => some numCtx
  | _ => none

/-- Requests are made by their clients. -/
theorem step_nextRequest (hs : Step s a s') : s'.nextRequest = s.nextRequest ∨
    ∃ model opts sessionDuration, a = .getRunner model opts sessionDuration := by
  cases hs with
  | getRunner model opts sessionDuration => exact .inr ⟨model, opts, sessionDuration, rfl⟩
  | _ => exact .inl rfl

/-- A request that was made stays. -/
theorem step_made (hs : Step s a s') (hq : q < s.nextRequest) : q < s'.nextRequest := by
  cases hs with
  | getRunner _ _ _ => exact Nat.lt_succ_of_lt hq
  | _ => exact hq

/-- What a step can do to a request. -/
inductive Handle (s : Scheduler) (q : Nat) : Action → LlmRequest → Prop where
  | same {a : Action} : Handle s q a (s.requests q)
  | make (model : Model) (opts : RunnerOptions) (sessionDuration : Option Int) : q = s.nextRequest →
      Handle s q (.getRunner model opts sessionDuration) (s.newRequest model opts sessionDuration)
  | cancel : Handle s q (.cancel q) { s.requests q with done := true }
  | sendFinished : Handle s q (.sendFinished q) { s.requests q with finisher := false }
  | take : Handle s q .takePending (s.requests q).taken
  | grant {r : Nat} : s.pending = .using q r → Handle s q .useLoadedRunner { s.requests q with granted := some r }
  | handOver {r : Nat} : s.pending = .handing q r →
      Handle s q .handOver { s.requests q with answers := (s.requests q).answers ++ [.runner r], finisher := true }
  | answer {a : Action} (e : Answer) : Handle s q a { s.requests q with answers := (s.requests q).answers ++ [e] }
  | numCtx {a : Action} {n : Int} : s.pending.request = some q → a.numCtx = some n →
      Handle s q a { s.requests q with opts := { (s.requests q).opts with numCtx := n } }
  | serverError {n : Int} : s.pending.request = some q →
      Handle s q (.serverError n)
        { s.requests q with
          opts := { (s.requests q).opts with numCtx := n }, answers := (s.requests q).answers ++ [.serverError] }
  | store {x : RunnerRef} : s.pending = .loading q x →
      Handle s q .store { s.requests q with granted := some s.nextRunner }
  | finished {a : Action} : Handle s q a { s.requests q with finished := true }
  | running {r : Nat} : (s.runners r).loader = .starting q →
      Handle s q (.running r) { s.requests q with finisher := true }
  | failed {r : Nat} : (s.runners r).loader = .starting q →
      Handle s q (.failed r) { s.requests q with granted := none, answers := (s.requests q).answers ++ [.runningError] }

/-- A step changes one request at most. -/
theorem Handle.of_setRequest {q₀ : Nat} {y : LlmRequest} (hr : s'.requests = (s.setRequest q₀ y).requests)
    (hy : Handle s q₀ a y) (q : Nat) :
    Handle s q a (s'.requests q) := by
  rw [hr, Scheduler.setRequest_requests]
  split
  · rename_i heq
    rw [heq]
    exact hy
  · exact .same

theorem Step.handle (hs : Step s a s') : ∀ q, Handle s q a (s'.requests q) := by
  cases hs with
  | getRunner model opts d => exact .of_setRequest rfl (.make model opts d rfl)
  | cancel _ => exact .of_setRequest rfl .cancel
  | sendFinished _ _ _ => exact .of_setRequest rfl .sendFinished
  | takePending _ _ => exact .of_setRequest rfl .take
  | useLoadedRunner hp _ => exact .of_setRequest rfl (.grant hp)
  | handOver hp => exact .of_setRequest rfl (.handOver hp)
  | modelError _ => exact .of_setRequest rfl (.answer _)
  | @serverError q₀ n hp =>
    have hq : s.pending.request = some q₀ := by
      obtain ⟨_, hp⟩ | hp := hp
      · rw [hp]
        rfl
      · rw [hp]
        rfl
    intro q
    show Handle s q _ (((s.setNumCtx q₀ n).answer q₀ .serverError).requests q)
    rw [Scheduler.answer, Scheduler.setRequest_requests]
    split
    · rename_i heq
      rw [Scheduler.setNumCtx, Scheduler.setRequest_requests, if_pos rfl, heq]
      exact .serverError hq
    · rename_i hne
      rw [Scheduler.setNumCtx, Scheduler.setRequest_requests, if_neg hne]
      exact .same
  | load _ _ _ hp =>
    obtain ⟨_, hp⟩ | hp := hp
    · exact .of_setRequest rfl (.numCtx (congrArg Pending.request hp) rfl)
    · exact .of_setRequest rfl (.numCtx (congrArg Pending.request hp) rfl)
  | makeRoom _ hp =>
    obtain ⟨_, hp, _⟩ | hp := hp
    · exact .of_setRequest rfl (.numCtx (congrArg Pending.request hp) rfl)
    · exact .of_setRequest rfl (.numCtx (congrArg Pending.request hp) rfl)
  | updateFreeSpace _ hp _ _ _ | delay _ hp => exact .of_setRequest rfl (.numCtx (congrArg Pending.request hp) rfl)
  | store hp _ => exact .of_setRequest rfl (.store hp)
  | lookupUnloaded _ _ _ | finish _ _ => exact .of_setRequest rfl .finished
  | running hl => exact .of_setRequest rfl (.running hl)
  | handLoaded _ => exact .of_setRequest rfl (.answer _)
  | failed hl => exact .of_setRequest rfl (.failed hl)
  | _ => exact fun _ => .same

/-- What no step changes of a request that was made is the same after every step. -/
theorem step_request_same {β : Type*} (f : LlmRequest → β)
    (hf : ∀ req done finisher origNumCtx answers granted finished,
      f ⟨req.model, req.opts, origNumCtx, req.sessionDuration, done, finisher,
      answers, granted, finished⟩ = f req)
    (hctx : ∀ (req : LlmRequest) numCtx, f { req with opts := { req.opts with numCtx } } = f req) (hs : Step s a s')
    (hq : q < s.nextRequest) :
    f (s'.requests q) = f (s.requests q) := by
  have hh := hs.handle q
  generalize s'.requests q = y at hh ⊢
  cases hh with
  | same => rfl
  | make _ _ _ hnew => exact absurd hnew (Nat.ne_of_lt hq)
  | numCtx _ _ => exact hctx _ _
  | @serverError n _ =>
    exact (hf { s.requests q with opts := { (s.requests q).opts with numCtx := n } } _ _ _ _ _ _).trans
      (hctx (s.requests q) n)
  | _ => exact hf _ _ _ _ _ _ _

/-- A request keeps its model, and its options but for the context. -/
theorem step_request (hs : Step s a s') (hq : q < s.nextRequest) : (s'.requests q).model = (s.requests q).model ∧
    { (s'.requests q).opts with numCtx := 0 } = { (s.requests q).opts with numCtx := 0 } :=
  ⟨step_request_same LlmRequest.model (fun _ _ _ _ _ _ _ => rfl) (fun _ _ => rfl) hs hq,
    step_request_same (fun req => { req.opts with numCtx := 0 }) (fun _ _ _ _ _ _ _ => rfl) (fun _ _ => rfl) hs hq⟩

/-- A request keeps its path. -/
theorem step_path (hs : Step s a s') (hq : q < s.nextRequest) : s'.path q = s.path q :=
  congrArg Model.modelPath (step_request hs hq).1

/-- Only the request in hand gets another context. -/
theorem step_numCtx (hs : Step s a s') (hq : q < s.nextRequest) :
    (s'.requests q).opts.numCtx = (s.requests q).opts.numCtx ∨
    (s.pending.request = some q ∧ a.numCtx = some (s'.requests q).opts.numCtx) := by
  have hh := hs.handle q
  generalize s'.requests q = y at hh ⊢
  cases hh with
  | make _ _ _ hnew => exact absurd hnew (Nat.ne_of_lt hq)
  | numCtx hhand hn => exact .inr ⟨hhand, hn⟩
  | serverError hhand => exact .inr ⟨hhand, rfl⟩
  | _ => exact .inl rfl

/-- It gets that of the action. -/
theorem step_hand_numCtx (hs : Step s a s') (hq : s.pending.request = some q) {n : Int} (hn : a.numCtx = some n) :
    (s'.requests q).opts.numCtx = n := by
  have hset : ∀ {p q₀}, s.pending = p → p.request = some q₀ → ((s.setNumCtx q₀ n).requests q).opts.numCtx = n := by
    rintro p q₀ rfl hhand
    rw [Scheduler.setNumCtx, Scheduler.setRequest_requests, if_pos (Option.some.inj (hq.symm.trans hhand))]
  cases hs with
  | load _ _ _ hp =>
    obtain rfl := Option.some.inj hn
    obtain ⟨_, hp⟩ | hp := hp
    · exact hset hp rfl
    · exact hset hp rfl
  | @serverError q₀ _ hp =>
    obtain rfl := Option.some.inj hn
    refine Eq.trans (Scheduler.setRequest_same (fun req => req.opts.numCtx) (s.setNumCtx q₀ _) ?_ q) ?_
    · rfl
    · obtain ⟨_, hp⟩ | hp := hp
      · exact hset hp rfl
      · exact hset hp rfl
  | makeRoom _ hp =>
    obtain rfl := Option.some.inj hn
    obtain ⟨_, hp, _⟩ | hp := hp
    · exact hset hp rfl
    · exact hset hp rfl
  | updateFreeSpace _ hp _ _ _ | delay _ hp =>
    obtain rfl := Option.some.inj hn
    exact hset hp rfl
  | _ => cases hn

/-- The first context of a request is written down as the request is taken from the queue. -/
theorem step_origNumCtx (hs : Step s a s') (hq : q < s.nextRequest) :
    (s'.requests q).origNumCtx = (s.requests q).origNumCtx ∨
    (a = .takePending ∧ (s'.requests q).origNumCtx = (s.requests q).taken.origNumCtx) := by
  have hh := hs.handle q
  generalize s'.requests q = y at hh ⊢
  cases hh with
  | make _ _ _ hnew => exact absurd hnew (Nat.ne_of_lt hq)
  | take => exact .inr ⟨rfl, rfl⟩
  | _ => exact .inl rfl

/-- The request in hand was there before, or is taken from the queue. -/
theorem step_hand (hs : Step s a s') (hq : s'.pending.request = some q) : s.pending.request = some q ∨
    (a = .takePending ∧ s.pendingReqCh.head? = some q ∧ s'.requests q = (s.requests q).taken) := by
  have hkept : ∀ {p}, s.pending = p → p.request = some q → s.pending.request = some q := by
    rintro p rfl hp
    exact hp
  cases hs with
  | @takePending q₀ rest _ hch =>
    dsimp only at hq
    split at hq
    · cases hq
    · obtain rfl := Option.some.inj hq
      exact .inr ⟨rfl, by rw [hch]; rfl, if_pos rfl⟩
  | needsReload _ hp _ | expire hp _ =>
    dsimp only at hq
    split at hq
    · exact .inl (hkept hp hq)
    · exact .inl (hkept hp hq)
  | lookupFound _ hp _ _ | lookupFull hp _ _ _ _ | lookupNone hp _ _ _ | useLoadedRunner hp _
  | updateFreeSpace _ hp _ _ _ | visit hp _
  | freed hp | choose hp _ _ | chooseNone hp _ _ | scanIdle hp _ _ | scanBusy hp _ _ | scanNone hp | evict hp _
  | seeUnloaded hp _ =>
    exact .inl (hkept hp hq)
  | load _ _ _ hp =>
    obtain ⟨_, hp⟩ | hp := hp
    · exact .inl (hkept hp hq)
    · exact .inl (hkept hp hq)
  | makeRoom _ hp =>
    obtain ⟨_, hp, _⟩ | hp := hp
    · exact .inl (hkept hp hq)
    · exact .inl (hkept hp hq)
  | _ => first | exact .inl hq | cases hq

/-- A request that waits was there before, or is made, or is delayed. -/
theorem step_queued (hs : Step s a s') (hq : q ∈ s'.pendingReqCh ∨ q ∈ s'.requeues) :
    q ∈ s.pendingReqCh ∨ q ∈ s.requeues ∨
    q = s.nextRequest ∨ (s.pending = .fitting q ∧ ∃ numCtx, a = .delay numCtx) := by
  cases hs with
  | getRunner _ _ _ =>
    obtain hq | hq := hq
    · dsimp only at hq
      split at hq
      · obtain hold | hnew := List.mem_append.1 hq
        · exact .inl hold
        · exact .inr (.inr (.inl (List.mem_singleton.1 hnew)))
      · exact .inl hq
    · exact .inr (.inl hq)
  | takePending _ hch =>
    rw [hch]
    exact hq.elim (fun hq => .inl (List.mem_cons_of_mem _ hq)) (fun hq => .inr (.inl hq))
  | delay n hp =>
    obtain hq | hq := hq
    · exact .inl hq
    · obtain rfl | hold := List.mem_cons.1 hq
      · exact .inr (.inr (.inr ⟨hp, n, rfl⟩))
      · exact .inr (.inl hold)
  | requeue hmem _ =>
    obtain hq | hq := hq
    · obtain hold | hnew := List.mem_append.1 hq
      · exact .inl hold
      · exact .inr (.inl (List.mem_singleton.1 hnew ▸ hmem))
    · exact .inr (.inl (List.mem_of_mem_erase hq))
  | _ => exact hq.elim .inl (fun hq => .inr (.inl hq))

/-! ## Where `processPending` stands -/

/-- The request that a place is looked for, while no runner is loaded for its model. -/
def Pending.placed : Pending → Option Nat
  | .placing q _ => some q
  | .freeing q _ => some q
  | .fitting q => some q
  | _ => none

theorem Pending.request_of_placed {p : Pending} (h : p.placed = some q) : p.request = some q := by
  cases p with
  | placing _ _ | freeing _ _ | fitting _ => exact h
  | _ => cases h

/-- A place is looked for a request that no runner is loaded for. -/
theorem step_placed (hs : Step s a s') (hq : s'.pending.placed = some q) :
    s.pending.placed = some q ∨ (s.pending = .trying q ∧ s.loaded.lookup (s.path q) = none) := by
  have hkept : ∀ {p}, s.pending = p → p.placed = some q → s.pending.placed = some q := by
    rintro p rfl hp
    exact hp
  cases hs with
  | takePending _ _ | needsReload _ _ _ | expire _ _ =>
    dsimp only at hq
    split at hq
    · cases hq
    · cases hq
  | lookupNone hp _ hnone _ =>
    obtain rfl := Option.some.inj hq
    exact .inr ⟨hp, hnone⟩
  | updateFreeSpace _ hp _ _ _ | visit hp _ | freed hp => exact .inl (hkept hp hq)
  | _ => first | exact .inl hq | cases hq

/-- Only the request that a place is looked for gets another context. -/
theorem placed_of_numCtx (hs : Step s a s') (hq : s.pending.request = some q) {n : Int} (hn : a.numCtx = some n) :
    s.pending.placed = some q := by
  cases hs with
  | serverError _ hp | load _ _ _ hp =>
    obtain ⟨_, hp⟩ | hp := hp
    · rw [hp] at hq ⊢
      exact hq
    · rw [hp] at hq ⊢
      exact hq
  | makeRoom _ hp =>
    obtain ⟨_, hp, _⟩ | hp := hp
    · rw [hp] at hq ⊢
      exact hq
    · rw [hp] at hq ⊢
      exact hq
  | updateFreeSpace _ hp _ _ _ | delay _ hp =>
    rw [hp] at hq ⊢
    exact hq
  | _ => cases hn

/-- A runner is reused that is loaded. -/
theorem step_reuse (hs : Step s a s') (hp : s'.pending = .reuse q r) :
    s.pending = .reuse q r ∨ (s.pending = .trying q ∧ s.loaded.lookup (s.path q) = some r) := by
  cases hs with
  | takePending _ _ | needsReload _ _ _ | expire _ _ =>
    dsimp only at hp
    split at hp
    · cases hp
    · cases hp
  | lookupFound _ htrying _ hlook =>
    cases hp
    exact .inr ⟨htrying, hlook⟩
  | _ => first | exact .inl hp | cases hp

/-- A runner is used that needs no reload. -/
theorem step_using (hs : Step s a s') (hp : s'.pending = .using q r) : s.pending = .using q r ∨
    (s.pending = .reuse q r ∧ s.free r ∧ ∃ pingFails, a = .needsReload pingFails ∧
      (s.runners r).needsReload (s.requests q) pingFails = false) := by
  cases hs with
  | takePending _ _ | expire _ _ =>
    dsimp only at hp
    split at hp
    · cases hp
    · cases hp
  | needsReload pingFails hreuse hfree =>
    dsimp only at hp
    split at hp
    · cases hp
    · rename_i hneeds
      cases hp
      exact .inr ⟨hreuse, hfree, pingFails, rfl, Bool.eq_false_iff.2 hneeds⟩
  | _ => first | exact .inl hp | cases hp

/-- A runner that is to be stored is made of the request. -/
theorem step_loading {x : RunnerRef} (hs : Step s a s') (hp : s'.pending = .loading q x) : s.pending = .loading q x ∨
    ∃ numCtx numParallel keepAlive, a = .load numCtx numParallel keepAlive ∧
      ((∃ n, s.pending = .placing q n) ∨ s.pending = .fitting q) ∧
      x = newRunner (s'.requests q) numParallel keepAlive := by
  cases hs with
  | takePending _ _ | needsReload _ _ _ | expire _ _ =>
    dsimp only at hp
    split at hp
    · cases hp
    · cases hp
  | load numCtx numParallel keepAlive hplaced =>
    obtain ⟨rfl, rfl⟩ := Pending.loading.inj hp
    exact .inr ⟨numCtx, numParallel, keepAlive, rfl, hplaced, rfl⟩
  | _ => first | exact .inl hp | cases hp

/-- An expired event of a runner is sent after the runner is expired. -/
theorem step_evicting (hs : Step s a s') (hp : s'.pending = .evicting q r) : s.pending = .evicting q r ∨
    (a = .expire ∧ s.pending = .expiring q r ∧ ∃ m, s'.runners r = { (s.runners r).expireNow with refMu := m }) := by
  cases hs with
  | takePending _ _ | needsReload _ _ _ =>
    dsimp only at hp
    split at hp
    · cases hp
    · cases hp
  | expire hexpiring _ =>
    dsimp only at hp
    split at hp
    · cases hp
      exact .inr ⟨rfl, hexpiring, _, if_pos rfl⟩
    · cases hp
  | _ => first | exact .inl hp | cases hp

/-! ## Where `processCompleted` and `expireRunner` stand -/

/-- A finished request finds the runner that is loaded for its path. -/
theorem step_finishing (hs : Step s a s') (hc : s'.completed = .finishing q r) : s.completed = .finishing q r ∨
    (s.completed = .finished q ∧ a = .lookupFinished ∧ s.loaded.lookup (s.path q) = some r) := by
  cases hs with
  | lookupFinished hfinished _ hlook =>
    cases hc
    exact .inr ⟨hfinished, rfl, hlook⟩
  | finish _ _ =>
    dsimp only at hc
    split at hc
    · cases hc
    · cases hc
  | _ => first | exact .inl hc | cases hc

/-- A runner goes idle as a request of it is finished. -/
theorem step_idling (hs : Step s a s') (hc : s'.completed = .idling r) : s.completed = .idling r ∨
    (∃ q, a = .finish ∧ s.completed = .finishing q r ∧ s.free r ∧ s'.runners r = (s.runners r).finish ∧
      (s.runners r).finish.refMu ≠ none) := by
  cases hs with
  | @finish q _ hfinishing hfree =>
    dsimp only at hc
    split at hc
    · cases hc
    · rename_i hmu
      cases hc
      exact .inr ⟨q, rfl, hfinishing, hfree, if_pos rfl, hmu⟩
  | _ => first | exact .inl hc | cases hc

/-- A runner is unloaded that was expired and is idle. -/
theorem step_unloading (hs : Step s a s') (hc : s'.completed = .unloading r) : s.completed = .unloading r ∨
    (a = .checkExpired ∧ s.completed = .expired r ∧ (s.runners r).refCount = 0) := by
  cases hs with
  | finish _ _ =>
    dsimp only at hc
    split at hc
    · cases hc
    · cases hc
  | checkIdle hexpired _ hzero =>
    cases hc
    exact .inr ⟨rfl, hexpired, hzero⟩
  | _ => first | exact .inl hc | cases hc

/-- `expireRunner` wants the lock of a runner that is loaded. -/
theorem step_locking (hs : Step s a s') (he : s'.expirer = .locking r) : s.expirer = .locking r ∨
    ∃ p, a = .expireRunner p ∧ s.loaded.lookup p = some r := by
  cases hs with
  | @expireRunner p _ _ _ hlook =>
    cases he
    exact .inr ⟨p, rfl, hlook⟩
  | _ => first | exact .inl he | cases he

/-- It sends the expired event of that runner. -/
theorem step_sending (hs : Step s a s') (he : s'.expirer = .sending r) : s.expirer = .sending r ∨
    (a = .expireLocked ∧ s.expirer = .locking r ∧ s'.runners r =
      { (s.runners r).expireNow with refMu := some .expirer }) := by
  cases hs with
  | expireIdle hlocking _ _ =>
    cases he
    exact .inr ⟨rfl, hlocking, if_pos rfl⟩
  | _ => first | exact .inl he | cases he

end Ollama.Sched
