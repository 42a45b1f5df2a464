import Ollama.Sched.Scheduler

/-!
# The steps of the scheduler

One rule for each place a goroutine goes on from, in the order of the source. The names of the steps are the actions;
a run may be restricted to those steps whose action meets a condition on the state before it.
-/

namespace Ollama.Sched

open Lib

/-- The steps. -/
inductive Action where
  -- clients
  | getRunner (model : Model) (opts : RunnerOptions) (sessionDuration : Option Int)
  | cancel (q : Nat)
  | sendFinished (q : Nat)
  -- `processPending`
  | takePending
  | ignoreUnloaded
  | lookup (maxRunners : Nat)
  | needsReload (pingFails : Bool)
  | useLoadedRunner
  | handOver
  | modelError
  | serverError (numCtx : Int)
  | load (numCtx numParallel keepAlive : Int)
  | store
  | updateFreeSpace (numCtx : Int)
  | visit
  | freed
  | delay (numCtx : Int)
  | makeRoom (numCtx : Int)
  | choose
  | chooseNone
  | scan
  | expire
  | evict
  | seeUnloaded
  -- `processCompleted`
  | takeFinished
  | lookupFinished
  | finish
  | sendIdle
  | takeExpired
  | checkExpired
  | unload
  | sendUnloaded
  -- the goroutines of `load`
  | running (r : Nat)
  | handLoaded (r : Nat)
  | failed (r : Nat)
  | sendFailed (r : Nat)
  -- timers and delayed sends
  | fire (r : Nat)
  | callback (r : Nat)
  | sendCallback (r : Nat)
  | retry (r : Nat)
  | requeue (q : Nat)
  -- `expireRunner`
  | expireRunner (modelPath : Bytes)
  | expireLocked
  | sendExpire

/-- `GetRunner` makes a request and queues it, if the queue is not full. -/
def Scheduler.newRequest (s : Scheduler) (model : Model) (opts : RunnerOptions) (sessionDuration : Option Int) :
    LlmRequest where
  model := model
  opts := if opts.numCtx < 4 then { opts with numCtx := 4 } else opts
  sessionDuration := sessionDuration
  answers := if s.pendingReqCh.length < s.maxQueue ∨ (s.pendingReqCh.length = 0 ∧ s.pending = .idle) then []
    else [.maxQueue]

/-- A request as it is taken from the queue. -/
def LlmRequest.taken (req : LlmRequest) : LlmRequest :=
  { req with origNumCtx := if req.origNumCtx = 0 then req.opts.numCtx else req.origNumCtx }

/-- One step of some goroutine. -/
inductive Step (s : Scheduler) : Action → Scheduler → Prop where
  | getRunner (model : Model) (opts : RunnerOptions) (sessionDuration : Option Int) :
      Step s (.getRunner model opts sessionDuration)
        { s.setRequest s.nextRequest (s.newRequest model opts sessionDuration) with
          nextRequest := s.nextRequest + 1
          pendingReqCh := if (s.newRequest model opts sessionDuration).answers = []
            then s.pendingReqCh ++ [s.nextRequest]
            else s.pendingReqCh }
  | cancel {q : Nat} : q < s.nextRequest → Step s (.cancel q) (s.setRequest q { s.requests q with done := true })
  | sendFinished {q : Nat} : (s.requests q).finisher = true → (s.requests q).done = true →
      s.room s.finishedReqCh.length (s.completed = .idle) →
      Step s (.sendFinished q)
        { s.setRequest q { s.requests q with finisher := false } with finishedReqCh := s.finishedReqCh ++ [q] }
  -- `processPending`
  | takePending {q : Nat} {rest : List Nat} : s.pending = .idle → s.pendingReqCh = q :: rest →
      Step s .takePending
        { s.setRequest q (s.requests q).taken with
          pendingReqCh := rest, pending := if (s.requests q).done then .idle else .trying q }
  | ignoreUnloaded : s.pending = .idle → 0 < s.unloadedCh →
      Step s .ignoreUnloaded { s with unloadedCh := s.unloadedCh - 1 }
  | lookupFound {q r : Nat} (maxRunners : Nat) : s.pending = .trying q → s.loadedMu = none →
      s.loaded.lookup (s.path q) = some r → Step s (.lookup maxRunners) { s with pending := .reuse q r }
  | lookupFull {q maxRunners : Nat} : s.pending = .trying q → s.loadedMu = none → s.loaded.lookup (s.path q) = none →
      0 < maxRunners → maxRunners ≤ s.loaded.length → Step s (.lookup maxRunners) { s with pending := .choosing q }
  | lookupNone {q maxRunners : Nat} : s.pending = .trying q → s.loadedMu = none → s.loaded.lookup (s.path q) = none →
      ¬(0 < maxRunners ∧ maxRunners ≤ s.loaded.length) →
      Step s (.lookup maxRunners) { s with pending := .placing q s.loaded.length }
  | needsReload {q r : Nat} (pingFails : Bool) : s.pending = .reuse q r → s.free r →
      Step s (.needsReload pingFails)
        { s with pending := if (s.runners r).needsReload (s.requests q) pingFails then .expiring q r else .using q r }
  | useLoadedRunner {q r : Nat} : s.pending = .using q r → s.free r →
      Step s .useLoadedRunner
        { (s.setRunner r ((s.runners r).useLoadedRunner (s.requests q))).setRequest q { s.requests q with
          granted := some r } with
          pending := .handing q r }
  | handOver {q r : Nat} : s.pending = .handing q r →
      Step s .handOver
        { (s.setRunner r { s.runners r with refMu := none }).setRequest q
            { s.requests q with answers := (s.requests q).answers ++ [.runner r], finisher := true } with
          pending := .idle }
  | modelError {q n : Nat} : s.pending = .placing q n →
      Step s .modelError { s.answer q .modelError with pending := .idle }
  | serverError {q : Nat} (numCtx : Int) : (∃ n, s.pending = .placing q n) ∨ s.pending = .fitting q →
      Step s (.serverError numCtx) { (s.setNumCtx q numCtx).answer q .serverError with pending := .idle }
  | load {q : Nat} (numCtx numParallel keepAlive : Int) : (∃ n, s.pending = .placing q n) ∨ s.pending = .fitting q →
      Step s (.load numCtx numParallel keepAlive)
        { s.setNumCtx q numCtx with
          pending := .loading q (newRunner ((s.setNumCtx q numCtx).requests q) numParallel keepAlive) }
  | store {q : Nat} {x : RunnerRef} : s.pending = .loading q x → s.loadedMu = none →
      Step s .store
        { (s.setRunner s.nextRunner { x with refMu := some .loader, loader := .starting q }).setRequest q
            { s.requests q with granted := some s.nextRunner } with
          nextRunner := s.nextRunner + 1, loaded := Assoc.set s.loaded x.modelPath s.nextRunner, pending := .idle }
  | updateFreeSpace {q n : Nat} {rs : List Nat} (numCtx : Int) : s.pending = .placing q n → 0 < n → s.loadedMu = none →
      rs.Perm (s.loaded.map Prod.snd) →
      Step s (.updateFreeSpace numCtx) { s.setNumCtx q numCtx with loadedMu := some .pending, pending := .freeing q rs }
  | visit {q r : Nat} {rs : List Nat} : s.pending = .freeing q (r :: rs) → s.free r →
      Step s .visit { s with pending := .freeing q rs }
  | freed {q : Nat} : s.pending = .freeing q [] → Step s .freed { s with loadedMu := none, pending := .fitting q }
  | delay {q : Nat} (numCtx : Int) : s.pending = .fitting q →
      Step s (.delay numCtx) { s.setNumCtx q numCtx with requeues := q :: s.requeues, pending := .idle }
  | makeRoom {q : Nat} (numCtx : Int) : (∃ n, s.pending = .placing q n ∧ 0 < n) ∨ s.pending = .fitting q →
      Step s (.makeRoom numCtx) { s.setNumCtx q numCtx with pending := .choosing q }
  | choose {q r : Nat} {rs : List Nat} : s.pending = .choosing q → s.loadedMu = none →
      (r :: rs).Perm (s.loaded.map Prod.snd) → Step s .choose { s with pending := .scanning q r (r :: rs) }
  | chooseNone {q : Nat} : s.pending = .choosing q → s.loadedMu = none → s.loaded = [] →
      Step s .chooseNone { s with pending := .trying q }
  | scanIdle {q first r : Nat} {rs : List Nat} : s.pending = .scanning q first (r :: rs) → s.free r →
      (s.runners r).refCount = 0 → Step s .scan { s with pending := .expiring q r }
  | scanBusy {q first r : Nat} {rs : List Nat} : s.pending = .scanning q first (r :: rs) → s.free r →
      0 < (s.runners r).refCount → Step s .scan { s with pending := .scanning q first rs }
  | scanNone {q first : Nat} : s.pending = .scanning q first [] → Step s .scan { s with pending := .expiring q first }
  | expire {q r : Nat} : s.pending = .expiring q r → s.free r →
      Step s .expire
        { s.setRunner r
            { (s.runners r).expireNow with refMu := if (s.runners r).refCount = 0 then some .pending else none } with
          pending := if (s.runners r).refCount = 0 then .evicting q r else .waiting q }
  | evict {q r : Nat} : s.pending = .evicting q r → s.expiredRoom →
      Step s .evict
        { s.setRunner r { s.runners r with refMu := none } with expiredCh := s.expiredCh ++ [r], pending := .waiting q }
  | seeUnloaded {q : Nat} : s.pending = .waiting q → 0 < s.unloadedCh →
      Step s .seeUnloaded { s with unloadedCh := s.unloadedCh - 1, pending := .trying q }
  -- `processCompleted`
  | takeFinished {q : Nat} {rest : List Nat} : s.completed = .idle → s.finishedReqCh = q :: rest →
      Step s .takeFinished { s with finishedReqCh := rest, completed := .finished q }
  | lookupFinished {q r : Nat} : s.completed = .finished q → s.loadedMu = none → s.loaded.lookup (s.path q) = some r →
      Step s .lookupFinished { s with completed := .finishing q r }
  | lookupUnloaded {q : Nat} : s.completed = .finished q → s.loadedMu = none → s.loaded.lookup (s.path q) = none →
      Step s .lookupFinished { s.setRequest q { s.requests q with finished := true } with completed := .idle }
  | finish {q r : Nat} : s.completed = .finishing q r → s.free r →
      Step s .finish
        { (s.setRunner r (s.runners r).finish).setRequest q { s.requests q with finished := true } with
          completed := if (s.runners r).finish.refMu = none then .idle else .idling r }
  | sendIdle {r : Nat} : s.completed = .idling r → s.expiredRoom →
      Step s .sendIdle
        { s.setRunner r { s.runners r with refMu := none } with expiredCh := s.expiredCh ++ [r], completed := .idle }
  | takeExpired {r : Nat} {rest : List Nat} : s.completed = .idle → s.expiredCh = r :: rest →
      Step s .takeExpired { s with expiredCh := rest, completed := .expired r }
  | checkBusy {r : Nat} : s.completed = .expired r → s.free r → 0 < (s.runners r).refCount →
      Step s .checkExpired { s with retries := r :: s.retries, completed := .idle }
  | checkIdle {r : Nat} : s.completed = .expired r → s.free r → (s.runners r).refCount = 0 →
      Step s .checkExpired
        { s.setRunner r { s.runners r with refMu := some .completed } with completed := .unloading r }
  | unload {r : Nat} : s.completed = .unloading r → s.loadedMu = none →
      Step s .unload
        { s.setRunner r { (s.runners r).unload with refMu := none } with
          loaded := s.loaded.filter (fun e => e.1 ≠ (s.runners r).modelPath), completed := .unloaded }
  | sendUnloaded : s.completed = .unloaded →
      s.room s.unloadedCh (s.pending = .idle ∨ ∃ q, s.pending = .waiting q) →
      Step s .sendUnloaded { s with unloadedCh := s.unloadedCh + 1, completed := .idle }
  -- the goroutines of `load`
  | running {q r : Nat} : (s.runners r).loader = .starting q →
      Step s (.running r)
        ((s.setRunner r { s.runners r with loading := false, loader := .handing q }).setRequest q
          { s.requests q with finisher := true })
  | handLoaded {q r : Nat} : (s.runners r).loader = .handing q →
      Step s (.handLoaded r) ((s.setRunner r { s.runners r with refMu := none, loader := .gone }).answer q (.runner r))
  | failed {q r : Nat} : (s.runners r).loader = .starting q →
      Step s (.failed r)
        ((s.setRunner r { s.runners r with
          refCount := decrement (s.runners r).refCount, loader := .failing }).setRequest q
          { s.requests q with granted := none, answers := (s.requests q).answers ++ [.runningError] })
  | sendFailed {r : Nat} : (s.runners r).loader = .failing → s.expiredRoom →
      Step s (.sendFailed r)
        { s.setRunner r { s.runners r with refMu := none, loader := .gone } with expiredCh := s.expiredCh ++ [r] }
  -- timers and delayed sends
  | fire {r : Nat} : (s.runners r).expireTimer = some true →
      Step s (.fire r)
        (s.setRunner r
          { s.runners r with expireTimer := some false, callbacks := (s.runners r).callbacks + 1, kept := false })
  | callback {r : Nat} : 0 < (s.runners r).callbacks → s.free r →
      Step s (.callback r) (s.setRunner r { s.runners r with expireTimer := none, refMu := some .callback })
  | sendCallback {r : Nat} : (s.runners r).refMu = some .callback → s.expiredRoom →
      Step s (.sendCallback r)
        { s.setRunner r { s.runners r with refMu := none, callbacks := (s.runners r).callbacks - 1 } with
          expiredCh := s.expiredCh ++ [r] }
  | retry {r : Nat} : r ∈ s.retries → s.expiredRoom →
      Step s (.retry r) { s with retries := s.retries.erase r, expiredCh := s.expiredCh ++ [r] }
  | requeue {q : Nat} : q ∈ s.requeues → s.room s.pendingReqCh.length (s.pending = .idle) →
      Step s (.requeue q) { s with requeues := s.requeues.erase q, pendingReqCh := s.pendingReqCh ++ [q] }
  -- `expireRunner`
  | expireRunner {modelPath : Bytes} {r : Nat} : s.expirer = .gone → s.loadedMu = none →
      s.loaded.lookup modelPath = some r →
      Step s (.expireRunner modelPath) { s with loadedMu := some .expirer, expirer := .locking r }
  | expireIdle {r : Nat} : s.expirer = .locking r → s.free r → (s.runners r).refCount = 0 →
      Step s .expireLocked
        { s.setRunner r { (s.runners r).expireNow with refMu := some .expirer } with expirer := .sending r }
  | expireBusy {r : Nat} : s.expirer = .locking r → s.free r → 0 < (s.runners r).refCount →
      Step s .expireLocked { s.setRunner r (s.runners r).expireNow with loadedMu := none, expirer := .gone }
  | sendExpire {r : Nat} : s.expirer = .sending r → s.expiredRoom →
      Step s .sendExpire
        { s.setRunner r { s.runners r with refMu := none } with
          expiredCh := s.expiredCh ++ [r], loadedMu := none, expirer := .gone }

/-- The runs of the scheduler from its start, with any size of its queues, in which every action meets a condition on
the state it is taken in. -/
def scheduler (ok : Scheduler → Action → Prop) : System Scheduler where
  init s := ∃ maxQueue, s = { maxQueue }
  step s s' := ∃ a, ok s a ∧ Step s a s'

/-- The runs with any steps. -/
def anyStep (_ : Scheduler) (_ : Action) : Prop := True

end Ollama.Sched
