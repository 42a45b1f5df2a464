import Ollama.Lib.Assoc
import Ollama.Lib.System
import Ollama.Lib.Utf8

/-!
# The scheduler

`server/sched.go`: two loops, `processPending` and `processCompleted`, share the loaded runners with the goroutines
that load a model, the timers that expire a runner, and the calls of `expireRunner`. A loop is where it stands in its
code: at a lock it wants, at a channel it sends to, or between two sections. A step runs one goroutine to the next
such place, so a section that waits for nothing while it holds a lock is one step, and one that does wait is in as
many steps as it has places to wait.

What decides between loading and making room (memory, models that do not parse, servers that do not start) comes from
outside, as does when a client goes, a timer fires or a server runs. A channel has room for `maxQueue` values; one
without a buffer takes a value while its receiver waits for it. What no goroutine reads is marked as such: the answers
of a request, the runner it was granted and whether its finished event was handled, and whether a runner is kept.
-/

namespace Ollama.Sched

open Lib

/-! ## Requests and runners -/

/-- `Model`, as far as the scheduler reads it. -/
structure Model where
  modelPath : Bytes
  adapterPaths : List Bytes := []
  projectorPaths : List Bytes := []
  deriving DecidableEq

/-- `api.Runner`. -/
structure RunnerOptions where
  numCtx : Int := 0
  numBatch : Int := 0
  numGPU : Int := 0
  mainGPU : Int := 0
  lowVRAM : Bool := false
  f16KV : Bool := false
  logitsAll : Bool := false
  vocabOnly : Bool := false
  useMMap : Option Bool := none
  useMLock : Bool := false
  numThread : Int := 0
  deriving DecidableEq

/-- What a request is answered with. -/
inductive Answer where
  /-- A runner, on `successCh`. -/
  | runner (r : Nat)
  /-- `ErrMaxQueue`. -/
  | maxQueue
  /-- The error of `llm.LoadModel`. -/
  | modelError
  /-- The error of `newServerFn`. -/
  | serverError
  /-- The error of `WaitUntilRunning`. -/
  | runningError
  deriving DecidableEq

/-- `LlmRequest`. -/
structure LlmRequest where
  model : Model
  opts : RunnerOptions
  origNumCtx : Int := 0
  sessionDuration : Option Int
  /-- Whether the context is done. -/
  done : Bool := false
  /-- Whether a goroutine waits for the context, to send the finished event. -/
  finisher : Bool := false
  /-- Not read: what the client got. -/
  answers : List Answer := []
  /-- Not read: the runner that was granted, or that is loaded for the request. -/
  granted : Option Nat := none
  /-- Not read: whether the finished event was handled. -/
  finished : Bool := false
  deriving DecidableEq

/-- Who holds a lock. -/
inductive Holder where
  | pending | completed | loader | callback | expirer
  deriving DecidableEq

/-- The goroutine of `load`, which holds the lock of its runner. -/
inductive Loader where
  | gone
  /-- In `WaitUntilRunning`. -/
  | starting (q : Nat)
  /-- Sends the runner to the client. -/
  | handing (q : Nat)
  /-- Sends the expired event of a load that failed. -/
  | failing
  deriving DecidableEq

/-- `runnerRef`. A server that is closed is set to nil. -/
structure RunnerRef where
  model : Option Model := none
  modelPath : Bytes := []
  /-- Whether there is a server, which is then open. -/
  llama : Bool := false
  options : Option RunnerOptions := none
  numParallel : Int := 1
  loading : Bool := false
  refCount : Nat := 0
  sessionDuration : Int := 0
  /-- The timer, and whether it has yet to fire. -/
  expireTimer : Option Bool := none
  refMu : Option Holder := none
  loader : Loader := .gone
  /-- The timer callbacks that have not sent their event. -/
  callbacks : Nat := 0
  /-- Not read: whether the runner has gone idle with a duration to stay, and nothing was done to it since. -/
  kept : Bool := false
  deriving DecidableEq

/-- `needsReload`, with what `Ping` returns. -/
def RunnerRef.needsReload (runner : RunnerRef) (req : LlmRequest) (pingFails : Bool) : Bool :=
  match runner.options, runner.model with
  | some existing, some model =>
    let numGPU := if req.opts.numGPU < 0 then -1 else existing.numGPU
    let optsExisting := { existing with numGPU := numGPU, numCtx := existing.numCtx.tdiv runner.numParallel }
    let optsNew := if req.opts.numGPU < 0 then { req.opts with numGPU := -1 } else req.opts
    model.adapterPaths ≠ req.model.adapterPaths || model.projectorPaths ≠ req.model.projectorPaths ||
      optsExisting ≠ optsNew || pingFails
  | _, _ => true

/-- `useLoadedRunner`, up to where the runner is sent. -/
def RunnerRef.useLoadedRunner (runner : RunnerRef) (req : LlmRequest) : RunnerRef :=
  { runner with
    refCount := runner.refCount + 1
    expireTimer := none
    sessionDuration := req.sessionDuration.getD runner.sessionDuration
    refMu := some .pending
    kept := false }

/-- `runner.refCount--` of an unsigned number. -/
def decrement (n : Nat) : Nat := if n = 0 then 2 ^ 64 - 1 else n - 1

/-- What the finished event of a request does to its runner. The expired event of one that is not to stay is sent with
the lock. -/
def RunnerRef.finish (runner : RunnerRef) : RunnerRef :=
  let refCount := decrement runner.refCount
  if refCount > 0 then { runner with refCount, kept := false }
  else if runner.sessionDuration ≤ 0
    then { runner with refCount, expireTimer := none, refMu := some .completed, kept := false }
  else { runner with refCount, expireTimer := some true, kept := true }

/-- What `processPending` and `expireRunner` do to a runner that is to go. -/
def RunnerRef.expireNow (runner : RunnerRef) : RunnerRef :=
  { runner with expireTimer := none, sessionDuration := 0, kept := false }

/-- `unload`. -/
def RunnerRef.unload (runner : RunnerRef) : RunnerRef :=
  { runner with expireTimer := none, llama := false, model := none, options := none, kept := false }

/-- The runner `load` makes. -/
def newRunner (req : LlmRequest) (numParallel keepAlive : Int) : RunnerRef where
  model := some req.model
  modelPath := req.model.modelPath
  llama := true
  options := some req.opts
  numParallel := if numParallel < 1 then 1 else numParallel
  loading := true
  refCount := 1
  sessionDuration := req.sessionDuration.getD keepAlive

/-! ## Goroutines -/

/-- Where `processPending` stands. -/
inductive Pending where
  | idle
  /-- At the top of the inner loop, with a request. -/
  | trying (q : Nat)
  /-- Before `needsReload`. -/
  | reuse (q r : Nat)
  /-- Before `useLoadedRunner`. -/
  | using (q r : Nat)
  /-- In `useLoadedRunner`, sending the runner to the client. -/
  | handing (q r : Nat)
  /-- No runner was found for the model, and so many were loaded. -/
  | placing (q loadedCount : Nat)
  /-- In `updateFreeSpace`, with the lock on the loaded runners and these runners still to visit. -/
  | freeing (q : Nat) (rs : List Nat)
  /-- After `updateFreeSpace`. -/
  | fitting (q : Nat)
  /-- In `load`, with a runner that is yet to be stored. -/
  | loading (q : Nat) (runner : RunnerRef)
  /-- Before `findRunnerToUnload`. -/
  | choosing (q : Nat)
  /-- In `findRunnerToUnload`, with the first of the sorted runners and those still to look at. -/
  | scanning (q first : Nat) (rs : List Nat)
  /-- Before the section that expires a runner. -/
  | expiring (q r : Nat)
  /-- In that section, sending the expired event. -/
  | evicting (q r : Nat)
  /-- Waits for an unload. -/
  | waiting (q : Nat)
  deriving DecidableEq

/-- Where `processCompleted` stands. -/
inductive Completed where
  | idle
  /-- With a finished request, before its runner is looked up. -/
  | finished (q : Nat)
  /-- Before the section of the runner of a finished request. -/
  | finishing (q r : Nat)
  /-- In that section, sending the expired event. -/
  | idling (r : Nat)
  /-- With an expired event, before the section of its runner. -/
  | expired (r : Nat)
  /-- In that section, before the lock on the loaded runners. -/
  | unloading (r : Nat)
  /-- Sends the unloaded event. -/
  | unloaded
  deriving DecidableEq

/-- Where the call of `expireRunner` that holds the lock on the loaded runners stands. -/
inductive Expirer where
  | gone
  /-- Before the section of the runner. -/
  | locking (r : Nat)
  /-- In that section, sending the expired event. -/
  | sending (r : Nat)
  deriving DecidableEq

/-- `Scheduler`, with its goroutines. -/
structure Scheduler where
  maxQueue : Nat
  pendingReqCh : List Nat := []
  finishedReqCh : List Nat := []
  expiredCh : List Nat := []
  unloadedCh : Nat := 0
  loaded : List (Bytes × Nat) := []
  loadedMu : Option Holder := none
  runners : Nat → RunnerRef := fun _ => {}
  nextRunner : Nat := 0
  requests : Nat → LlmRequest := fun _ => ⟨⟨[], [], []⟩, {}, 0, none, false, false, [], none, false⟩
  nextRequest : Nat := 0
  pending : Pending := .idle
  completed : Completed := .idle
  expirer : Expirer := .gone
  /-- The runners whose expired event is sent again after a while. -/
  retries : List Nat := []
  /-- The requests that are queued again after a while. -/
  requeues : List Nat := []

namespace Scheduler

/-- The state with another runner. -/
def setRunner (s : Scheduler) (r : Nat) (x : RunnerRef) : Scheduler :=
  { s with runners := fun r' => if r' = r then x else s.runners r' }

/-- The state with another request. -/
def setRequest (s : Scheduler) (q : Nat) (x : LlmRequest) : Scheduler :=
  { s with requests := fun q' => if q' = q then x else s.requests q' }

/-- A request is answered. -/
def answer (s : Scheduler) (q : Nat) (a : Answer) : Scheduler :=
  s.setRequest q { s.requests q with answers := (s.requests q).answers ++ [a] }

/-- The request has another number of tokens of context. -/
def setNumCtx (s : Scheduler) (q : Nat) (numCtx : Int) : Scheduler :=
  s.setRequest q { s.requests q with opts := { (s.requests q).opts with numCtx } }

/-- The path of the model of a request. -/
def path (s : Scheduler) (q : Nat) : Bytes := (s.requests q).model.modelPath

/-- Whether the lock of a runner is free. -/
def free (s : Scheduler) (r : Nat) : Prop := (s.runners r).refMu = none

/-- Whether a channel with `n` values takes one more. -/
def room (s : Scheduler) (n : Nat) (ready : Prop) : Prop := n < s.maxQueue ∨ (n = 0 ∧ ready)

/-- Whether `expiredCh` takes one more. -/
def expiredRoom (s : Scheduler) : Prop := s.room s.expiredCh.length (s.completed = .idle)

end Scheduler

end Ollama.Sched
