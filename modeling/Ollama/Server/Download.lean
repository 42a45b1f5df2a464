import Ollama.Lib.System
import Mathlib.Logic.Function.Basic

/-!
# Shared downloads

`server/download.go`: calls of `downloadBlob` for one digest share a `blobDownload`, which the first of them stores in
the `blobDownloadManager`, prepares and hands to a goroutine that runs `Run`. All calls, the first among them, then
`Wait`: they count themselves in, and the last one to leave cancels the goroutine.

A call is between two of its steps at all times, and so is the goroutine of a download. What the file system, the
registry and the `select` of `Wait` decide is the answer that is given with a step. The context of a call may be
cancelled at any time; `Run` has a context of its own, which only the `CancelFunc` of the download cancels.
-/

namespace Ollama.Server

open Lib

/-- The errors that are told apart. -/
inductive DownloadErr where
  /-- `context.Canceled` -/
  | canceled
  | other
  deriving DecidableEq

/-- Where the goroutine of `Run` stands. -/
inductive Worker where
  /-- before `context.WithCancel` -/
  | start
  /-- in `run` -/
  | running
  /-- `run` returns `err`: before the deferred `blobDownloadManager.Delete` -/
  | delete (err : Option DownloadErr)
  /-- before `b.err = err` -/
  | setErr (err : Option DownloadErr)
  /-- before the deferred `close(b.done)` -/
  | close
  | over
  | panicked
  deriving DecidableEq

/-- `blobDownload`. -/
structure Download where
  /-- the channel `done`: nil, open, or closed -/
  done : Option Bool := none
  err : Option DownloadErr := none
  references : Int := 0
  /-- the `CancelFunc` is set -/
  cancelFunc : Bool := false
  /-- the `CancelFunc` has been called -/
  cancelled : Bool := false
  /-- the goroutine, once it is started -/
  worker : Option Worker := none

/-- Where a call of `downloadBlob` stands. -/
inductive CallState where
  /-- before `os.Stat` -/
  | stat
  /-- before `blobDownloadManager.LoadOrStore` -/
  | loadOrStore
  /-- in `Prepare`, before the channel is made -/
  | glob (o : Nat)
  /-- in `Prepare`, after that -/
  | prepare (o : Nat)
  /-- `Prepare` has failed: before `blobDownloadManager.Delete` -/
  | delete (o : Nat) (err : DownloadErr)
  /-- before `go download.Run` -/
  | go (o : Nat)
  /-- before `acquire` -/
  | acquire (o : Nat)
  /-- in the loop of `Wait` -/
  | wait (o : Nat)
  /-- before `references.Add(-1)` in `release`, with what `Wait` returns -/
  | release (o : Nat) (err : Option DownloadErr)
  /-- before the call of the `CancelFunc` in `release` -/
  | cancel (o : Nat) (err : Option DownloadErr)
  | returned (cacheHit : Bool) (err : Option DownloadErr)
  | panicked
  deriving DecidableEq

/-- A call of `downloadBlob`, and whether its context is cancelled. -/
structure DownloadCall where
  state : CallState
  cancelled : Bool
  deriving DecidableEq

/-- What is shared: the entry of the digest in the `blobDownloadManager`, and the downloads that have been made for it. -/
structure Downloads where
  manager : Option Nat
  downloads : Nat → Download
  /-- the number of downloads that have been made -/
  made : Nat
  calls : List DownloadCall

/-- What a step gets from outside. -/
inductive Answer where
  | ok
  /-- `os.ErrNotExist` -/
  | notExist
  | fail (err : DownloadErr)
  deriving DecidableEq

namespace Downloads

/-- A download is changed. -/
def update (s : Downloads) (o : Nat) (f : Download → Download) : Downloads :=
  { s with downloads := Function.update s.downloads o (f (s.downloads o)) }

/-- The next step of a call of `downloadBlob`, with the answer it gets. -/
def next (s : Downloads) (call : DownloadCall) (e : Answer) : Option (Downloads × CallState) :=
  match call.state with
  | .stat =>
    match e with
    | .ok => some (s, .returned true none)
    | .notExist => some (s, .loadOrStore)
    | .fail err => if err = .other then some (s, .returned false (some err)) else none
  | .loadOrStore =>
    match s.manager with
    | some o => some (s, .acquire o)
    | none =>
        some ({ s with
        manager := some s.made, downloads := Function.update s.downloads s.made {}, made := s.made + 1 }, .glob s.made)
  | .glob o =>
    match e with
    | .ok => some (s.update o (fun b => { b with done := some false }), .prepare o)
    | .fail err => if err = .other then some (s, .delete o err) else none
    | .notExist => none
  | .prepare o =>
    match e with
    | .ok => some (s, .go o)
    | .fail err => if err = .canceled → call.cancelled then some (s, .delete o err) else none
    | .notExist => none
  | .delete _ err => some ({ s with manager := none }, .returned false (some err))
  | .go o => some (s.update o (fun b => { b with worker := some .start }), .acquire o)
  | .acquire o => some (s.update o (fun b => { b with references := b.references + 1 }), .wait o)
  | .wait o =>
    match e with
    | .ok => if (s.downloads o).done = some true then some (s, .release o (s.downloads o).err) else none
    | .fail err => if err = .canceled ∧ call.cancelled then some (s, .release o (some err)) else none
    | .notExist => none
  | .release o err =>
    some (s.update o (fun b => { b with references := b.references - 1 }),
      if (s.downloads o).references - 1 = 0 then .cancel o err else .returned false err)
  | .cancel o err =>
    if (s.downloads o).cancelFunc then some (s.update o (fun b => { b with cancelled := true }), .returned false err)
    else some (s, .panicked)
  | .returned _ _ => none
  | .panicked => none

/-- The next step of the goroutine of a download, with the answer it gets. -/
def work (s : Downloads) (o : Nat) (e : Answer) : Option Downloads :=
  match (s.downloads o).worker with
  | none => none
  | some .start => some (s.update o (fun b => { b with cancelFunc := true, worker := some .running }))
  | some .running =>
    match e with
    | .ok => some (s.update o (fun b => { b with worker := some (.delete none) }))
    | .fail err =>
      if err = .canceled → (s.downloads o).cancelled
        then some (s.update o (fun b => { b with worker := some (.delete (some err)) }))
      else none
    | .notExist => none
  | some (.delete err) => some ({ s with manager := none }.update o (fun b => { b with worker := some (.setErr err) }))
  | some (.setErr err) => some (s.update o (fun b => { b with err := err, worker := some .close }))
  | some .close =>
    if (s.downloads o).done = some false
      then some (s.update o (fun b => { b with done := some true, worker := some .over }))
    else some (s.update o (fun b => { b with worker := some .panicked }))
  | some .over => none
  | some .panicked => none

end Downloads

/-- What can happen next. -/
inductive DownloadAct where
  /-- a call of `downloadBlob` begins -/
  | call
  /-- the context of a call is cancelled -/
  | cancel (i : Nat)
  /-- a call steps -/
  | step (i : Nat) (e : Answer)
  /-- the goroutine of a download steps -/
  | work (o : Nat) (e : Answer)

/-- The state after an act. -/
def Downloads.act (s : Downloads) : DownloadAct → Option Downloads
  | .call => some { s with calls := s.calls ++ [⟨.stat, false⟩] }
  | .cancel i => (s.calls[i]?).map (fun call => { s with calls := s.calls.set i { call with cancelled := true } })
  | .step i e => (s.calls[i]?).bind (fun call =>
      (s.next call e).map (fun out => { out.1 with calls := s.calls.set i { call with state := out.2 } }))
  | .work o e => s.work o e

/-- Any number of calls of `downloadBlob` for one digest. -/
def downloads : Machine Downloads DownloadAct where
  init s := s = ⟨none, fun _ => {}, 0, []⟩
  act := Downloads.act

end Ollama.Server
