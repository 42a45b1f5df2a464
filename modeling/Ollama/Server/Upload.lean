import Ollama.Lib.System
import Ollama.Lib.Utf8
import Mathlib.Logic.Function.Basic

/-!
# Shared uploads

`server/upload.go`: calls of `uploadBlob` for one digest share a `blobUpload`, which the first of them stores in the
`blobUploadManager`, prepares and hands to a goroutine that runs `Run`. All calls then `Wait` until it is done or has
an error. The `blobUploadManager` has one entry for a digest, whichever repository it is pushed to.

As for downloads, a call and a goroutine are between two of their steps at all times, and the answer that is given
with a step is what the file system, the registry and the `select` of `Wait` decide. The parts are uploaded in one
step, and so are the tries of the commit: what they do is `uploadRun`. What the registry has of the blob is noted
apart, in `delivered`.
-/

namespace Ollama.Server

open Lib

/-- The errors that are told apart. -/
inductive UploadErr where
  /-- `context.Canceled` -/
  | canceled
  | other
  deriving DecidableEq

/-- Where the goroutine of `Run` stands. -/
inductive UploadWorker where
  /-- before `context.WithCancel` -/
  | start
  /-- before `os.Open` -/
  | openFile
  /-- uploads the parts -/
  | parts
  /-- receives from `nextURL` -/
  | receive
  /-- sends the commit request -/
  | commit
  /-- before `b.err = err`, after the commit request -/
  | setErr (err : Option UploadErr)
  /-- before `b.done = true` -/
  | setDone
  /-- before `b.err = err`, where `Run` returns at once -/
  | fail (err : UploadErr)
  /-- before the deferred `blobUploadManager.Delete` -/
  | delete
  | over
  deriving DecidableEq

/-- `blobUpload`. -/
structure Upload where
  /-- the repository of the call that has stored it -/
  repository : Bytes
  done : Bool := false
  err : Option UploadErr := none
  references : Int := 0
  /-- the channel `nextURL` is made, and has a URL -/
  nextURL : Bool := false
  /-- the `CancelFunc` is set -/
  cancelFunc : Bool := false
  /-- the `CancelFunc` has been called -/
  cancelled : Bool := false
  /-- the goroutine, once it is started -/
  worker : Option UploadWorker := none
  deriving DecidableEq

/-- Where a call of `uploadBlob` stands. -/
inductive UploadState where
  /-- before the HEAD request -/
  | head
  /-- before `blobUploadManager.LoadOrStore` -/
  | loadOrStore
  /-- in `Prepare` -/
  | prepare (o : Nat)
  /-- `Prepare` has failed: before `blobUploadManager.Delete` -/
  | delete (o : Nat) (err : UploadErr)
  /-- before `go upload.Run` -/
  | go (o : Nat)
  /-- before `acquire` -/
  | acquire (o : Nat)
  /-- in the loop of `Wait` -/
  | wait (o : Nat)
  /-- before `references.Add(-1)` in `release`, with what `Wait` returns -/
  | release (o : Nat) (err : Option UploadErr)
  /-- before the call of the `CancelFunc` in `release` -/
  | cancel (o : Nat) (err : Option UploadErr)
  | returned (err : Option UploadErr)
  /-- a call of a `CancelFunc` that is nil -/
  | panicked
  deriving DecidableEq

/-- A call of `uploadBlob`: the repository it pushes to, and whether its context is cancelled. -/
structure UploadCall where
  repository : Bytes
  state : UploadState
  cancelled : Bool
  deriving DecidableEq

/-- What is shared: the entry of the digest in the `blobUploadManager`, and the uploads that have been made for it.
`delivered` has the repositories of which the registry has said that the blob is there, that it was mounted, or that
it is committed. -/
structure Uploads where
  manager : Option Nat
  uploads : Nat → Upload
  /-- the number of uploads that have been made -/
  made : Nat
  calls : List UploadCall
  delivered : List Bytes

/-- What a step gets from outside. -/
inductive Reply where
  | ok
  /-- `os.ErrNotExist` -/
  | notExist
  /-- `http.StatusCreated` -/
  | created
  | fail (err : UploadErr)
  deriving DecidableEq

namespace Uploads

/-- An upload is changed. -/
def update (s : Uploads) (o : Nat) (f : Upload → Upload) : Uploads :=
  { s with uploads := Function.update s.uploads o (f (s.uploads o)) }

/-- A repository has the blob. -/
def deliver (s : Uploads) (repository : Bytes) : Uploads := { s with delivered := repository :: s.delivered }

/-- The next step of a call of `uploadBlob`, with the answer it gets. -/
def next (s : Uploads) (call : UploadCall) (e : Reply) : Option (Uploads × UploadState) :=
  match call.state with
  | .head =>
    match e with
    | .ok => some (s.deliver call.repository, .returned none)
    | .notExist => some (s, .loadOrStore)
    | .fail err => if err = .canceled → call.cancelled then some (s, .returned (some err)) else none
    | .created => none
  | .loadOrStore =>
    match s.manager with
    | some o => some (s, .acquire o)
    | none =>
        some ({ s with
        manager := some s.made, uploads := Function.update s.uploads s.made { repository := call.repository },
                             made := s.made + 1 }, .prepare s.made)
  | .prepare o =>
    match e with
    | .created => some ((s.deliver call.repository).update o (fun b => { b with done := true }), .go o)
    | .ok => some (s.update o (fun b => { b with nextURL := true }), .go o)
    | .fail err => if err = .canceled → call.cancelled then some (s, .delete o err) else none
    | .notExist => none
  | .delete _ err => some ({ s with manager := none }, .returned (some err))
  | .go o => some (s.update o (fun b => { b with worker := some .start }), .acquire o)
  | .acquire o => some (s.update o (fun b => { b with references := b.references + 1 }), .wait o)
  | .wait o =>
    match e with
    | .ok => if (s.uploads o).done = true ∨ (s.uploads o).err ≠ none
        then some (s, .release o (s.uploads o).err) else none
    | .fail err => if err = .canceled ∧ call.cancelled then some (s, .release o (some err)) else none
    | .notExist | .created => none
  | .release o err =>
    some (s.update o (fun b => { b with references := b.references - 1 }),
      if (s.uploads o).references - 1 = 0 then .cancel o err else .returned err)
  | .cancel o err =>
    if (s.uploads o).cancelFunc then some (s.update o (fun b => { b with cancelled := true }), .returned err)
      else some (s, .panicked)
  | .returned _ => none
  | .panicked => none

/-- The next step of the goroutine of an upload, with the answer it gets. An upload that was mounted has no `nextURL`
to receive from. -/
def work (s : Uploads) (o : Nat) (e : Reply) : Option Uploads :=
  let b := s.uploads o
  match b.worker with
  | none => none
  | some .start => some (s.update o (fun b => { b with cancelFunc := true, worker := some .openFile }))
  | some .openFile =>
    match e with
    | .ok => some (s.update o (fun b => { b with worker := some .parts }))
    | .fail err => if err = .other then some (s.update o (fun b => { b with worker := some (.fail err) })) else none
    | .notExist | .created => none
  | some .parts =>
    match e with
    | .ok => some (s.update o (fun b => { b with worker := some .receive }))
    | .fail err =>
      -- a blob that was mounted has no parts that could fail
      if b.nextURL ∧ (err = .canceled → b.cancelled)
        then some (s.update o (fun b => { b with worker := some (.fail err) })) else none
    | .notExist | .created => none
  | some .receive => if b.nextURL then some (s.update o (fun b => { b with worker := some .commit })) else none
  | some .commit =>
    match e with
    | .ok => some ((s.deliver b.repository).update o (fun b => { b with worker := some (.setErr none) }))
    | .fail err =>
      if err = .canceled → b.cancelled
        then some (s.update o (fun b => { b with worker := some (.setErr (some err)) })) else none
    | .notExist | .created => none
  | some (.setErr err) => some (s.update o (fun b => { b with err := err, worker := some .setDone }))
  | some .setDone => some (s.update o (fun b => { b with done := true, worker := some .delete }))
  | some (.fail err) => some (s.update o (fun b => { b with err := some err, worker := some .delete }))
  | some .delete => some ({ s with manager := none }.update o (fun b => { b with worker := some .over }))
  | some .over => none

end Uploads

/-- What can happen next. -/
inductive UploadAct where
  /-- a call of `uploadBlob` begins -/
  | call (repository : Bytes)
  /-- the context of a call is cancelled -/
  | cancel (i : Nat)
  /-- a call steps -/
  | step (i : Nat) (e : Reply)
  /-- the goroutine of an upload steps -/
  | work (o : Nat) (e : Reply)

/-- The state after an act. -/
def Uploads.act (s : Uploads) : UploadAct → Option Uploads
  | .call repository => some { s with calls := s.calls ++ [⟨repository, .head, false⟩] }
  | .cancel i => (s.calls[i]?).map (fun call => { s with calls := s.calls.set i { call with cancelled := true } })
  | .step i e => (s.calls[i]?).bind (fun call =>
      (s.next call e).map (fun out => { out.1 with calls := s.calls.set i { call with state := out.2 } }))
  | .work o e => s.work o e

/-- Any number of calls of `uploadBlob` for one digest. -/
def uploads : Machine Uploads UploadAct where
  init s := s = ⟨none, fun _ => { repository := [] }, 0, [], []⟩
  act := Uploads.act

end Ollama.Server
