import Ollama.Lib.System
import Ollama.Lib.Strings
import Ollama.Lib.Utf8

/-!
# The parts of an upload

`Run` and `uploadPart` of `server/upload.go`. `Run` takes the URL of the next part from `nextURL`, or finds that its
context is done, part by part; a goroutine sends each part, with retries and redirects, and sends the URL that it gets
back to `nextURL`. When all goroutines have returned, `Run` makes a checksum of those of the parts and sends the
commit request.

`Run`, the goroutines and the cancellation are between two of their steps at all times, and the answer that is given
with a step is what the file system or the registry decides. `context.Canceled` is an answer only where the context is
done. The sleeps between two tries are left out. A part keeps record of its `Hash`, and the upload of whether the
commit request was sent.
-/

namespace Ollama.Server

open Lib

/-! ## Challenges -/

/-- The loop of `getValue`, from `endIdx` on: the number of bytes up to the quote at the end of the text or before a
comma. -/
def valueEnd : Bytes → Nat
  | [] => 0
  | b :: rest =>
    if b = 0x22 then
      match rest with
      | [] => 0
      | c :: _ => if c ≠ 0x2c then valueEnd rest + 1 else 0
    else valueEnd rest + 1

/-- `getValue`. Past the end of the text, the slice is out of range. -/
def getValue (header key : Bytes) : Option Bytes :=
  match index (key ++ ascii "=") header with
  | none => some []
  | some startIdx =>
    let startIdx := startIdx + key.length + 2
    if header.length < startIdx then none else some ((header.drop startIdx).take (valueEnd (header.drop startIdx)))

/-- `registryChallenge`. -/
structure RegistryChallenge where
  realm : Bytes
  service : Bytes
  scope : Bytes
  deriving DecidableEq

/-- `parseRegistryChallenge`. -/
def parseRegistryChallenge (authStr : Bytes) : Option RegistryChallenge :=
  let authStr := if (ascii "Bearer ").isPrefixOf authStr then authStr.drop 7 else authStr
  (getValue authStr (ascii "realm")).bind (fun realm =>
    (getValue authStr (ascii "service")).bind (fun service =>
      (getValue authStr (ascii "scope")).map (fun scope => ⟨realm, service, scope⟩)))

/-! ## Goroutines -/

/-- The errors that are told apart. -/
inductive PartErr where
  /-- `context.Canceled` -/
  | canceled
  /-- `errMaxRetriesExceeded` -/
  | maxRetriesExceeded
  | other
  deriving DecidableEq

/-- `maxRetries`. -/
def maxRetries : Nat := 6

/-- `numUploadParts`. -/
def numUploadParts : Nat := 16

/-- Where the goroutine of a part stands. A try is one of the loop that it is in, with the tries of the loops around
it: the loop over PATCH requests is the outermost, and each redirect makes one over PUT requests. -/
inductive PartState where
  /-- the loop has not come to the part -/
  | waiting
  /-- the loop has found the context done -/
  | skipped
  /-- before the request -/
  | request (try_ : Nat) (outer : List Nat)
  /-- sends the URL of a redirect -/
  | sendRedirect (try_ : Nat) (outer : List Nat)
  /-- before `resp.Location()` -/
  | location (try_ : Nat) (outer : List Nat)
  /-- sends the URL of the next part, after a PATCH request -/
  | sendNext
  /-- before `part.Hash = md5sum` -/
  | setHash
  | returned (err : Option PartErr)
  deriving DecidableEq

/-- `blobUploadPart`. -/
structure UploadPart where
  state : PartState := .waiting
  /-- the `Hash` is set -/
  hash : Bool := false
  deriving DecidableEq

/-- The goroutine has been started and has not returned. -/
def PartState.runs : PartState → Bool
  | .waiting | .skipped | .returned _ => false
  | _ => true

/-- A call of `uploadPart` returns an error: the loop tries again, or else all loops return. -/
def PartState.retry (try_ : Nat) (outer : List Nat) : PartErr → PartState
  | .canceled => .returned (some .canceled)
  | .maxRetriesExceeded => .returned (some .maxRetriesExceeded)
  | .other => if try_ + 1 < maxRetries then .request (try_ + 1) outer else .returned (some .maxRetriesExceeded)

/-! ## `Run` -/

/-- Where `Run` stands. -/
inductive RunState where
  /-- before `os.Open` -/
  | openFile
  /-- the loop comes to part `i` -/
  | part (i : Nat)
  /-- before `g.Go`, for part `i` -/
  | go (i : Nat)
  /-- receives from `nextURL`, after `g.Wait` -/
  | receive
  /-- before the checksum -/
  | checksum
  /-- sends the commit request, again after a challenge -/
  | commit (try_ : Nat) (again : Bool)
  /-- before `b.err = err` and `b.done = true` -/
  | finish (err : Option PartErr)
  /-- has returned; `done` is set or not -/
  | returned (err : Option PartErr) (done : Bool)
  | panicked
  deriving DecidableEq

/-- What follows `g.Wait`. -/
def RunState.afterWait : Option PartErr → RunState
  | none => .receive
  | some err => .returned (some err) false

/-- A run of an upload. -/
structure UploadRun where
  parts : List UploadPart
  run : RunState := .openFile
  /-- the channel `nextURL` has a URL -/
  nextURL : Bool
  /-- the `CancelFunc` has been called -/
  cancelled : Bool := false
  /-- the first error of a goroutine -/
  err : Option PartErr := none
  /-- the commit request has been sent -/
  sent : Bool := false
  deriving DecidableEq

/-- What the registry answers. An answer that is none of the others, or that cannot be read, is an error. -/
inductive PartReply where
  | ok
  | redirect
  /-- `http.StatusUnauthorized`, with the challenge, and the error of what follows it, if there is one -/
  | unauthorized (challenge : Bytes) (err : Option PartErr)
  | error (err : PartErr)

/-- What can happen next. -/
inductive RunAct where
  /-- the `CancelFunc` is called -/
  | cancel
  | openFile (ok : Bool)
  /-- the `select` finds the context done -/
  | skip
  /-- the `select` receives from `nextURL` -/
  | take
  /-- `g.Go`, with fewer than `numUploadParts` goroutines -/
  | go
  /-- a goroutine steps -/
  | part (i : Nat) (a : PartReply)
  /-- `g.Wait`, when all goroutines have returned -/
  | wait
  | receive
  | checksum
  | commit (a : PartReply)
  | finish

namespace UploadRun

/-- The context of the goroutines is done. -/
def innerDone (s : UploadRun) : Bool := s.cancelled || s.err.isSome

/-- The error can be had: `context.Canceled` only if the context is done. -/
def canHave (done : Bool) (err : PartErr) : Bool := err = .other || err = .canceled && done

/-- A part is in another state. -/
def setPart (s : UploadRun) (i : Nat) (part : UploadPart) : UploadRun := { s with parts := s.parts.set i part }

/-- A goroutine is in another state. The first error that one returns is that of the group. -/
def setState (s : UploadRun) (i : Nat) (part : UploadPart) (state : PartState) : UploadRun :=
  { s.setPart i { part with state } with
    err := match s.err, state with
      | none, .returned (some err) => some err
      | err, _ => err }

/-- The next step of the goroutine of a part. -/
def stepPart (s : UploadRun) (i : Nat) (part : UploadPart) (a : PartReply) : Option UploadRun :=
  match part.state with
  | .waiting | .skipped | .returned _ => none
  | .request try_ outer =>
    match a with
    | .ok => some (s.setState i part (if outer = [] then .sendNext else .setHash))
    | .redirect => some (s.setState i part (.sendRedirect try_ outer))
    | .unauthorized challenge err =>
      match parseRegistryChallenge challenge with
      | none => some { s with run := .panicked }
      -- With a token too, the call returns an error.
      | some _ =>
        if canHave s.innerDone (err.getD .other)
          then some (s.setState i part (.retry try_ outer (err.getD .other))) else none
    | .error err => if canHave s.innerDone err then some (s.setState i part (.retry try_ outer err)) else none
  | .sendRedirect try_ outer => if s.nextURL then none
      else some ({ s with nextURL := true }.setState i part (.location try_ outer))
  | .location try_ outer =>
    match a with
    | .ok => some (s.setState i part (.request 0 (try_ :: outer)))
    | .error .other => some (s.setState i part (.retry try_ outer .other))
    | _ => none
  | .sendNext => if s.nextURL then none else some ({ s with nextURL := true }.setState i part .setHash)
  | .setHash => some (s.setState i { part with hash := true } (.returned none))

/-- A try of the commit request has failed. -/
def retryCommit (s : UploadRun) (try_ : Nat) (err : PartErr) : UploadRun :=
  if err = .canceled then { s with run := .finish (some .canceled) }
  else if try_ + 1 < maxRetries then { s with run := .commit (try_ + 1) false }
  else { s with run := .finish (some err) }

/-- The commit request, with one retry after a challenge. -/
def stepCommit (s : UploadRun) (try_ : Nat) (again : Bool) (a : PartReply) : Option UploadRun :=
  let s := { s with sent := true }
  match a with
  | .ok | .redirect => some { s with run := .finish none }
  | .unauthorized challenge err =>
    match parseRegistryChallenge challenge with
    | none => some { s with run := .panicked }
    | some _ =>
      match err with
      | some err => if canHave s.cancelled err then some (s.retryCommit try_ err) else none
      | none => some (if again then s.retryCommit try_ .other else { s with run := .commit try_ true })
  | .error err => if canHave s.cancelled err then some (s.retryCommit try_ err) else none

/-- The state after an act. -/
def act (s : UploadRun) (a : RunAct) : Option UploadRun :=
  match a, s.run with
  | _, .panicked => none
  | .cancel, _ => some { s with cancelled := true }
  | .openFile ok, .openFile => some { s with run := if ok then .part 0 else .returned (some .other) false }
  | .skip, .part i =>
    (s.parts[i]?).bind (fun part =>
      if s.innerDone then some ({ s with run := .part (i + 1) }.setPart i { part with state := .skipped }) else none)
  | .take, .part i => if i < s.parts.length ∧ s.nextURL then some { s with run := .go i, nextURL := false } else none
  | .go, .go i =>
    (s.parts[i]?).bind (fun part =>
      if s.parts.countP (·.state.runs) < numUploadParts then
        some ({ s with run := .part (i + 1) }.setPart i { part with state := .request 0 [] })
      else none)
  | .part i a, _ => (s.parts[i]?).bind (fun part => s.stepPart i part a)
  | .wait, .part i =>
    if i = s.parts.length ∧ ∀ part ∈ s.parts, part.state.runs = false then
      some { s with run := .afterWait s.err }
    else none
  | .receive, .receive => if s.nextURL then some { s with run := .checksum, nextURL := false } else none
  | .checksum, .checksum => some { s with
      run := if ∀ part ∈ s.parts, part.hash = true then .commit 0 false else .panicked }
  | .commit a, .commit try_ again => s.stepCommit try_ again a
  | .finish, .finish err => some { s with run := .returned err true }
  | _, _ => none

end UploadRun

/-- The runs of an upload. `Prepare` has made the parts and put a URL in the channel; an upload that was mounted has
neither. -/
def uploadRun : Machine UploadRun RunAct where
  init s := ∃ n nextURL, s = ⟨List.replicate n {}, .openFile, nextURL, false, none, false⟩ ∧ (nextURL = false → n = 0)
  act := UploadRun.act

end Ollama.Server
