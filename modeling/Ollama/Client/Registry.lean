import Ollama.Blob.Puts
import Ollama.Client.Chunked
import Ollama.Lib.Strings

/-!
# The registry client

`server/internal/client/ollama/registry.go`: `Pull` gets a manifest from a registry, then every layer of it that the
cache does not have, each by a goroutine of its own, and links the manifest to the name when no goroutine has failed.

What the registry answers is up to it. `json.Unmarshal` is a parameter, as SHA-256 is. The goroutines take their file
steps in any order, those of layers with one digest on one file. A layer over the chunking threshold is put from a
relay, with the goroutines of its chunks: each is a chunked layer of its own (`Chunked`), which takes its steps with
those of the goroutine that puts the layer.

What a call of `Put` reads is given when it begins. Where it reads from a relay, the writes to the relay are those
that it reads, so a write that is not the next of them does not happen.

The request for a layer is made with the host and the key of the one for the manifest, which was made, so that
`newRequest` does not fail.
-/

namespace Ollama.Client

open Lib Utf8 Names Blob Syncs

/-! ## Names -/

/-- `splitExtended`: the scheme, the name and the digest. -/
def splitExtended (s : Bytes) : Bytes × Bytes × Bytes :=
  let (scheme, s) :=
    match index (ascii "://") s with
    | none => ([], s)
    | some i => (s.take i, s.drop (i + 3))
  match cutLastAny [0x40] s with
  | none => (scheme, s, [])
  | some (name, digest, _) => (scheme, name, digest)

/-- `supportedSchemes`. -/
def supportedSchemes : List Bytes := [ascii "http", ascii "https", ascii "https+insecure"]

/-- `DefaultMask`. -/
def defaultMask : Name := parse (ascii "registry.ollama.ai/library/_:latest")

/-- `Registry.parseName`, with the mask. -/
def parseName (mask : Name) (name : Bytes) : Option Name :=
  let n := merge (parse name) mask
  if n.isFullyQualified then some n else none

/-- `Registry.parseNameExtended`: the name and the digest, if there is one. The scheme stands in the requests only. -/
def parseNameExtended (mask : Name) (s : Bytes) : Option (Name × Option Digest) :=
  let (scheme, name, digest) := splitExtended s
  if (if scheme = [] then ascii "https" else scheme) ∉ supportedSchemes then none
  else if digest = [] then (parseName mask name).map (fun n => (n, none))
  else
    match parseDigest digest with
    | .error _ => none
    | .ok d => if name = [] then some ({}, some d) else (parseName mask name).map (fun n => (n, some d))

/-! ## Manifests -/

/-- `Layer`. -/
structure Layer where
  digest : Digest
  size : Int
  deriving DecidableEq

/-- `Manifest`. A layer may be null, and so may the config. -/
structure Manifest where
  layers : List (Option Layer)
  config : Option Layer
  deriving DecidableEq

/-- `Digest.IsValid`. -/
def isValid (d : Digest) : Bool := d.sum ≠ List.replicate 32 0

/-- The layers that `Pull` gets: the config is one if its digest is valid. -/
def Manifest.pulled (m : Manifest) : List (Option Layer) :=
  match m.config with
  | none => m.layers
  | some l => if isValid l.digest then m.layers ++ [some l] else m.layers

/-! ## Pulls -/

/-- What the requests for a layer come to. -/
inductive Response where
  /-- the request fails -/
  | fail
  /-- the body of the response -/
  | body (r : Blob.Reader)
  /-- over the chunking threshold: what is read from the relay -/
  | relay (r : Blob.Reader)

/-- What `Pull` comes to. -/
inductive Outcome where
  /-- it returns nil -/
  | ok
  /-- it returns an error -/
  | failed
  | panicked
  deriving DecidableEq

/-- A goroutine that puts a layer, and the chunked layer that it puts from a relay. -/
structure Task where
  digest : Digest
  call : PutCall
  chunked : Option Chunked := none

/-- A pull: the cache, the name and the bytes of the manifest, the layers that the loop has yet to come to, those that
were cached, the goroutines that put the others, and whether another goroutine has failed. -/
structure Pull where
  cache : DiskCache
  name : Bytes
  data : Bytes
  todo : List (Option Layer)
  cached : List Layer
  tasks : List Task
  failed : Bool
  result : Option Outcome

/-- What can happen next. -/
inductive PullAct where
  /-- the loop comes to the next layer -/
  | layer (res : Response)
  /-- a goroutine takes its next file step -/
  | step (i : Nat)
  /-- a chunked layer takes a step -/
  | chunk (i : Nat) (a : ChunkedAct)
  /-- a write to a relay comes after its `Put` has truncated the file, and before it is closed -/
  | late (i : Nat) (file : Bytes)
  /-- every goroutine has returned: `g.Wait`, and what follows it -/
  | wait

/-- The cache with the file of a digest, if there is one. -/
def setBlob (c : DiskCache) (d : Digest) (file : Option Bytes) : DiskCache :=
  match file with
  | none => c
  | some f => { c with blobs := Assoc.set c.blobs d f }

/-- `exists`. -/
def cachedSize (c : DiskCache) (l : Layer) : Bool :=
  match c.get l.digest with
  | .error _ => false
  | .ok size => (size : Int) = l.size

/-- The call has returned. -/
def returned (call : PutCall) : Bool :=
  match call.state with
  | .returned _ => true
  | _ => false

/-- The goroutine that puts a layer has returned, and so have those of its chunks. -/
def Task.ended (t : Task) : Bool :=
  returned t.call && t.chunked.all (fun c => c.put = .returned ∧ ∀ chunk ∈ c.chunks, chunk.phase = .returned)

/-- The loop has left the layer. -/
def Task.left (t : Task) : Bool := t.chunked.all (fun c => c.loop = .left)

/-- `WriteTo` has returned. -/
def Chunked.read (c : Chunked) : Bool :=
  match c.relay.reader with
  | .returned _ _ => true
  | _ => false

/-- `Put` takes a file step of its own: in `io.Copy` it is in `WriteTo`, and an error of the file is looked at when
that has returned. -/
def Task.ownStep (t : Task) : Bool :=
  match t.chunked, t.call.state with
  | none, _ => true
  | some _, .copy _ _ _ => false
  | some c, .truncate _ => c.read
  | some _, _ => true

/-- What the writer of the chunk `i` is about to write to the file. -/
def Chunked.written (c : Chunked) (i : Nat) : Option Bytes :=
  (c.relay.writers[i]?).bind (fun w =>
    match w.call with
    | .write p _ => some p
    | _ => none)

variable (sha : Bytes → Digest) (decode : Bytes → Option Manifest) (threshold : Int) (chunkSize : Int64) (mask : Name)

/-- What the `checkWriter` answers to a write: how much of it is written, and whether it fails. -/
def writeAnswer (d : Digest) (size : Int) (n : Nat) (h p : Bytes) : Nat × Bool :=
  if p = [] then (0, false)
  else
    match CheckWriter.write sha d size ⟨n, h, []⟩ p with
    | (_, some _) => (0, true)
    | (_, none) => (p.length, false)

/-- Whether an act of a chunked layer is one of the goroutine that puts it, which takes its next file step with it, or
may come in between. What the destination answers is not looked at once `io.Copy` is over. -/
def Task.joins (t : Task) (c : Chunked) : ChunkedAct → Option Bool
  | .copy =>
    match t.call.state with
    | .copy _ _ _ => some false
    | _ => none
  | .check =>
    if ¬c.relay.closed then some false
    else if t.call.state = .copy 0 [] [] ∧ t.call.file.fails then some true
    else none
  | .deliver i k failed =>
    if ¬c.relay.begun then some false
    else
      match t.call.state with
      | .copy n h (p :: _) => if c.written i = some p ∧ (k, failed) = writeAnswer sha t.digest t.call.size n h p
          then some true else none
      | .copy _ _ [] => none
      | _ => some false
  | .finish =>
    match t.call.state with
    | .copy _ _ [] => if t.call.file.fails = decide ((c.relay.n : Int) < t.call.size) then some true else none
    | .copy _ _ (_ :: _) => none
    | _ => some false
  | .put => if returned t.call then some false else none
  | _ => some false

/-- `Pull` to its loop, with the response to the request for the manifest. -/
def Pull.begin (cache : DiskCache) (name : Bytes) (res : Option Bytes) : Pull :=
  let finished := fun outcome => (⟨cache, [], [], [], [], [], false, some outcome⟩ : Pull)
  match parseNameExtended mask name, res with
  | none, _ => finished .failed
  | some _, none => finished .failed
  | some (n, _), some data =>
    -- `unmarshalManifest` panics
    if ¬n.isFullyQualified then finished .panicked
    else
      match decode data with
      | none => finished .failed
      | some m => if m.layers = [] then finished .failed else ⟨cache, n.string, data, m.pulled, [], [], false, none⟩

/-- The loop comes to a layer that is not cached. -/
def Pull.get (s : Pull) (l : Layer) : Response → Option Pull
  | .fail => if l.size ≤ threshold then some { s with failed := true } else none
  | .body r => if l.size ≤ threshold then some { s with tasks := s.tasks ++ [⟨l.digest, ⟨r, l.size, .stat⟩, none⟩] }
      else none
  | .relay r =>
    if l.size > threshold then some { s with tasks := s.tasks ++ [⟨l.digest, ⟨r, l.size, .stat⟩, some newChunked⟩] }
      else none

/-- The goroutine that puts a layer takes its next file step. -/
def Pull.step (s : Pull) (i : Nat) (t : Task) : Option Pull :=
  (t.call.next sha t.digest (s.cache.blobs.lookup t.digest)).map (fun out =>
    { s with
      cache := setBlob s.cache t.digest out.1
      tasks := s.tasks.set i { t with call := { t.call with state := out.2 } } })

/-- A chunked layer goes on. The goroutine of a chunk that fails makes the pull fail, a first request that fails makes
`Pull` return, and a writer without a destination panics. -/
def Pull.moved (s : Pull) (i : Nat) (t : Task) (c : Chunked) (a : ChunkedAct) : Pull :=
  { s with
    tasks := s.tasks.set i { t with chunked := some c }
    failed := s.failed || (match a with | .failed _ => true | _ => false)
    result :=
      if c.relay.panicked then some .panicked
      else if a = .request false then some .failed
      else s.result }

/-- A chunked layer takes a step, with one of the goroutine that puts it where they are the same. -/
def Pull.chunk (s : Pull) (i : Nat) (t : Task) (c : Chunked) (a : ChunkedAct) : Option Pull :=
  (c.act (Int64.ofInt t.call.size) chunkSize a).bind (fun c' =>
    match t.joins sha c a with
    | none => none
    | some false => some (s.moved i t c' a)
    | some true => (s.step sha i { t with chunked := some c' }))

/-- What follows `g.Wait`: the manifest is stored and linked. -/
def Pull.commit (s : Pull) : Pull :=
  if s.failed ∨ ∃ t ∈ s.tasks, t.call.state ≠ .returned none then { s with result := some .failed }
  else
    let md := sha s.data
    match s.cache.putBytes sha md s.data with
    | (cache, some _) => { s with cache, result := some .failed }
    | (cache, none) =>
      match cache.link sha s.name md with
      | (cache, some _) => { s with cache, result := some .failed }
      | (cache, none) => { s with cache, result := some .ok }

/-- The state after an act. -/
def Pull.act (s : Pull) (a : PullAct) : Option Pull :=
  if s.result ≠ none then none
  else
    match a with
    | .layer res =>
      if ¬s.tasks.all Task.left then none
      else
        match s.todo with
        | [] => none
        | none :: _ => some { s with result := some .panicked }
        | some l :: todo =>
          if cachedSize s.cache l then some { s with todo, cached := s.cached ++ [l] }
          else Pull.get threshold { s with todo } l res
    | .step i => (s.tasks[i]?).bind (fun t => if t.ownStep then s.step sha i t else none)
    | .chunk i a => (s.tasks[i]?).bind (fun t => t.chunked.bind (fun c => s.chunk sha chunkSize i t c a))
    | .late i file => (s.tasks[i]?).bind (fun t =>
        match t.chunked, t.call.state with
        | some c, .returned (some _) => if c.relay.begun
            then some { s with cache := setBlob s.cache t.digest (some file) } else none
        | _, _ => none)
    | .wait => if s.todo = [] ∧ s.tasks.all Task.left ∧ s.tasks.all Task.ended then some (s.commit sha) else none

/-- The runs of `Pull` for a name, on a cache, with the response to the request for the manifest. -/
def pull (cache : DiskCache) (name : Bytes) (res : Option Bytes) : Machine Pull PullAct where
  init s := s = Pull.begin decode mask cache name res
  act := Pull.act sha threshold chunkSize

end Ollama.Client
