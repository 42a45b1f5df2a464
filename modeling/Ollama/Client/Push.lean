import Ollama.Client.Registry

/-!
# Names in the local cache

`ResolveLocal`, `Push` and `Unlink` of `server/internal/client/ollama/registry.go`. A name may have a scheme before it
and a digest after it, or be a digest only; `Push` takes the model from another name if it is given one.

What the registry answers to a request is a function of its method and its address: nothing if the request fails, or
else the address in the header "Location", which may be empty. The goroutines of `Push` read the cache only, so that
they can be taken one after another.
-/

namespace Ollama.Client

open Lib Utf8 Names Blob

/-- The errors that are told apart. -/
inductive RegistryErr where
  /-- `ErrNameInvalid` -/
  | nameInvalid
  /-- `ErrModelNotFound` -/
  | modelNotFound
  /-- `ErrManifestInvalid` -/
  | manifestInvalid
  /-- `ErrManifestInvalid`, for a null layer -/
  | nullLayer
  /-- an error of the cache -/
  | cache (err : Err)
  /-- `size mismatch for digest: got != want` -/
  | sizeMismatch (d : Digest) (got : Nat) (want : Int)
  /-- a request fails -/
  | request
  deriving DecidableEq

/-- What a call comes to. -/
inductive Result (α : Type) where
  | value (a : α)
  | error (err : RegistryErr)
  | panicked
  deriving DecidableEq

/-- A manifest in the cache: its name, its bytes, and what they say. -/
structure LocalManifest where
  name : Bytes
  data : Bytes
  manifest : Manifest
  deriving DecidableEq

section

variable (sha : Bytes → Digest) (decode : Bytes → Option Manifest) (mask : Name)

/-- `unmarshalManifest`. -/
def unmarshalManifest (n : Name) (data : Bytes) : Result LocalManifest :=
  if ¬n.isFullyQualified then .panicked
  else
    match decode data with
    | none => .error .manifestInvalid
    | some manifest => .value { name := n.string, data, manifest }

/-- The digest that `ResolveLocal` looks up: the one that is given, or the one that the name is resolved to. -/
def localDigest (c : DiskCache) (n : Name) (d : Option Digest) : DiskCache × Except Err Digest :=
  match d with
  | some d => if isValid d then (c, .ok d) else c.resolve sha n.string
  | none => c.resolve sha n.string

/-- `Registry.ResolveLocal`. -/
def resolveLocal (c : DiskCache) (name : Bytes) : DiskCache × Result LocalManifest :=
  match parseNameExtended mask name with
  | none => (c, .error .nameInvalid)
  | some (n, d) =>
    match localDigest sha c n d with
    | (c, .error err) => (c, .error (.cache err))
    | (c, .ok d) =>
      match c.blobs.lookup d with
      | none => (c, .error .modelNotFound)
      | some data => (c, unmarshalManifest decode n data)

/-- `Registry.Unlink`. -/
def unlink (c : DiskCache) (name : Bytes) : DiskCache × Result Bool :=
  match parseName mask name with
  | none => (c, .error .nameInvalid)
  | some n =>
    match c.unlink n.string with
    | (c, .error err) => (c, .error (.cache err))
    | (c, .ok ok) => (c, .value ok)

/-! ## Pushes -/

/-- The check of the layers: none is null, and each has a blob of its size. -/
def checkLayers (c : DiskCache) : List (Option Layer) → Except RegistryErr (List Layer)
  | [] => .ok []
  | none :: _ => .error .nullLayer
  | some l :: layers =>
    match c.get l.digest with
    | .error err => .error (.cache err)
    | .ok size =>
      if (size : Int) ≠ l.size then .error (.sizeMismatch l.digest size l.size)
      else (checkLayers c layers).map (l :: ·)

/-- A hexadecimal digit. -/
def hexChar (b : UInt8) : UInt8 := if b < 10 then 0x30 + b else 0x61 + (b - 10)

/-- `Digest.String`. -/
def digestString (d : Digest) : Bytes :=
  ascii "sha256:" ++ d.sum.flatMap (fun b => [hexChar (b / 16), hexChar (b % 16)])

/-- The scheme of a name. -/
def schemeOf (s : Bytes) : Bytes :=
  let scheme := (splitExtended s).1
  if scheme = [] then ascii "https" else scheme

/-- The address of the repository of a name. -/
def repository (scheme : Bytes) (n : Name) : Bytes :=
  scheme ++ ascii "://" ++ n.h ++ ascii "/v2/" ++ n.n ++ ascii "/" ++ n.m

variable (send : (method url : Bytes) → Option Bytes)

/-- The goroutine of a layer. Without an address to upload to, the registry has the layer. -/
def pushLayer (c : DiskCache) (scheme : Bytes) (n : Name) (l : Layer) : Except RegistryErr Unit :=
  match send (ascii "POST") (repository scheme n ++ ascii "/blobs/uploads/?digest=" ++ digestString l.digest) with
  | none => .error .request
  | some uploadURL =>
    match c.blobs.lookup l.digest with
    | none => .error (.cache .notExist)
    | some _ =>
      if uploadURL = [] then .ok ()
      else
        match send (ascii "PUT") uploadURL with
        | none => .error .request
        | some _ => .ok ()

/-- `cmp.Or(p.From, name)`. -/
def source (name from_ : Bytes) : Bytes := if from_ = [] then name else from_

/-- `Registry.Push`. -/
def push (c : DiskCache) (name from_ : Bytes) : DiskCache × Result Unit :=
  match resolveLocal sha decode mask c (source name from_) with
  | (c, .panicked) => (c, .panicked)
  | (c, .error err) => (c, .error err)
  | (c, .value m) =>
    match checkLayers c m.manifest.layers with
    | .error err => (c, .error err)
    | .ok layers =>
      match parseNameExtended mask name with
      -- "This should never happen since ResolveLocal should have already validated the name."
      | none => (c, .panicked)
      | some (n, _) =>
        match layers.forM (pushLayer send c (schemeOf name) n) with
        | .error err => (c, .error err)
        | .ok () =>
          match send (ascii "PUT") (repository (schemeOf name) n ++ ascii "/manifests/" ++ n.t) with
          | none => (c, .error .request)
          | some _ => (c, .value ())

end

end Ollama.Client
