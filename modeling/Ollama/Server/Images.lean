import Ollama.Lib.Assoc
import Ollama.Lib.Utf8

/-!
# Manifests and blobs

`server/images.go`, `manifest.go`, `layer.go` and `modelpath.go`: a model is a manifest file, which names its layers
and its config by their digests, and a blob file for each digest. `GetBlobsPath` takes a digest in two spellings, with
a colon or a dash after `sha256`, to the same file.

The library is the contents of the two directories, on a file system that tells letter case apart and does not fail. A
path is relative to its directory. SHA-256 is a parameter, in hexadecimal.
-/

namespace Ollama.Server

open Lib Utf8

/-! ## Digests -/

/-- A hexadecimal digit. -/
def isHex (c : UInt8) : Bool := (0x30 ≤ c ∧ c ≤ 0x39) ∨ (0x61 ≤ c ∧ c ≤ 0x66) ∨ (0x41 ≤ c ∧ c ≤ 0x46)

/-- The pattern `^sha256[:-][0-9a-fA-F]{64}$`. -/
def isDigest (s : Bytes) : Bool :=
  s.take 6 = ascii "sha256" ∧ (s[6]? = some 0x3a ∨ s[6]? = some 0x2d) ∧ (s.drop 7).length = 64 ∧ (s.drop 7).all isHex

/-- `strings.ReplaceAll`, of one byte by another. -/
def replaceAll (s : Bytes) (old new : UInt8) : Bytes := s.map (fun b => if b = old then new else b)

/-- `GetBlobsPath`: the name of a file in the directory of blobs, empty for the directory itself, or nothing for
`ErrInvalidDigestFormat`. -/
def getBlobsPath (digest : Bytes) : Option Bytes :=
  if digest ≠ [] ∧ ¬isDigest digest then none else some (replaceAll digest 0x3a 0x2d)

/-- A digest of sixty-four equal digits. -/
def digestOf (digit : UInt8) : Bytes := ascii "sha256:" ++ List.replicate 64 digit

/-- A hash of sixty-four equal digits, the first byte of the content. -/
def shaOf (content : Bytes) : Bytes := List.replicate 64 (content.headD 0x30)

/-! ## The library -/

/-- `Manifest`: the digests of its config and its layers. -/
structure Manifest where
  config : Bytes
  layers : List Bytes
  deriving DecidableEq

/-- `append(m.Layers, m.Config)`. -/
def Manifest.digests (m : Manifest) : List Bytes := m.layers ++ [m.config]

/-- The files under `manifests`, with what the decoder makes of them, and the files under `blobs`. -/
structure Library where
  manifests : List (Bytes × Option Manifest)
  blobs : List (Bytes × Bytes)

/-- `isValidLen` and `isValidPart`, for the host, the namespace, the model or the tag. -/
def isValidPart (kind : Nat) (s : Bytes) : Bool :=
  let alphanumeric (c : UInt8) : Bool := (0x41 ≤ c ∧ c ≤ 0x5a) ∨ (0x61 ≤ c ∧ c ≤ 0x7a) ∨
    (0x30 ≤ c ∧ c ≤ 0x39) ∨ c = 0x5f
  let allowed (c : UInt8) : Bool := c = 0x2d ∨ (c = 0x2e ∧ kind ≠ 1) ∨ (c = 0x3a ∧ kind = 0) ∨ alphanumeric c
  1 ≤ s.length ∧ s.length ≤ (if kind = 0 then 350 else 80) ∧ (s.head?.map alphanumeric = some true) ∧ s.tail.all allowed

/-- `ParseNameFromFilepath` gives a valid name. -/
def isNamePath (p : Bytes) : Bool :=
  match p.splitOn 0x2f with
  | [h, n, m, t] => isValidPart 0 h ∧ isValidPart 1 n ∧ isValidPart 2 m ∧ isValidPart 3 t
  | _ => false

/-- `Manifests(true)`: bad names and files that cannot be decoded are passed over. -/
def Library.readable (lib : Library) : List Manifest :=
  lib.manifests.filterMap (fun e => if isNamePath e.1 then e.2 else none)

/-- The digests that the manifests name. -/
def Library.referenced (lib : Library) : List Bytes := lib.readable.flatMap Manifest.digests

/-- `deleteUnusedLayers`. -/
def Library.deleteUnusedLayers (lib : Library) (deleteMap : List Bytes) : Library :=
  let unused := deleteMap.filter (fun k => k ∉ lib.referenced)
  { lib with blobs := lib.blobs.filter (fun e => ∀ k ∈ unused, getBlobsPath k ≠ some e.1) }

/-- `PruneLayers`: a name that is none of a blob is removed at once. -/
def Library.pruneLayers (lib : Library) : Library :=
  let name (e : Bytes × Bytes) := replaceAll e.1 0x2d 0x3a
  let blobs := lib.blobs.filter (fun e => (getBlobsPath (name e)).isSome)
  { lib with blobs }.deleteUnusedLayers (blobs.map name)

/-! ## Pulling a model -/

/-- The errors of `PullModel`. -/
inductive PullErr where
  /-- `ErrInvalidDigestFormat` -/
  | invalidDigest
  /-- a slice of the digest is out of range -/
  | panicked
  /-- the blob could not be downloaded -/
  | download
  /-- `os.ErrNotExist` -/
  | notExist
  /-- `errDigestMismatch` -/
  | digestMismatch
  deriving DecidableEq

variable (sha : Bytes → Bytes)

/-- `downloadBlob`: whether it was a cache hit, with the blobs then. `answer` is what the registry serves, if the
download succeeds. -/
def downloadBlob (blobs : List (Bytes × Bytes)) (digest : Bytes) (answer : Option Bytes) :
    Except PullErr (Bool × List (Bytes × Bytes)) :=
  match getBlobsPath digest with
  | none => .error .invalidDigest
  | some fp =>
    if digest = [] then .error .panicked
    else
      match blobs.lookup fp with
      | some _ => .ok (true, blobs)
      | none =>
        match answer with
        | none => .error .download
        | some content => .ok (false, Assoc.set blobs fp content)

/-- `verifyBlob`. -/
def verifyBlob (blobs : List (Bytes × Bytes)) (digest : Bytes) : Option PullErr :=
  match getBlobsPath digest with
  | none => some .invalidDigest
  | some fp =>
    match blobs.lookup fp with
    | none => some .notExist
    | some content => if digest = ascii "sha256:" ++ sha content then none else some .digestMismatch

/-- The state of `PullModel`: the blobs, the map `skipVerify`, the digests it has downloaded, and those it has hashed
and found right. -/
structure Pulling where
  blobs : List (Bytes × Bytes)
  skipVerify : List (Bytes × Bool)
  downloaded : List Bytes
  verified : List Bytes

/-- The loop that downloads the layers, with the answers of the registry. -/
def downloadLayers : Pulling → List (Bytes × Option Bytes) → Pulling × Option PullErr
  | p, [] => (p, none)
  | p, (digest, answer) :: layers =>
    match downloadBlob p.blobs digest answer with
    | .error err => (p, some err)
    | .ok (cacheHit, blobs) =>
      let downloaded := if cacheHit then p.downloaded else p.downloaded ++ [digest]
      downloadLayers { p with blobs, skipVerify := Assoc.set p.skipVerify digest cacheHit, downloaded } layers

/-- The loop that verifies the layers. A blob that does not match is removed. -/
def verifyLayers : Pulling → List Bytes → Pulling × Option PullErr
  | p, [] => (p, none)
  | p, digest :: layers =>
    if (p.skipVerify.lookup digest).getD false then verifyLayers p layers
    else
      match verifyBlob sha p.blobs digest with
      | some .digestMismatch => ({ p with blobs := p.blobs.filter (fun e => getBlobsPath digest ≠ some e.1) },
          some .digestMismatch)
      | some err => (p, some err)
      | none => verifyLayers { p with verified := p.verified ++ [digest] } layers

/-- The layers that are pulled: those of the manifest, and its config if it has one. -/
def Manifest.pulled (m : Manifest) : List Bytes := m.layers ++ if m.config ≠ [] then [m.config] else []

/-- `PullModel`, from where the manifest of the registry is there: the library after it, what it did to the blobs, and
its error. Without an error it has written the manifest. `answers` are the registry's, one for each layer. -/
def pullModel (lib : Library) (path : Bytes) (m : Manifest) (answers : Nat → Option Bytes) (noPrune : Bool) :
    Library × Pulling × Option PullErr :=
  let old := ((lib.manifests.lookup path).join.map Manifest.pulled).getD []
  match downloadLayers ⟨lib.blobs, [], [], []⟩ (m.pulled.zipIdx.map (fun e => (e.1, answers e.2))) with
  | (p, some err) => ({ lib with blobs := p.blobs }, p, some err)
  | (p, none) =>
    match verifyLayers sha p m.pulled with
    | (p, some err) => ({ lib with blobs := p.blobs }, p, some err)
    | (p, none) =>
      let lib := { manifests := Assoc.set lib.manifests path (some m), blobs := p.blobs : Library }
      let deleteMap := old.filter (fun k => k ∉ m.digests)
      (if ¬noPrune ∧ deleteMap ≠ [] then lib.deleteUnusedLayers deleteMap else lib, p, none)

end Ollama.Server
