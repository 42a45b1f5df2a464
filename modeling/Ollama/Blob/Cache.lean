import Ollama.Lib.Assoc
import Ollama.Lib.Runes
import Ollama.Lib.System
import Ollama.Names.Name
import Mathlib.Data.List.Sort

/-!
# The disk cache

`server/internal/cache/blob`: blobs are files named by the SHA-256 of their content, and manifests are files named by
a model name. Both are written by `copyNamedFile`, which leaves a file of the right size as it is.

A cache is the contents of its files, on a file system that tells letter case apart and does not fail; a path is
relative to the directory of the cache. SHA-256 is a parameter. A reader is what its reads return, and may fail after
them.
-/

namespace Ollama.Blob

open Lib Utf8 Names

/-! ## Digests -/

/-- `Digest`. -/
structure Digest where
  sum : Bytes
  length_sum : sum.length = 32
  deriving DecidableEq

/-- The errors of the cache. -/
inductive Err where
  /-- `fs.ErrNotExist` -/
  | notExist
  /-- `invalid name` -/
  | invalidName
  /-- `invalid digest` -/
  | invalidDigest
  /-- `file content changed underfoot` -/
  | contentChanged
  /-- `content exceeds expected size: nextSize > size` -/
  | contentExceeds (nextSize size : Int)
  /-- `blob: expected size bytes, got n` -/
  | expectedBytes (size n : Int)
  /-- `io.ErrUnexpectedEOF` -/
  | unexpectedEOF
  /-- the error of a reader -/
  | read
  deriving DecidableEq

/-- The value of a hexadecimal digit. -/
def hexDigit (c : UInt8) : Option UInt8 :=
  if 0x30 ≤ c ∧ c ≤ 0x39 then some (c - 0x30)
  else if 0x61 ≤ c ∧ c ≤ 0x66 then some (c - 0x61 + 10)
  else if 0x41 ≤ c ∧ c ≤ 0x46 then some (c - 0x41 + 10)
  else none

/-- `hex.Decode`, of a text of even length. -/
def hexDecode : Bytes → Option Bytes
  | a :: b :: s => do
    let x ← hexDigit a
    let y ← hexDigit b
    let rest ← hexDecode s
    pure ((x * 16 + y) :: rest)
  | _ => some []

/-- `ParseDigest`. -/
def parseDigest (v : Bytes) : Except Err Digest :=
  match v.findIdx? (fun b => b = 0x3a ∨ b = 0x2d) with
  | none => .error .invalidDigest
  | some i =>
    if v.take i ≠ ascii "sha256" ∨ (v.drop (i + 1)).length ≠ 64 then .error .invalidDigest
    else
      match hexDecode (v.drop (i + 1)) with
      | none => .error .invalidDigest
      | some sum => if h : sum.length = 32 then .ok ⟨sum, h⟩ else .error .invalidDigest

/-! ## Files -/

/-- A reader: what its reads return, and whether it fails then. -/
structure Reader where
  reads : List Bytes
  fails : Bool := false

/-- `bytes.NewReader`. -/
def Reader.ofBytes (data : Bytes) : Reader := ⟨[data], false⟩

/-- The parts of a content that are read with a buffer of `k + 1` bytes. -/
def chunks (k : Nat) : (fuel : Nat) → Bytes → List Bytes
  | _, [] => []
  | 0, _ :: _ => []
  | fuel + 1, b :: s => (b :: s).take (k + 1) :: chunks k fuel ((b :: s).drop (k + 1))

/-- A file that is read, with the buffer of `io.Copy`. -/
def Reader.ofFile (content : Bytes) : Reader := ⟨chunks 32767 content.length content, false⟩

/-- A write to a file at an offset. Past the end of the file the bytes before it are zero. -/
def writeAt (file : Bytes) (n : Nat) (p : Bytes) : Bytes :=
  file.take n ++ List.replicate (n - file.length) 0 ++ p ++ file.drop (n + p.length)

/-- `checkWriter`: the bytes written, those that are hashed, and the file. -/
structure CheckWriter where
  n : Nat
  h : Bytes
  f : Bytes

variable (sha : Bytes → Digest)

/-- `checkWriter.Write`. -/
def CheckWriter.write (d : Digest) (size : Int) (w : CheckWriter) (p : Bytes) : CheckWriter × Option Err :=
  let h := w.h ++ p
  let nextSize : Int := w.n + p.length
  if nextSize = size ∧ sha h ≠ d then ({ w with h }, some .contentChanged)
  else if nextSize > size then ({ w with h }, some (.contentExceeds nextSize size))
  else (⟨w.n + p.length, h, writeAt w.f w.n p⟩, none)

/-- `io.Copy` to a `checkWriter`: a read that returns nothing is followed by the next. -/
def copyReads (d : Digest) (size : Int) : CheckWriter → List Bytes → CheckWriter × Option Err
  | w, [] => (w, none)
  | w, p :: reads =>
    if p = [] then copyReads d size w reads
    else
      match w.write sha d size p with
      | (w, some err) => (w, some err)
      | (w, none) => copyReads d size w reads

/-- `copyNamedFile` from where the file is open: what is in it then, and the error. -/
def copyOpened (f : Bytes) (file : Reader) (out : Digest) (size : Int) : Bytes × Option Err :=
  if size = 0 then (f, none)
  else
    match copyReads sha out size ⟨0, [], f⟩ file.reads with
    | (_, some err) => ([], some err)
    | (w, none) =>
      if file.fails then ([], some .read)
      else if (w.n : Int) < size then ([], some .unexpectedEOF)
      else (w.f, none)

/-- `copyNamedFile`. A file that is longer is truncated as it is opened. -/
def copyNamedFile (old : Option Bytes) (file : Reader) (out : Digest) (size : Int) : Bytes × Option Err :=
  match old with
  | none => copyOpened sha [] file out size
  | some content =>
    if (content.length : Int) = size then (content, none)
    else copyOpened sha (if (content.length : Int) > size then [] else content) file out size

/-! ## Names -/

/-- `splitNameDigest`. -/
def splitNameDigest (s : Bytes) : Bytes × Bytes :=
  match cutLastAny [0x40] s with
  | none => (s, [])
  | some (name, digest, _) => (name, digest)

/-- `filepath.Join`, for parts with nothing to clean. -/
def join (parts : List Bytes) : Bytes := [0x2f].intercalate parts

/-- `nameToPath`. -/
def nameToPath (name : Bytes) : Except Err Bytes :=
  if 0x40 ∈ name then .error .invalidName
  else
    let n := parse name
    if n.isFullyQualified then .ok (join [n.h, n.n, n.m, n.t]) else .error .invalidName

/-- The loop of `pathToName`: the last slash, but not one at the start, becomes a colon. -/
def colonFrom (rr : List Nat) : Nat → Option (List Nat)
  | 0 => none
  | i + 1 => if rr[i + 1]? = some 0x2f then some (rr.set (i + 1) 0x3a) else colonFrom rr i

/-- `pathToName`. -/
def pathToName (s : Bytes) : Bytes :=
  let s := if (ascii "manifests/").isPrefixOf s then s.drop 10 else s
  let rr := runes s
  match colonFrom rr (rr.length - 1) with
  | none => s
  | some rr => ofRunes rr

/-! ## The cache -/

/-- `DiskCache`. -/
structure DiskCache where
  blobs : List (Digest × Bytes)
  manifests : List (Bytes × Bytes)

/-- What `Open` makes of an empty directory. -/
def DiskCache.open_ : DiskCache := ⟨[], []⟩

/-- Lexical order of paths, part by part. -/
def pathLe (p q : Bytes) : Prop := p.splitOn 0x2f ≤ q.splitOn 0x2f

instance (p q : Bytes) : Decidable (pathLe p q) := inferInstanceAs (Decidable (_ ≤ _))

/-- `links`. -/
def DiskCache.links (c : DiskCache) : List Bytes := (c.manifests.map Prod.fst).insertionSort pathLe

/-- `manifestPath`. -/
def DiskCache.manifestPath (c : DiskCache) (name : Bytes) : Except Err Bytes :=
  match nameToPath name with
  | .error err => .error err
  | .ok np =>
    let maybe := join [ascii "manifests", np]
    .ok ((c.links.find? (fun l => equalFold maybe l)).getD maybe)

/-- `Put`. -/
def DiskCache.put (c : DiskCache) (d : Digest) (r : Reader) (size : Int) : DiskCache × Option Err :=
  let (file, err) := copyNamedFile sha (c.blobs.lookup d) r d size
  ({ c with blobs := Assoc.set c.blobs d file }, err)

/-- `PutBytes`. -/
def DiskCache.putBytes (c : DiskCache) (d : Digest) (data : Bytes) : DiskCache × Option Err :=
  c.put sha d (.ofBytes data) data.length

/-- `Import`. -/
def DiskCache.importBlob (c : DiskCache) (r : Reader) (size : Int) : DiskCache × Except Err Digest :=
  let content := r.reads.flatten
  if r.fails then (c, .error .read)
  else if (content.length : Int) ≠ size then (c, .error (.expectedBytes size content.length))
  else ({ c with blobs := Assoc.set c.blobs (sha content) content }, .ok (sha content))

/-- `Get`: the size of a blob. -/
def DiskCache.get (c : DiskCache) (d : Digest) : Except Err Nat :=
  match c.blobs.lookup d with
  | none => .error .notExist
  | some content => if content.length = 0 then .error .notExist else .ok content.length

/-- `Link`. -/
def DiskCache.link (c : DiskCache) (name : Bytes) (d : Digest) : DiskCache × Option Err :=
  match c.manifestPath name with
  | .error err => (c, some err)
  | .ok manifest =>
    match c.blobs.lookup d with
    | none => (c, some .notExist)
    | some content =>
      let (file, err) := copyNamedFile sha (c.manifests.lookup manifest) (.ofFile content) d content.length
      ({ c with manifests := Assoc.set c.manifests manifest file }, err)

/-- `Unlink`. -/
def DiskCache.unlink (c : DiskCache) (name : Bytes) : DiskCache × Except Err Bool :=
  match c.manifestPath name with
  | .error err => (c, .error err)
  | .ok manifest =>
    if (c.manifests.lookup manifest).isSome
      then ({ c with manifests := c.manifests.filter (fun e => e.1 ≠ manifest) }, .ok true)
    else (c, .ok false)

/-- `Resolve`. -/
def DiskCache.resolve (c : DiskCache) (name : Bytes) : DiskCache × Except Err Digest :=
  let (name, digest) := splitNameDigest name
  if digest ≠ [] then (c, parseDigest digest)
  else
    match c.manifestPath name with
    | .error err => (c, .error err)
    | .ok file =>
      match c.manifests.lookup file with
      | none => (c, .error .notExist)
      | some content =>
        let data := content.take (1 <<< 20)
        match c.putBytes sha (sha data) data with
        | (c, some err) => (c, .error err)
        | (c, none) => (c, .ok (sha data))

/-! ## Runs -/

/-- The calls that change a cache. -/
inductive Call where
  | put (d : Digest) (r : Reader) (size : Int)
  | importBlob (r : Reader) (size : Int)
  | link (name : Bytes) (d : Digest)
  | unlink (name : Bytes)
  | resolve (name : Bytes)

/-- The cache after a call. -/
def Call.run (c : DiskCache) : Call → DiskCache
  | .put d r size => (c.put sha d r size).1
  | .importBlob r size => (c.importBlob sha r size).1
  | .link name d => (c.link sha name d).1
  | .unlink name => (c.unlink name).1
  | .resolve name => (c.resolve sha name).1

/-- The runs of calls on a cache that starts empty. -/
def diskCache : System DiskCache where
  init c := c = .open_
  step c c' := ∃ call : Call, c' = call.run sha c

end Ollama.Blob
