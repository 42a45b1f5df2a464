import Ollama.Ggml.Tensor
import Ollama.Lib.Binary
import Ollama.Lib.Json
import Ollama.Lib.Replacer

/-!
# Safetensors files

`parseTensors` of `convert/reader.go`, as far as it is about safetensors, and `parseSafetensors` and `WriteTo` of
`convert/reader_safetensors.go`. A file starts with the length of its header, a signed number, and the header, which
is decoded by the decoder of `encoding/json`. A 32-bit or 16-bit floating-point number is its bits, and the packages
that convert them are a parameter, as is the largest number of bytes that can be allocated at once: to ask for more
panics, and so does a negative number.
-/

namespace Ollama.Convert

open Lib Json

/-- The errors of the reader. -/
inductive Failure where
  /-- the file cannot be opened -/
  | notExist
  /-- `io.EOF` or `io.ErrUnexpectedEOF` -/
  | eof
  /-- the file cannot seek to the offset -/
  | seek
  /-- the header is not decoded -/
  | decode
  /-- `unsupported safetensors model` -/
  | unsupported
  /-- `duplicate tensor name '%s' was found for this model` -/
  | duplicate (ggufName : Bytes)
  /-- `unknown data type: %s` -/
  | unknownDataType (dtype : Bytes)
  /-- `unknown storage type: %d` -/
  | unknownStorageType (kind : UInt32)
  /-- the error of a repacker -/
  | repack
  | panicked
  deriving DecidableEq, Repr

/-! ## Files -/

/-- A file, and whether it is an `io.Seeker`. -/
structure File where
  bytes : Bytes
  seekable : Bool := true
  deriving DecidableEq, Repr

/-- A directory: its entries in the order in which `fs.ReadDir` lists them. -/
structure FS where
  entries : List (Bytes × File)
  sorted : (entries.map Prod.fst).Pairwise (· < ·)

/-- `Open`. -/
def FS.open (fsys : FS) (path : Bytes) : Option File := fsys.entries.lookup path

/-- `path.Match` of a name without a slash, for a pattern that has no special character but `*`. -/
def globMatch : (pattern name : Bytes) → Bool
  | [], name => name.isEmpty
  | c :: pattern, name =>
    if c = 0x2A then name.tails.any (globMatch pattern)
    else
      match name with
      | [] => false
      | b :: name => b = c && globMatch pattern name

/-- `fs.Glob`. -/
def FS.glob (fsys : FS) (pattern : Bytes) : List Bytes := (fsys.entries.map Prod.fst).filter (globMatch pattern)

/-- What is left of a file from an offset on. A file that cannot seek is read up to there, and one that can refuses
what is negative. -/
def File.seekStart (f : File) (offset : Int) : Except Failure Bytes :=
  if f.seekable then if offset < 0 then .error .seek else .ok (f.bytes.drop offset.toNat)
  else if (f.bytes.length : Int) < offset then .error .eof
  else .ok (f.bytes.drop offset.toNat)

/-- The next bytes, all of them or none. -/
def readFull (n : Nat) (bytes : Bytes) : Except Failure Bytes :=
  if bytes.length < n then .error .eof else .ok (bytes.take n)

/-- `make` of a slice of elements of `width` bytes. -/
def make (maxAlloc width : Nat) (n : Int) : Except Failure Nat :=
  if makes (some maxAlloc) width n then .ok n.toNat else .error .panicked

/-! ## Tensors -/

/-- `repacker`. -/
abbrev Repacker := Bytes → List UInt32 → List UInt64 → Except Failure (List UInt32)

/-- `safetensor`, with its `tensorBase`. It has a shape, since the reader refuses a tensor without one. -/
structure Safetensor where
  path : Bytes
  dtype : Bytes
  offset : Int
  size : Int
  name : Bytes
  shape : List UInt64
  repacker : Option Repacker := none
  shape_ne : shape ≠ []

/-- `Kind`: `tensorKindF32` or `tensorKindF16`. -/
def Safetensor.kind (st : Safetensor) : UInt32 :=
  if ascii ".ffn_gate_inp.weight" <:+ st.name ∨ st.name = ascii "token_types.weight" then 0
  else if st.shape.length = 1 then 0
  else 1

/-- The packages `float16` and `bfloat16`. `decodeFloat32` has no outcome where it panics. -/
structure Floats where
  frombits : UInt16 → UInt32
  fromfloat32 : UInt32 → UInt16
  decodeFloat32 : Bytes → Option (List UInt32)

/-- So many numbers of `width` bytes, the lowest byte first. -/
def numbers (width n : Nat) (bytes : Bytes) : List Nat :=
  (List.range n).map (fun i => ofLe ((bytes.drop (width * i)).take width))

section

variable (floats : Floats) (maxAlloc : Nat)

/-- The numbers that `WriteTo` reads from where the data begins. -/
def Safetensor.read (st : Safetensor) (bytes : Bytes) : Except Failure (List UInt32) := do
  if st.dtype = ascii "F32" then
    let n ← make maxAlloc 4 (st.size.tdiv 4)
    let f32s ← readFull (4 * n) bytes
    pure ((numbers 4 n f32s).map UInt32.ofNat)
  else if st.dtype = ascii "F16" then
    let n ← make maxAlloc 2 (st.size.tdiv 2)
    let u16s ← readFull (2 * n) bytes
    let _ ← make maxAlloc 4 n
    pure ((numbers 2 n u16s).map (fun bits => floats.frombits (UInt16.ofNat bits)))
  else if st.dtype = ascii "BF16" then
    let n ← make maxAlloc 1 st.size
    let u8s ← readFull n bytes
    match floats.decodeFloat32 u8s with
    | some f32s => pure f32s
    | none => .error .panicked
  else .error (.unknownDataType st.dtype)

/-- `WriteTo`: what is written. -/
def Safetensor.writeTo (fsys : FS) (st : Safetensor) : Except Failure Bytes := do
  let f ← (fsys.open st.path).elim (.error .notExist) .ok
  let bytes ← f.seekStart st.offset
  let f32s ← st.read floats maxAlloc bytes
  let f32s ← match st.repacker with
    | some repacker => repacker st.name f32s st.shape
    | none => pure f32s
  if st.kind = 0 then pure (f32s.flatMap (fun bits => le 4 bits.toNat))
  else if st.kind = 1 then pure (f32s.flatMap (fun bits => le 2 (floats.fromfloat32 bits).toNat))
  else .error (.unknownStorageType st.kind)

end

/-! ## Headers -/

/-- `safetensorMetadata`. -/
structure SafetensorMetadata where
  dtype : Bytes
  shape : List UInt64
  offsets : List Int
  deriving DecidableEq, Repr

/-- A decoded header: a map from names. -/
structure Headers where
  entries : List (Bytes × SafetensorMetadata)
  nodup : (entries.map Prod.fst).Nodup

/-- The entries in the order of their keys. -/
def Headers.sorted (headers : Headers) : List (Bytes × SafetensorMetadata) :=
  headers.entries.mergeSort (fun a b => decide (a.1 ≤ b.1))

/-- `safetensorsPad`. -/
def safetensorsPad (n offset : Int) : Int := (8 + n + offset).bmod (2 ^ 64)

/-- The number a file starts with. -/
def headerLength (bytes : Bytes) : Option Int :=
  if bytes.length < 8 then none else some ((ofLe (bytes.take 8) : Int).bmod (2 ^ 64))

section

variable (u : Unmarshal Headers) (maxAlloc : Nat) (fsys : FS) (replacer : Replacer)

/-- The length of the header and the header. -/
def readHeaders (bytes : Bytes) : Except Failure (Int × Headers) :=
  match headerLength bytes with
  | none => .error .eof
  | some n =>
    match make maxAlloc 1 n with
    | .error e => .error e
    | .ok size =>
      match readFull size (bytes.drop 8) with
      | .error e => .error e
      | .ok text =>
        match Json.decode u text with
        | .ok headers _ => .ok (n, headers)
        | _ => .error .decode

/-- The loop over the keys of a file. -/
def addTensors (p : Bytes) (n : Int) :
    List (Bytes × SafetensorMetadata) → (names : List Bytes) → (ts : List Safetensor) → Except Failure (List Safetensor)
  | [], _, ts => .ok ts
  | (key, value) :: keys, names, ts =>
    if value.dtype = [] then addTensors p n keys names ts
    else if hshape : value.shape = [] then .error .unsupported
    else
      let ggufName := replacer.replace key
      if ggufName ∈ names then .error (.duplicate ggufName)
      else
        match value.offsets with
        | start :: stop :: _ =>
          addTensors p n keys (ggufName :: names) (ts ++ [{
            path := p
            dtype := value.dtype
            offset := safetensorsPad n start
            size := (safetensorsPad n stop - safetensorsPad n start).bmod (2 ^ 64)
            name := ggufName
            shape := value.shape
            shape_ne := hshape }])
        | _ => .error .panicked

/-- `parseSafetensors`, of one file. -/
def parseSafetensorsFile (p : Bytes) : Except Failure (List Safetensor) :=
  match fsys.open p with
  | none => .error .notExist
  | some f =>
    match readHeaders u maxAlloc f.bytes with
    | .error e => .error e
    | .ok (n, headers) => addTensors replacer p n headers.sorted [] []

/-- `parseSafetensors`. -/
def parseSafetensors : (ps : List Bytes) → Except Failure (List Safetensor)
  | [] => .ok []
  | p :: ps =>
    match parseSafetensorsFile u maxAlloc fsys replacer p with
    | .error e => .error e
    | .ok ts =>
      match parseSafetensors ps with
      | .error e => .error e
      | .ok rest => .ok (ts ++ rest)

/-- The patterns of safetensors files, in the order in which they are tried. -/
def patterns : List Bytes :=
  [ascii "model-*-of-*.safetensors", ascii "model.safetensors", ascii "adapters.safetensors",
    ascii "adapter_model.safetensors"]

/-- The files of the first pattern that has a match. -/
def matched : Option (List Bytes) := (patterns.map fsys.glob).find? (fun ps => !ps.isEmpty)

/-- `parseTensors`. Without safetensors files, others are looked for. -/
def parseTensors : Option (Except Failure (List Safetensor)) :=
  (matched fsys).map (parseSafetensors u maxAlloc fsys replacer)

end

end Ollama.Convert
