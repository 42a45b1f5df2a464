import Ollama.Ggml.Tensor
import Ollama.Lib.Assoc
import Ollama.Lib.Binary
import Ollama.Lib.Sorting

/-!
# GGUF files

`fs/ggml/gguf.go` and `Decode` of `fs/ggml/ggml.go`. A file is a list of bytes, and the decoder is a reader of it, so
its position is what it has read; the version, the byte order, the largest array to collect and the largest number of
bytes that can be allocated at once are what its readers share. Panics are errors of their own; to ask for more bytes
than that is one, and so is to ask for a negative number. Without a limit every allocation succeeds.

The comparison that `WriteGGUF` sorts tensors by is not an order: a tensor without a block comes before block 0, block
0 before block 1, and block 1 before a tensor without a block. What a sort makes of it is left open (`StableSort`).
-/

namespace Ollama.Ggml

open Lib Reader

/-- What decoding fails with. A panic ends the caller, all others are returned. -/
inductive Err where
  | eof
  | unexpectedEOF
  | invalidFileMagic
  | invalidType (t : UInt32)
  | invalidArrayType (t : UInt32)
  | negativePosition
  | wrapped (text : String) (err : Err)
  | panic
  deriving DecidableEq, Repr

/-- A value that is not an array. Floating-point numbers are their bits. -/
inductive Scalar where
  | uint8 (v : UInt8)
  | int8 (v : Int8)
  | uint16 (v : UInt16)
  | int16 (v : Int16)
  | uint32 (v : UInt32)
  | int32 (v : Int32)
  | float32 (bits : UInt32)
  | bool (v : Bool)
  | string (v : Bytes)
  | uint64 (v : UInt64)
  | int64 (v : Int64)
  | float64 (bits : UInt64)
  deriving DecidableEq

/-- A value of the key-value part of a file. An array has its size, and its values when they were collected. -/
inductive Value where
  | scalar (v : Scalar)
  | array (size : Nat) (values : Option (List Scalar))
  deriving DecidableEq

/-- `containerGGUF`: what is read before the model. -/
structure ContainerGGUF where
  byteOrder : ByteOrder
  version : UInt32
  numTensor : UInt64
  numKV : UInt64
  maxArraySize : Int
  maxAlloc : Option Nat

/-- `canCollectArray`. -/
def ContainerGGUF.canCollectArray (c : ContainerGGUF) (size : Nat) : Bool := c.maxArraySize < 0 ∨ size ≤ c.maxArraySize

/-! ## Reading values -/

/-- `io.ReadFull`. -/
def readFull (n : Nat) : Reader Err Bytes := fun s =>
  if n ≤ s.length then .ok (s.take n, s.drop n)
  else .error (if s.length = 0 then .eof else .unexpectedEOF)

/-- A number of `n` bytes, as `binary.Read` reads it. -/
def readUint (order : ByteOrder) (n : Nat) : Reader Err Nat := do
  let b ← readFull n
  pure (order.uint b)

/-- `readGGUFV1String`: the last byte is a terminator. -/
def readGGUFV1String (c : ContainerGGUF) : Reader Err Bytes := do
  let length ← readUint c.byteOrder 8
  fun s =>
    if length = 0 ∨ 2 ^ 63 ≤ length then .error .panic
    else if length ≤ s.length then .ok (s.take (length - 1), s.drop length)
    else .error .eof

/-- `make` of a slice of so many elements of `width` bytes. -/
def make (c : ContainerGGUF) (width n : Nat) : Reader Err Unit :=
  if makes c.maxAlloc width n then pure () else fail .panic

/-- What a string is read into: a part of `scratch`, or a new buffer. A length from 2^63 on is negative as an `int`. -/
def stringBuffer (c : ContainerGGUF) (length : Nat) : Reader Err Unit :=
  if 2 ^ 63 ≤ length then fail .panic else if 16 * 1024 < length then make c 1 length else pure ()

/-- `readGGUFString`. -/
def readGGUFString (c : ContainerGGUF) : Reader Err Bytes :=
  if c.version = 1 then readGGUFV1String c
  else do
    let length ← readUint c.byteOrder 8
    let _ ← stringBuffer c length
    readFull length

/-- `discardGGUFString`. -/
def discardGGUFString (c : ContainerGGUF) : Reader Err Unit := do
  let size ← readUint c.byteOrder 8
  fun s =>
    if 2 ^ 63 ≤ size then .ok ((), s)
    else if size ≤ s.length then .ok ((), s.drop size)
    else .error .eof

/-- A string as a value. -/
def readStr (c : ContainerGGUF) : Reader Err Scalar := do
  let s ← readGGUFString c
  pure (.string s)

/-- A string that is not collected. -/
def skipStr (c : ContainerGGUF) : Reader Err Scalar := do
  discardGGUFString c
  pure (.string [])

/-- A value of a type that has one, strings read by `str`. -/
def readScalar (c : ContainerGGUF) (str : Reader Err Scalar) (t : UInt32) : Option (Reader Err Scalar) :=
  match t.toNat with
  | 0 => some (do pure (.uint8 (UInt8.ofNat (← readUint c.byteOrder 1))))
  | 1 => some (do pure (.int8 (UInt8.ofNat (← readUint c.byteOrder 1)).toInt8))
  | 2 => some (do pure (.uint16 (UInt16.ofNat (← readUint c.byteOrder 2))))
  | 3 => some (do pure (.int16 (UInt16.ofNat (← readUint c.byteOrder 2)).toInt16))
  | 4 => some (do pure (.uint32 (UInt32.ofNat (← readUint c.byteOrder 4))))
  | 5 => some (do pure (.int32 (UInt32.ofNat (← readUint c.byteOrder 4)).toInt32))
  | 6 => some (do pure (.float32 (UInt32.ofNat (← readUint c.byteOrder 4))))
  | 7 => some (do pure (.bool ((← readUint c.byteOrder 1) ≠ 0)))
  | 8 => some str
  | 10 => some (do pure (.uint64 (UInt64.ofNat (← readUint c.byteOrder 8))))
  | 11 => some (do pure (.int64 (UInt64.ofNat (← readUint c.byteOrder 8)).toInt64))
  | 12 => some (do pure (.float64 (UInt64.ofNat (← readUint c.byteOrder 8))))
  | _ => none

theorem readScalar_string {c : ContainerGGUF} (str : Reader Err Scalar) {t : UInt32} (ht : t.toNat = 8) :
    readScalar c str t = some str := by
  unfold readScalar
  rw [ht]
  rfl

/-- What strings are read by matters for strings only. -/
theorem readScalar_of_ne {c : ContainerGGUF} (str str' : Reader Err Scalar) {t : UInt32} (ht : t.toNat ≠ 8) :
    readScalar c str t = readScalar c str' t := by
  unfold readScalar
  split
  all_goals first
    | rfl
    | exact absurd (by assumption) ht

/-- An element of an array of a type. -/
def readElement (c : ContainerGGUF) (str : Reader Err Scalar) (t : UInt32) : Reader Err Scalar :=
  (readScalar c str t).getD (fail (.invalidArrayType t))

/-- `readGGUFV1Array`. A collected array is made with no elements, so that the first one is out of its range. -/
def readGGUFV1Array (c : ContainerGGUF) : Reader Err Value := do
  let t ← readUint c.byteOrder 4
  let n ← readUint c.byteOrder 4
  let element := readElement c (do pure (.string (← readGGUFV1String c))) (UInt32.ofNat t)
  if c.canCollectArray n then do
    let _ ← make c 16 n
    if n = 0 then pure (.array n (some []))
    else do
      let _ ← element
      fail .panic
  else do
    let _ ← element.times n
    pure (.array n none)

/-- `readGGUFArray`. -/
def readGGUFArray (c : ContainerGGUF) : Reader Err Value :=
  if c.version = 1 then readGGUFV1Array c
  else do
    let t ← readUint c.byteOrder 4
    let n ← readUint c.byteOrder 8
    if 2 ^ 63 ≤ n then fail .panic
    else if c.canCollectArray n then do
      let _ ← make c 16 n
      let values ← (readElement c (readStr c) (UInt32.ofNat t)).times n
      pure (.array n (some values))
    else do
      let _ ← (readElement c (skipStr c) (UInt32.ofNat t)).times n
      pure (.array n none)

/-- A key and its value. -/
def readKV (c : ContainerGGUF) : Reader Err (Bytes × Value) := do
  let k ← readGGUFString c
  let t ← readUint c.byteOrder 4
  if t = 9 then
    let v ← readGGUFArray c
    pure (k, v)
  else
    let v ← (readScalar c (readStr c) (UInt32.ofNat t)).getD (fail (.invalidType (UInt32.ofNat t)))
    pure (k, .scalar v)

/-- What is read of a tensor. -/
def readTensor (c : ContainerGGUF) : Reader Err Tensor := do
  let name ← (readGGUFString c).mapError (.wrapped "failed to read tensor name")
  let dims ← (readUint c.byteOrder 4).mapError (.wrapped "failed to read tensor dimensions")
  let _ ← make c 8 dims
  let shape ← ((readUint c.byteOrder 8).mapError (.wrapped "failed to read tensor shape")).times dims
  let kind ← (readUint c.byteOrder 4).mapError (.wrapped "failed to read tensor kind")
  let offset ← (readUint c.byteOrder 8).mapError (.wrapped "failed to read tensor offset")
  pure { name := name, kind := UInt32.ofNat kind, offset := UInt64.ofNat offset, shape := shape.map UInt64.ofNat }

/-! ## Decode -/

/-- `gguf`. -/
structure Gguf where
  kv : List (Bytes × Value)
  tensors : List Tensor
  parameters : UInt64
  tensorOffset : Nat
  deriving DecidableEq

/-- `ggufPadding`, of an alignment that is not 0. -/
def ggufPadding (offset align : Nat) : Nat := (align - offset % align) % align

/-- The alignment of the tensors. -/
def alignmentOf (kv : List (Bytes × Value)) : Nat :=
  match kv.lookup (ascii "general.alignment") with
  | some (.scalar (.uint32 a)) => a.toNat
  | _ => 32

/-- A seek from a position. -/
def seek (pos : Nat) (offset : Int) : Except Err Nat :=
  if 0 ≤ (pos : Int) + offset ∧ (pos : Int) + offset < 2 ^ 63 then .ok ((pos : Int) + offset).toNat
    else .error .negativePosition

/-- The loop that passes the tensors. -/
def seekTensors (alignment : Nat) : List Tensor → Nat → Except Err Nat
  | [], pos => .ok pos
  | t :: ts, pos => do
    let pos ← (seek pos (ggufPadding pos alignment)).mapError (.wrapped "failed to seek to init padding")
    let pos ← (seek pos t.size.toInt64.toInt).mapError (.wrapped "failed to seek to tensor")
    seekTensors alignment ts pos

/-- What `gguf.Decode` makes of the keys and the tensors it has read, at its position: the model and the end. -/
def finish (kv : List (Bytes × Value)) (tensors : List Tensor) (pos : Nat) : Except Err (Gguf × Nat) :=
  let parameters := tensors.foldl (fun n t => n + t.parameters) 0
  let kv := Assoc.set (kv.foldl (fun kv e => Assoc.set kv e.1 e.2) []) (ascii "general.parameter_count")
    (.scalar (.uint64 parameters))
  let alignment := alignmentOf kv
  if alignment = 0 then .error .panic
  else do
    let stop ← seekTensors alignment tensors pos
    pure
      ({ kv := kv, tensors := tensors, parameters := parameters, tensorOffset := pos + ggufPadding pos alignment },
      stop)

/-- What is read before the model. -/
def readContainer (maxAlloc : Option Nat) (maxArraySize : Int) : Reader Err ContainerGGUF := do
  let magic ← readUint .littleEndian 4
  if magic ≠ 0x46554747 ∧ magic ≠ 0x47475546 then fail .invalidFileMagic
  else do
    let order := if magic = 0x46554747 then ByteOrder.littleEndian else .bigEndian
    let version ← readUint order 4
    let width := if version = 1 then 4 else 8
    let b ← readFull (2 * width)
    pure ⟨order, UInt32.ofNat version, UInt64.ofNat (order.uint (b.take width)),
      UInt64.ofNat (order.uint (b.drop width)), maxArraySize, maxAlloc⟩

/-- The keys and the tensors of a file. -/
def readHeader (maxAlloc : Option Nat) (maxArraySize : Int) : Reader Err (List (Bytes × Value) × List Tensor) := do
  let c ← readContainer maxAlloc maxArraySize
  let kv ← (readKV c).times c.numKV.toNat
  let tensors ← (readTensor c).times c.numTensor.toNat
  pure (kv, tensors)

/-- `Decode` at a position of a file, with the bytes from there on: the model and the end of it in the file. -/
def decodeAt (maxAlloc : Option Nat) (maxArraySize : Int) (start : Nat) (file : Bytes) : Except Err (Gguf × Nat) :=
  match readHeader maxAlloc (if maxArraySize = 0 then 1024 else maxArraySize) file with
  | .error e => .error e
  | .ok ((kv, tensors), rest) => finish kv tensors (start + (file.length - rest.length))

/-- `Decode` of a file from its beginning, where every allocation succeeds. -/
def decode (maxArraySize : Int) (file : Bytes) : Except Err (Gguf × Nat) := decodeAt none maxArraySize 0 file

/-! ## WriteGGUF -/

/-- What a value given to `WriteGGUF` may be; `other` is any type it does not write. -/
inductive Any where
  | uint32 (v : UInt32)
  | float32 (bits : UInt32)
  | bool (v : Bool)
  | string (v : Bytes)
  | int32s (vs : List Int32)
  | uint32s (vs : List UInt32)
  | float32s (bits : List UInt32)
  | strings (vs : List Bytes)
  | other
  deriving DecidableEq

/-- `KV`: a map, so that no key is there twice. -/
structure KV where
  entries : List (Bytes × Any)
  nodup : (entries.map Prod.fst).Nodup

/-- What `WriteGGUF` fails with. No file has 2^63 bytes. -/
inductive WriteErr where
  | improperType (key : Bytes)
  | fileTooLarge
  deriving DecidableEq, Repr

/-- A string as it stands in an array. -/
def writeString (s : Bytes) : Bytes := le 8 s.length ++ s

/-- `writeGGUFArray`. -/
def writeGGUFArray (t : Nat) {α : Type} (enc : α → Bytes) (vs : List α) : Bytes :=
  le 4 9 ++ le 4 t ++ le 8 vs.length ++ vs.flatMap enc

/-- A value after its key. -/
def writeValue : Any → Option Bytes
  | .uint32 v => some (le 4 4 ++ le 4 v.toNat)
  | .float32 bits => some (le 4 6 ++ le 4 bits.toNat)
  | .bool v => some (le 4 7 ++ le 1 v.toNat)
  | .string v => some (le 4 8 ++ writeString v)
  | .int32s vs => some (writeGGUFArray 5 (fun v => le 4 v.toUInt32.toNat) vs)
  | .uint32s vs => some (writeGGUFArray 4 (fun v => le 4 v.toNat) vs)
  | .float32s bits => some (writeGGUFArray 6 (fun v => le 4 v.toNat) bits)
  | .strings vs => some (writeGGUFArray 8 writeString vs)
  | .other => none

/-- `ggufWriteKV`. -/
def ggufWriteKV (e : Bytes × Any) : Except WriteErr Bytes :=
  match writeValue e.2 with
  | some v => .ok (writeString e.1 ++ v)
  | none => .error (.improperType e.1)

/-- The entries in the order of their keys. -/
def KV.sorted (kv : KV) : List (Bytes × Any) := kv.entries.mergeSort (fun a b => decide (a.1 ≤ b.1))

/-- `ggufWriteTensorInfo`. -/
def ggufWriteTensorInfo (t : Tensor) : Bytes :=
  writeString t.name ++ le 4 t.shape.length ++ t.shape.reverse.flatMap (fun n => le 8 n.toNat) ++ le 4 t.kind.toNat ++
    le 8 t.offset.toNat

/-- The tensors with their offsets, the first at `s`. -/
def withOffsets : UInt64 → List Tensor → List Tensor
  | _, [] => []
  | s, t :: ts => { t with offset := s } :: withOffsets (s + t.size) ts

/-- `ggufWriteTensor` for each tensor, at the end of a file. -/
def ggufWriteTensors (alignment : Nat) : List Tensor → Bytes → Bytes
  | [], file => file
  | t :: ts, file =>
    ggufWriteTensors alignment ts (file ++ List.replicate (ggufPadding file.length alignment) 0 ++ t.writerTo)

/-- `slices.SortStableFunc`, as much as it promises of any comparison: a rearrangement, made by comparing elements only. -/
structure StableSort where
  run : {α : Type} → (α → α → Int) → List α → List α
  perm : ∀ {α : Type} (cmp : α → α → Int) (l : List α), (run cmp l).Perm l
  map : ∀ {α β : Type} (f : α → β) (cmp : β → β → Int) (l : List α),
    (run (fun a b => cmp (f a) (f b)) l).map f = run cmp (l.map f)

/-- What it promises of a comparison that is a strict weak ordering on the list: an order, in which ties stand as they
did. -/
structure StableSort.Lawful (sort : StableSort) : Prop where
  sorted : ∀ {α : Type} (cmp : α → α → Int) (l : List α), StrictWeak cmp l → Sorted cmp (sort.run cmp l)
  ties : ∀ {α : Type} (cmp : α → α → Int) (l : List α), StrictWeak cmp l → SameTies cmp l (sort.run cmp l)

/-- Insertion sort, as a stable sort is for short lists. -/
def insertionSort : StableSort where
  run := insertAll
  perm := insertAll_perm
  map := insertAll_map

theorem insertionSort_lawful : insertionSort.Lawful := ⟨fun _ _ => insertAll_sorted, fun _ _ => insertAll_ties⟩

/-- The part of a file before the data. -/
def writeHeader (kvs : List Bytes) (ts : List Tensor) : Bytes :=
  ascii "GGUF" ++ le 4 3 ++ le 8 ts.length ++ le 8 kvs.length ++ kvs.flatten ++
    (withOffsets 0 ts).flatMap ggufWriteTensorInfo

/-- `WriteGGUF`: the file. -/
def writeGGUF (sort : StableSort) (kv : KV) (ts : List Tensor) : Except WriteErr Bytes := do
  let kvs ← kv.sorted.mapM ggufWriteKV
  let ts := sort.run compareBlocks ts
  let file := ggufWriteTensors 32 ts (writeHeader kvs ts)
  if file.length < 2 ^ 63 then .ok file else .error .fileTooLarge

end Ollama.Ggml
