import Ollama.Lib.Runes

/-!
# Tensors

`Tensor` of `fs/ggml/ggml.go`: its name, kind and shape, and the sizes that follow from them, all in 64-bit arithmetic
that wraps around.
-/

namespace Ollama.Ggml

open Lib

/-- `Tensor`. `writerTo` is what its `WriteTo` writes; a tensor that was decoded has none. -/
structure Tensor where
  name : Bytes
  kind : UInt32
  offset : UInt64 := 0
  shape : List UInt64
  writerTo : Bytes := []
  deriving DecidableEq, Repr

/-- `blockSize`. -/
def Tensor.blockSize (t : Tensor) : UInt64 :=
  match t.kind.toNat with
  | 0 | 1 | 24 | 25 | 26 | 27 | 28 | 30 => 1
  | 2 | 3 | 6 | 7 | 8 | 9 | 20 => 32
  | _ => 256

/-- `typeSize`. -/
def Tensor.typeSize (t : Tensor) : UInt64 :=
  let blockSize := t.blockSize
  match t.kind.toNat with
  | 0 => 4
  | 1 => 2
  | 2 => 2 + blockSize / 2
  | 3 => 2 + 2 + blockSize / 2
  | 6 => 2 + 4 + blockSize / 2
  | 7 => 2 + 2 + 4 + blockSize / 2
  | 8 => 2 + blockSize
  | 9 => 2 + 2 + blockSize
  | 10 => blockSize / 16 + blockSize / 4 + 2 + 2
  | 11 => blockSize / 8 + blockSize / 4 + 12 + 2
  | 12 => 2 + 2 + 12 + blockSize / 2
  | 13 => 2 + 2 + 12 + blockSize / 8 + blockSize / 2
  | 14 => blockSize / 2 + blockSize / 4 + blockSize / 16 + 2
  | 15 => 4 + blockSize + 2 * blockSize / 16
  | 16 => 2 + 2 * blockSize / 8
  | 17 => 2 + 2 * blockSize / 8 + blockSize / 32
  | 18 => 2 + blockSize / 4 + blockSize / 8
  | 19 => 2 + blockSize / 8 + blockSize / 16
  | 20 => 2 + blockSize / 2
  | 21 => 2 + blockSize / 4 + blockSize / 8 + blockSize / 32 + 4
  | 22 => 2 + blockSize / 4 + blockSize / 16
  | 23 => 2 + 2 + blockSize / 2 + blockSize / 64
  | 24 => 1
  | 25 => 2
  | 26 => 4
  | 27 => 8
  | 28 => 8
  | 29 => blockSize / 8 + blockSize / 16 + blockSize / 32
  | 30 => 2
  | _ => 0

/-- `parameters`. -/
def Tensor.parameters (t : Tensor) : UInt64 := t.shape.foldl (fun count n => count * n) 1

/-- `Size`. -/
def Tensor.size (t : Tensor) : UInt64 := t.parameters * t.typeSize / t.blockSize

/-! ## Block numbers -/

/-- The white space that `fmt` skips within a line. -/
def isSpace (r : Nat) : Bool :=
  r ∈ [0x09, 0x0B, 0x0C, 0x0D, 0x20, 0x85, 0xA0, 0x1680, 0x2028, 0x2029, 0x202F, 0x205F, 0x3000] ∨
    (0x2000 ≤ r ∧ r ≤ 0x200A)

/-- Whether a rune is a decimal digit. -/
def isDigit (r : Nat) : Bool := 0x30 ≤ r ∧ r ≤ 0x39

/-- The number of decimal digits. -/
def digits (ds : List Nat) : Nat := ds.foldl (fun n d => 10 * n + (d - 0x30)) 0

/-- A sign, if there is one, and what follows it. -/
def sign : List Nat → Bool × List Nat
  | r :: rs => if r = 0x2D then (true, rs) else if r = 0x2B then (false, rs) else (false, r :: rs)
  | [] => (false, [])

/-- `Sscanf(name, "blk.%d.", &n)`, when it succeeds. -/
def scanBlock (name : List Nat) : Option Int :=
  match name with
  | 0x62 :: 0x6C :: 0x6B :: 0x2E :: rest =>
    let (negative, rest) := sign (rest.dropWhile isSpace)
    let n : Int := digits (rest.takeWhile isDigit)
    let n := if negative then -n else n
    if rest.takeWhile isDigit = [] ∨ n < -2 ^ 63 ∨ n ≥ 2 ^ 63 then none
    else if (rest.dropWhile isDigit).head? = some 0x2E then some n
    else none
  | _ => none

/-- `block`. -/
def Tensor.block (t : Tensor) : Int := (scanBlock (Utf8.runes t.name)).getD (-1)

/-- The comparison `WriteGGUF` sorts tensors by. -/
def compareBlocks (a b : Tensor) : Int :=
  let i := a.block
  let j := b.block
  if i < 0 ∧ j > 0 then 1
  else if i > 0 ∧ j < 0 then -1
  else if i < j then -1
  else if i > j then 1
  else 0

end Ollama.Ggml
