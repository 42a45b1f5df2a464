import Ollama.Client.Chunked
import Ollama.Lib.Int64

/-!
# Chunks

`server/internal/chunks/chunks.go`: the chunks of a size that a blob is made of, how many there are, and their texts,
in which the ends are inclusive.
-/

namespace Ollama.Client

open Lib Utf8

namespace Chunks

/-- The loop of `Of` from an offset, if it ends within a number of steps. -/
def ofFrom (size chunkSize : Int64) : (fuel : Nat) → (start : Int64) → Option (List Chunk)
  | 0, _ => none
  | fuel + 1, start =>
    if start < size then (ofFrom size chunkSize fuel (start + chunkSize)).map (chunkAt size chunkSize start :: ·)
      else some []

/-- `Of` yields some chunks, and ends. -/
def Yields (size chunkSize : Int64) (chunks : List Chunk) : Prop := ∃ fuel, ofFrom size chunkSize fuel 0 = some chunks

/-- `Count`. -/
def count (size chunkSize : Int64) : Int64 := (size + chunkSize - 1) / chunkSize

/-- `Chunk.String`. -/
def string (c : Chunk) : Bytes := formatInt c.start ++ 0x2D :: formatInt c.stop

/-- `strings.Cut(s, "-")`, of which the last answer is not used. -/
def cutDash (s : Bytes) : Bytes × Bytes := (s.takeWhile (· ≠ 0x2D), (s.dropWhile (· ≠ 0x2D)).drop 1)

/-- Why `Parse` fails: `invalid start: %v`, `invalid end: %v` or `invalid range %d-%d: start > end`. -/
inductive ParseErr where
  | start (text : Bytes) (err : NumErr)
  | stop (text : Bytes) (err : NumErr)
  | order (start stop : Int64)
  deriving DecidableEq

/-- `Parse`. -/
def parse (s : Bytes) : Except ParseErr Chunk :=
  match parseInt (cutDash s).1 with
  | .error err => .error (.start (cutDash s).1 err)
  | .ok start =>
    match parseInt (cutDash s).2 with
    | .error err => .error (.stop (cutDash s).2 err)
    | .ok stop => if stop < start then .error (.order start stop) else .ok ⟨start, stop⟩

/-- The bytes of a chunk, as offsets into the blob. -/
def bytes (c : Chunk) : List Nat := List.range' c.start.toInt.toNat (c.stop.toInt + 1 - c.start.toInt).toNat

end Chunks

/-! ## The chunk at an offset -/

section

variable {size chunkSize start : Int64}

/-- The last byte of the chunk at an offset. -/
theorem chunkAt_stop (hstart : 0 ≤ start.toInt) (hlt : start.toInt < size.toInt) (hpos : 0 < chunkSize.toInt)
    (hfits : start.toInt + chunkSize.toInt < 2 ^ 63) :
    (chunkAt size chunkSize start).stop.toInt = min (start.toInt + chunkSize.toInt) size.toInt - 1 := by
  have hone : (1 : Int64).toInt = 1 := by decide
  have hsize := size.toInt_lt
  have hsum : (start + chunkSize).toInt = start.toInt + chunkSize.toInt := toInt_add_of_fits (by omega) (by omega)
  have hstop : (start + chunkSize - 1).toInt = start.toInt + chunkSize.toInt - 1 := by
    rw [toInt_sub_of_fits (by omega) (by omega), hsum, hone]
  have hlast : (size - 1).toInt = size.toInt - 1 := by
    rw [toInt_sub_of_fits (by omega) (by omega), hone]
  unfold chunkAt
  dsimp only
  split
  · rename_i hle
    rw [Int64.le_iff_toInt_le] at hle
    omega
  · rename_i hle
    rw [Int64.le_iff_toInt_le] at hle
    omega

/-- The number of the bytes of a chunk. -/
theorem toInt_size {c : Chunk} (hstart : 0 ≤ c.start.toInt) (hle : c.start.toInt ≤ c.stop.toInt)
    (hstop : c.stop.toInt < 2 ^ 63 - 1) :
    c.size.toInt = c.stop.toInt + 1 - c.start.toInt := by
  have hone : (1 : Int64).toInt = 1 := by decide
  have hdiff : (c.stop - c.start).toInt = c.stop.toInt - c.start.toInt := toInt_sub_of_fits (by omega) (by omega)
  rw [Chunk.size, toInt_add_of_fits (by omega) (by omega), hdiff, hone]
  omega

/-- The bytes of the chunk at an offset. -/
theorem chunkAt_size (hstart : 0 ≤ start.toInt) (hlt : start.toInt < size.toInt) (hpos : 0 < chunkSize.toInt)
    (hfits : start.toInt + chunkSize.toInt < 2 ^ 63) :
    (chunkAt size chunkSize start).size.toInt = min (start.toInt + chunkSize.toInt) size.toInt - start.toInt := by
  have hstop := chunkAt_stop hstart hlt hpos hfits
  have hsize := size.toInt_lt
  have hle : start.toInt ≤ (chunkAt size chunkSize start).stop.toInt := by omega
  rw [toInt_size hstart hle (by omega), hstop]
  show _ + 1 - start.toInt = _
  omega

end

end Ollama.Client
