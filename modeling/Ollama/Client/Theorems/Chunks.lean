import Ollama.Client.Chunks

/-!
# Chunks, theorems

The chunks of a blob are a partition of it: one after the other they hold each of its bytes once, and there are as
many as `Count` says. The text of each is parsed to it again. The ends are inclusive, the last chunk is cut off at the
end of the blob, and the number of chunks is computed apart from them.
-/

namespace Ollama.Client

open Lib Utf8 Chunks

namespace ChunksAux

variable {size chunkSize : Int64}

/-! ## The texts -/

/-- A number that is not negative is written without a dash. -/
theorem dash_notMem {n : Int64} (hn : 0 ≤ n.toInt) : 0x2D ∉ formatInt n := by
  intro hmem
  rw [formatInt, if_neg (by rw [Int64.lt_iff_toInt_lt, Int64.toInt_zero]; omega)] at hmem
  exact absurd (digit_of_mem_decimal hmem).1 (by decide)

/-- A text is cut at its first dash. -/
theorem cutDash_append {s t : Bytes} (hs : 0x2D ∉ s) : cutDash (s ++ 0x2D :: t) = (s, t) := by
  have hall : ∀ b ∈ s, decide (b ≠ 0x2D) = true := by
    intro b hb
    rw [decide_eq_true_eq]
    rintro rfl
    exact hs hb
  rw [cutDash, List.takeWhile_append_of_pos hall, List.dropWhile_append_of_pos hall]
  simp

/-- The text of a chunk is parsed to the chunk. -/
theorem parse_string {c : Chunk} (hstart : 0 ≤ c.start.toInt) (hle : c.start.toInt ≤ c.stop.toInt) :
    parse (string c) = .ok c := by
  have hcut : cutDash (string c) = (formatInt c.start, formatInt c.stop) := cutDash_append (dash_notMem hstart)
  have horder : ¬c.stop < c.start := by
    rw [Int64.lt_iff_toInt_lt]
    omega
  simp only [parse, hcut, parseInt_formatInt]
  rw [if_neg horder]

/-! ## The loop -/

/-- What the loop yields from an offset on. -/
structure Covers (size chunkSize start : Int64) (chunks : List Chunk) : Prop where
  length : (chunks.length : Int) = (size.toInt - start.toInt + chunkSize.toInt - 1) / chunkSize.toInt
  each : ∀ c ∈ chunks, 0 ≤ c.start.toInt ∧ c.start.toInt ≤ c.stop.toInt ∧ 1 ≤ c.size.toInt ∧
    c.size.toInt ≤ chunkSize.toInt
  bytes : chunks.flatMap bytes = List.range' start.toInt.toNat (size.toInt - start.toInt).toNat

/-- At the end of the blob, or after it, there is nothing left. -/
theorem covers_end {start : Int64} (hend : size.toInt ≤ start.toInt)
    (hnear : start.toInt < size.toInt + chunkSize.toInt) :
    Covers size chunkSize start [] := by
  refine ⟨?_, fun c hc => absurd hc List.not_mem_nil, ?_⟩
  · rw [Int.ediv_eq_zero_of_lt (by omega) (by omega)]
    rfl
  · have hnone : (size.toInt - start.toInt).toNat = 0 := by omega
    rw [hnone]
    rfl

/-- A chunk before those of the rest. -/
theorem covers_cons {start : Int64} {chunks : List Chunk} (hstart : 0 ≤ start.toInt)
    (hlt : start.toInt < size.toInt) (hpos : 0 < chunkSize.toInt) (hfits : size.toInt + chunkSize.toInt < 2 ^ 63)
    (h : Covers size chunkSize (start + chunkSize) chunks) :
    Covers size chunkSize start (chunkAt size chunkSize start :: chunks) := by
  have hnext : (start + chunkSize).toInt = start.toInt + chunkSize.toInt := toInt_add_of_fits (by omega) (by omega)
  have hstop := chunkAt_stop hstart hlt hpos (by omega)
  have hsize := chunkAt_size hstart hlt hpos (by omega)
  have hfirst : (chunkAt size chunkSize start).start = start := rfl
  refine ⟨?_, ?_, ?_⟩
  · have hsplit : size.toInt - start.toInt + chunkSize.toInt - 1 =
        size.toInt - (start + chunkSize).toInt + chunkSize.toInt - 1 + 1 * chunkSize.toInt := by omega
    rw [hsplit, Int.add_mul_ediv_right _ _ (by omega), ← h.length, List.length_cons]
    rfl
  · intro c hc
    obtain rfl | hc := List.mem_cons.1 hc
    · rw [hfirst]
      omega
    · exact h.each c hc
  · have hcount : (size.toInt - start.toInt).toNat =
        ((chunkAt size chunkSize start).stop.toInt + 1 - start.toInt).toNat +
        (size.toInt - (start + chunkSize).toInt).toNat := by omega
    rw [List.flatMap_cons, h.bytes, Chunks.bytes, hfirst, hcount, ← List.range'_append_1]
    congr 1
    -- behind the last chunk there is nothing, wherever the loop is
    by_cases hlast : start.toInt + chunkSize.toInt ≤ size.toInt
    · congr 1
      omega
    · have hnone : (size.toInt - (start + chunkSize).toInt).toNat = 0 := by omega
      rw [hnone]
      rfl

/-- Whatever the loop yields from an offset on. -/
theorem covers_ofFrom {fuel : Nat} {start : Int64} {chunks : List Chunk} (hstart : 0 ≤ start.toInt)
    (hnear : start.toInt < size.toInt + chunkSize.toInt) (hpos : 0 < chunkSize.toInt)
    (hfits : size.toInt + chunkSize.toInt < 2 ^ 63) (h : ofFrom size chunkSize fuel start = some chunks) :
    Covers size chunkSize start chunks := by
  induction fuel generalizing start chunks with
  | zero => cases h
  | succ fuel ih =>
    rw [ofFrom] at h
    split at h
    · rename_i hlt
      rw [Int64.lt_iff_toInt_lt] at hlt
      have hnext : (start + chunkSize).toInt = start.toInt + chunkSize.toInt := toInt_add_of_fits (by omega) (by omega)
      obtain ⟨rest, hrest, rfl⟩ := Option.map_eq_some_iff.1 h
      exact covers_cons hstart hlt hpos hfits (ih (by omega) (by omega) hrest)
    · rename_i hlt
      rw [Int64.lt_iff_toInt_lt] at hlt
      obtain rfl := Option.some.inj h
      exact covers_end (by omega) hnear

/-- The loop ends: each step goes on by a byte at least. -/
theorem ofFrom_ends (fuel : Nat) (start : Int64) (hstart : 0 ≤ start.toInt) (hpos : 0 < chunkSize.toInt)
    (hfits : size.toInt + chunkSize.toInt < 2 ^ 63) (hfuel : size.toInt - start.toInt < fuel) (hany : 0 < fuel) :
    ∃ chunks, ofFrom size chunkSize fuel start = some chunks := by
  induction fuel generalizing start with
  | zero => exact absurd hany (Nat.lt_irrefl 0)
  | succ fuel ih =>
    rw [ofFrom]
    split
    · rename_i hlt
      rw [Int64.lt_iff_toInt_lt] at hlt
      have hnext : (start + chunkSize).toInt = start.toInt + chunkSize.toInt := toInt_add_of_fits (by omega) (by omega)
      obtain ⟨chunks, hchunks⟩ := ih (start + chunkSize) (by omega) (by omega) (by omega)
      exact ⟨_, by rw [hchunks]; rfl⟩
    · exact ⟨[], rfl⟩

/-- The number of chunks. -/
theorem toInt_count (hsize : 0 ≤ size.toInt) (hpos : 0 < chunkSize.toInt)
    (hfits : size.toInt + chunkSize.toInt < 2 ^ 63) :
    (count size chunkSize).toInt = (size.toInt + chunkSize.toInt - 1) / chunkSize.toInt := by
  have hone : (1 : Int64).toInt = 1 := by decide
  have hsum : (size + chunkSize).toInt = size.toInt + chunkSize.toInt := toInt_add_of_fits (by omega) (by omega)
  have hless : (size + chunkSize - 1).toInt = size.toInt + chunkSize.toInt - 1 := by
    rw [toInt_sub_of_fits (by omega) (by omega), hsum, hone]
  have hne : chunkSize ≠ -1 := by
    rintro rfl
    exact absurd hpos (by decide)
  rw [count, Int64.toInt_div_of_ne_right _ _ hne, hless, Int.tdiv_eq_ediv_of_nonneg (by omega)]

end ChunksAux

/-- `Of` ends, and yields `Count` chunks, each of one byte or more and of no more than the size of a chunk. One after
the other they hold each byte of the blob once, and the text of each is parsed to it. -/
theorem of_partitions (size chunkSize : Int64) (hsize : 0 ≤ size) (hchunk : 1 ≤ chunkSize)
    (hfits : size.toInt + chunkSize.toInt < 2 ^ 63) :
    (∃ chunks, Yields size chunkSize chunks) ∧
      ∀ chunks, Yields size chunkSize chunks →
        (chunks.length : Int) = (count size chunkSize).toInt ∧
        (∀ c ∈ chunks, 0 ≤ c.start ∧ c.start ≤ c.stop ∧ 1 ≤ c.size ∧ c.size ≤ chunkSize ∧ parse (string c) = .ok c) ∧
        chunks.flatMap bytes = List.range size.toInt.toNat := by
  have hone : (1 : Int64).toInt = 1 := by decide
  have hzero : (0 : Int64).toInt = 0 := by decide
  simp only [Int64.le_iff_toInt_le, hone, hzero] at hsize hchunk ⊢
  refine ⟨?_, ?_⟩
  · obtain ⟨chunks, hchunks⟩ := ChunksAux.ofFrom_ends (size.toInt.toNat + 1) 0 (by omega) (by omega) hfits (by omega)
      (Nat.succ_pos _)
    exact ⟨chunks, _, hchunks⟩
  · rintro chunks ⟨fuel, hchunks⟩
    have hcovers := ChunksAux.covers_ofFrom (by omega) (by omega) (by omega) hfits hchunks
    have hbytes := hcovers.bytes
    rw [hzero, Int.sub_zero, Int.toNat_zero, ← List.range_eq_range'] at hbytes
    refine ⟨?_, ?_, hbytes⟩
    · rw [hcovers.length, ChunksAux.toInt_count hsize (by omega) hfits, hzero, Int.sub_zero]
    · intro c hc
      obtain ⟨hstart, hle, hsome, hmost⟩ := hcovers.each c hc
      exact ⟨hstart, hle, hsome, hmost, ChunksAux.parse_string hstart hle⟩

/-- Ten bytes in chunks of nine. -/
theorem of_partitions_ten :
    ∃ chunks, Yields 10 9 chunks ∧ chunks = [⟨0, 8⟩, ⟨9, 9⟩] ∧ (chunks.length : Int) = (count 10 9).toInt ∧
      chunks.flatMap bytes = List.range 10 := by
  have hyields : Yields 10 9 [⟨0, 8⟩, ⟨9, 9⟩] := ⟨3, by decide⟩
  obtain ⟨hlength, -, hbytes⟩ := (of_partitions 10 9 (by decide) (by decide) (by decide)).2 _ hyields
  exact ⟨_, hyields, rfl, hlength, hbytes⟩

end Ollama.Client
