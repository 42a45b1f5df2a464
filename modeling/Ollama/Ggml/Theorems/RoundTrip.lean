import Ollama.Ggml.Theorems.Addressing
import Mathlib.Algebra.BigOperators.Group.List.Lemmas

/-!
# Reading back a file

A file of `WriteGGUF` is decoded to the keys that were given, arrays with all their elements, and to the tensors that
were given, each shape reversed. The number of dimensions has 32 bits in the file, and a position in it has 63: beyond
that a file is written that is not read back.
-/

namespace Ollama.Ggml

open Lib Reader

/-- A value that is read with all its elements. -/
def Any.whole : Any → Value
  | .uint32 v => .scalar (.uint32 v)
  | .float32 bits => .scalar (.float32 bits)
  | .bool v => .scalar (.bool v)
  | .string v => .scalar (.string v)
  | .int32s vs => .array vs.length (some (vs.map .int32))
  | .uint32s vs => .array vs.length (some (vs.map .uint32))
  | .float32s bits => .array bits.length (some (bits.map .float32))
  | .strings vs => .array vs.length (some (vs.map .string))
  | .other => .array 0 none

/-- The number of elements of a tensor. -/
def Tensor.elementCount (t : Tensor) : Nat := (t.shape.map UInt64.toNat).prod

/-- The model has the given keys and, in some order, the given tensors. The number of parameters has 64 bits. -/
structure SameModel (kv : KV) (ts : List Tensor) (m : Gguf) : Prop where
  keys : ∀ k, k ≠ ascii "general.parameter_count" → m.kv.lookup k = (kv.entries.lookup k).map Any.whole
  parameterCount : m.kv.lookup (ascii "general.parameter_count") =
    some (.scalar (.uint64 (UInt64.ofNat (ts.map Tensor.elementCount).sum)))
  tensors : (m.tensors.map (fun t => (t.name, t.kind, t.shape))).Perm
    (ts.map (fun t => (t.name, t.kind, t.shape.reverse)))

/-- The positions that `Decode` seeks to, from one on: each is padded, and then the size is added as an `int64`. -/
def InRange (alignment : Nat) : List Tensor → Nat → Prop
  | [], _ => True
  | t :: ts, pos =>
    padded pos alignment < 2 ^ 63 ∧ 0 ≤ (padded pos alignment : Int) + t.size.toInt64.toInt ∧
      (padded pos alignment : Int) + t.size.toInt64.toInt < 2 ^ 63 ∧
      InRange alignment ts ((padded pos alignment : Int) + t.size.toInt64.toInt).toNat

instance InRange.decidable (alignment : Nat) : (ts : List Tensor) → (pos : Nat) → Decidable (InRange alignment ts pos)
  | [], _ => isTrue trivial
  | t :: ts, pos =>
    have := InRange.decidable alignment ts ((padded pos alignment : Int) + t.size.toInt64.toInt).toNat
    inferInstanceAs (Decidable (_ ∧ _ ∧ _ ∧ _))

/-- What may be given to `WriteGGUF`: values of the types it writes, an alignment that is not 0, and tensors of known
kinds whose sizes do not overflow. -/
structure Writable (kv : KV) (ts : List Tensor) : Prop where
  values : ∀ e ∈ kv.entries, e.2 ≠ .other
  alignment : kv.alignment ≠ 0
  kinds : ∀ t ∈ ts, t.kind ≤ 30 ∧ t.kind ≠ 4 ∧ t.kind ≠ 5
  sizes : ∀ t ∈ ts, t.elementCount * t.typeSize.toNat < 2 ^ 64

namespace RoundTripAux

/-! ## Keys -/

/-- With no limit every array is collected. -/
theorem value_eq_whole {c : ContainerGGUF} (hc : c.maxArraySize < 0) (v : Any) : v.value c = v.whole := by
  have hcollect : ∀ n, c.canCollectArray n = true := fun n => decide_eq_true (.inl hc)
  cases v <;> simp only [Any.value, Any.whole, elements, hcollect, if_true]

/-! ## Parameters -/

theorem parameters_eq (t : Tensor) : t.parameters = UInt64.ofNat t.elementCount := by
  have hfold : ∀ (shape : List UInt64) (count : UInt64), shape.foldl (fun count n => count * n) count =
      count * UInt64.ofNat (shape.map UInt64.toNat).prod := by
    intro shape
    induction shape with
    | nil =>
      intro count
      exact (UInt64.mul_one count).symm
    | cons n shape ih =>
      intro count
      rw [List.foldl_cons, ih, List.map_cons, List.prod_cons, UInt64.ofNat_mul, UInt64.ofNat_toNat, UInt64.mul_assoc]
  rw [Tensor.parameters, hfold, UInt64.one_mul]
  rfl

/-- The number of parameters is the sum of the element counts. -/
theorem foldl_parameters (ts : List Tensor) (count : UInt64) :
    ts.foldl (fun n t => n + t.parameters) count = count + UInt64.ofNat (ts.map Tensor.elementCount).sum := by
  induction ts generalizing count with
  | nil => exact (UInt64.add_zero count).symm
  | cons t ts ih => rw [List.foldl_cons, ih, parameters_eq, List.map_cons, List.sum_cons, UInt64.ofNat_add,
      UInt64.add_assoc]

theorem elementCount_decoded (t : Tensor) : t.decoded.elementCount = t.elementCount :=
  ((List.reverse_perm t.shape).map UInt64.toNat).prod_eq

/-! ## Tensors -/

/-- What does not depend on the offsets of the tensors. -/
theorem map_withOffsets {β : Type} {f : Tensor → β}
    (hf : ∀ (t : Tensor) (offset : UInt64), f { t with offset := offset } = f t) (s : UInt64) (ts : List Tensor) :
    (withOffsets s ts).map f = ts.map f := by
  induction ts generalizing s with
  | nil => rfl
  | cons t ts ih => rw [withOffsets, List.map_cons, List.map_cons, hf, ih]

/-- The tensors are passed when the positions are in range. -/
theorem seekTensors_of_inRange {alignment pos : Nat} {s : UInt64} {ts : List Tensor} (h : InRange alignment ts pos) :
    ∃ stop, seekTensors alignment ((withOffsets s ts).map Tensor.decoded) pos = .ok stop := by
  induction ts generalizing pos s with
  | nil => exact ⟨pos, rfl⟩
  | cons t ts ih =>
    obtain ⟨hpad, hlow, hhigh, hrest⟩ := h
    obtain ⟨stop, hstop⟩ := ih (s := s + t.size) hrest
    refine ⟨stop, ?_⟩
    have hsize : ({ t with offset := s } : Tensor).decoded.size = t.size := size_decoded { t with offset := s }
    have hseek : seek pos (ggufPadding pos alignment) = .ok (padded pos alignment) := by
      unfold padded at hpad ⊢
      unfold seek
      rw [if_pos (by omega)]
      congr 1
    have hseek' : seek (padded pos alignment) t.size.toInt64.toInt =
        .ok ((padded pos alignment : Int) + t.size.toInt64.toInt).toNat := if_pos ⟨hlow, hhigh⟩
    rw [withOffsets, List.map_cons, seekTensors, hsize, hseek]
    show ((seek (padded pos alignment) t.size.toInt64.toInt).mapError _).bind _ = _
    rw [hseek']
    exact hstop

end RoundTripAux

open RoundTripAux

/-- What was written is decoded, when no number of dimensions and no position is too large for its field. -/
theorem decode_writeGGUF {sort : StableSort} {kv : KV} {ts : List Tensor} {file : Bytes} (halign : kv.alignment ≠ 0)
    (hdims : ∀ t ∈ ts, t.shape.length < 2 ^ 32)
    (hrange : InRange kv.alignment (sort.run compareBlocks ts) (headerSize kv ts))
    (hw : writeGGUF sort kv ts = .ok file) : ∃ m stop, decode (-1) file = .ok (m, stop) ∧ SameModel kv ts m := by
  obtain ⟨kvs, hkvs, rfl, hlt⟩ := writeGGUF_eq_ok.1 hw
  have hperm := sort.perm compareBlocks ts
  have hdims' : ∀ t ∈ sort.run compareBlocks ts, t.shape.length < 2 ^ 32 := fun t ht => hdims t (hperm.mem_iff.1 ht)
  obtain ⟨data, hdata⟩ :=
    ggufWriteTensors_prefix (sort.run compareBlocks ts) (writeHeader kvs (sort.run compareBlocks ts))
  have hlen : (writeHeader kvs (sort.run compareBlocks ts)).length < 2 ^ 63 := by
    rw [← hdata, List.length_append] at hlt
    omega
  have hsize : (writeHeader kvs (sort.run compareBlocks ts)).length = headerSize kv ts :=
    AddressingAux.length_writeHeader hkvs
  obtain ⟨stop, hstop⟩ := seekTensors_of_inRange (s := 0) hrange
  rw [← hdata, decode_eq_finish (-1) hkvs hdims' hlen data, finish, alignmentOf_written, if_neg halign, hsize, hstop]
  refine ⟨_, stop, rfl, ?_⟩
  have hcount : ((withOffsets 0 (sort.run compareBlocks ts)).map Tensor.decoded).foldl (fun n t => n + t.parameters) 0 =
      UInt64.ofNat (ts.map Tensor.elementCount).sum := by
    have hdecoded : Tensor.elementCount ∘ Tensor.decoded = Tensor.elementCount := funext elementCount_decoded
    rw [foldl_parameters, UInt64.zero_add, List.map_map, hdecoded, map_withOffsets (fun _ _ => rfl)]
    exact congrArg UInt64.ofNat (hperm.map Tensor.elementCount).sum_nat
  refine ⟨fun k hk => ?_, ?_, ?_⟩
  · dsimp only
    rw [lookup_written, if_neg hk]
    exact Option.map_congr (fun v _ => value_eq_whole (show (-1 : Int) < 0 by decide) v)
  · dsimp only
    rw [lookup_written, if_pos rfl, hcount]
  · dsimp only
    rw [List.map_map, map_withOffsets (fun _ _ => rfl)]
    exact hperm.map _

/-- A key with a flag, one with an array of strings, and an alignment of 64. -/
def threeKeys : KV :=
  ⟨[(ascii "a", .bool true), (ascii "b", .strings [ascii "x", ascii "yz"]),
    (ascii "general.alignment", .uint32 64)], by decide⟩

/-- They are written, with two tensors, and decoded. -/
theorem decode_writeGGUF_three : ∃ file m stop, writeGGUF insertionSort threeKeys (twoTensors 32) = .ok file ∧
    decode (-1) file = .ok (m, stop) ∧ SameModel threeKeys (twoTensors 32) m := by
  have hsorted : threeKeys.sorted = threeKeys.entries := List.mergeSort_of_pairwise (by decide +kernel)
  have hsome : (writeGGUF insertionSort threeKeys (twoTensors 32)).toOption.isSome := by
    unfold writeGGUF
    rw [hsorted]
    decide +kernel
  rcases hw : writeGGUF insertionSort threeKeys (twoTensors 32) with e | file
  · rw [hw] at hsome
    nomatch hsome
  · obtain ⟨m, stop, hd, hsame⟩ := decode_writeGGUF (by decide +kernel) (by decide +kernel) (by decide +kernel) hw
    exact ⟨file, m, stop, rfl, hd, hsame⟩

/-! ## Beyond the fields -/

/-- No keys. -/
def noKeys : KV := ⟨[], List.nodup_nil⟩

/-- A tensor of 2^61 32-bit numbers that writes none of them. -/
def hugeTensor : Tensor := { name := ascii "a", kind := 0, shape := [2 ^ 61] }

/-- A tensor of one number, in as many dimensions. -/
def onesTensor (dims : Nat) : Tensor :=
  { name := ascii "a", kind := 0, shape := List.replicate dims 1, writerTo := [1, 2, 3, 4] }

namespace RoundTripAux

theorem elementCount_onesTensor (dims : Nat) : (onesTensor dims).elementCount = 1 := by
  have hone : (1 : UInt64).toNat = 1 := rfl
  rw [Tensor.elementCount, onesTensor, List.map_replicate, List.prod_replicate, hone, Nat.one_pow]

theorem size_onesTensor (dims : Nat) : (onesTensor dims).size = 4 := by
  have htype : (onesTensor dims).typeSize = 4 := rfl
  have hblock : (onesTensor dims).blockSize = 1 := rfl
  rw [Tensor.size, parameters_eq, elementCount_onesTensor, htype, hblock]
  decide

theorem headerSize_onesTensor (dims : Nat) : headerSize noKeys [onesTensor dims] = 49 + 8 * dims := by
  have hname : (ascii "a").length = 1 := by decide
  rw [headerSize, List.map_singleton, List.sum_singleton, onesTensor, hname, List.length_replicate]
  show 24 + 0 + _ = _
  omega

/-- Of 2^32 dimensions the low 32 bits are read, none, and then the first dimension as a kind and an offset. -/
theorem ggufWriteTensorInfo_ones {dims : Nat} (hdims : le 4 (dims + 2) = le 4 0) : ∃ rest,
    ggufWriteTensorInfo (onesTensor (dims + 2)) =
      ggufWriteTensorInfo { name := ascii "a", kind := 1, offset := 2 ^ 32, shape := [] } ++ rest := by
  have hone : (1 : UInt64).toNat = 1 := rfl
  have hsplit : le 8 1 ++ le 8 1 = le 4 1 ++ le 8 (2 ^ 32) ++ le 4 0 := by decide
  refine ⟨le 4 0 ++ (List.replicate dims 1).flatMap (fun n : UInt64 => le 8 n.toNat) ++ le 4 0 ++ le 8 0, ?_⟩
  unfold ggufWriteTensorInfo onesTensor
  dsimp only
  rw [List.length_replicate, hdims, List.reverse_replicate, List.replicate_succ, List.replicate_succ,
    List.flatMap_cons, List.flatMap_cons, hone, ← List.append_assoc (le 8 1), hsplit]
  simp only [List.append_assoc]
  rfl

theorem readHeader_ones {dims : Nat} (hdims : le 4 (dims + 2) = le 4 0) (data : Bytes) : ∃ rest,
    readHeader none (-1) (writeHeader [] [onesTensor (dims + 2)] ++ data) =
      .ok (([], [{ name := ascii "a", kind := 1, offset := 2 ^ 32, shape := [] }]), rest) := by
  obtain ⟨rest, hinfo⟩ := ggufWriteTensorInfo_ones hdims
  have hread := @reads_infos [] [] [{ name := ascii "a", kind := 1, offset := 2 ^ 32, shape := [] }] (-1) rfl
    (by decide) (by decide)
  have hoffset : withOffsets 0 [onesTensor (dims + 2)] = [onesTensor (dims + 2)] := rfl
  refine ⟨rest ++ data, Eq.trans (congrArg _ ?_) (hread (rest ++ data))⟩
  rw [writeHeader, hoffset, List.flatMap_singleton, List.flatMap_singleton, hinfo]
  simp only [List.append_assoc, List.length_singleton]

/-- A model that was decoded has the tensors that were read. -/
theorem tensors_of_decode {file rest : Bytes} {kvs : List (Bytes × Value)} {ts : List Tensor} {m : Gguf} {stop : Nat}
    (hread : readHeader none (-1) file = .ok ((kvs, ts), rest)) (h : decode (-1) file = .ok (m, stop)) :
    m.tensors = ts := by
  have hfinish : finish kvs ts (0 + (file.length - rest.length)) = .ok (m, stop) := by
    rw [decode, decodeAt, if_neg (by decide), hread] at h
    exact h
  unfold finish at hfinish
  dsimp only at hfinish
  split at hfinish
  · cases hfinish
  · rcases hs : seekTensors _ ts (0 + (file.length - rest.length)) with e | pos
    · rw [hs] at hfinish
      cases hfinish
    · rw [hs] at hfinish
      exact congrArg (fun out : Gguf × Nat => out.1.tensors) (Except.ok.inj hfinish).symm

theorem sorted_noKeys : noKeys.sorted.mapM ggufWriteKV = .ok [] := by
  have hsorted : noKeys.sorted = [] := List.mergeSort_nil
  rw [hsorted]
  rfl

/-- A file with no keys and one tensor. -/
theorem writeGGUF_singleton {t : Tensor} (h : padded (headerSize noKeys [t]) 32 + t.writerTo.length < 2 ^ 63) : ∃ data,
    writeGGUF insertionSort noKeys [t] = .ok (writeHeader [] [t] ++ data) := by
  have hrun : insertionSort.run compareBlocks [t] = [t] := rfl
  have hheader := @AddressingAux.length_writeHeader insertionSort noKeys [t] [] sorted_noKeys
  rw [hrun] at hheader
  refine ⟨List.replicate (ggufPadding (writeHeader [] [t]).length 32) 0 ++ t.writerTo,
    writeGGUF_eq_ok.2 ⟨[], sorted_noKeys, ?_, ?_⟩⟩
  · rw [hrun, ← List.append_assoc]
    rfl
  · rw [← List.append_assoc, List.length_append, length_padded, hheader]
    exact h

end RoundTripAux

/-- A size of 2^63 is negative as an `int64`, so that its file is not decoded; and a tensor of 2^32 dimensions is
decoded as one of none, of another kind. -/
theorem not_decode_writeGGUF :
    (Writable noKeys [hugeTensor] ∧ (∀ t ∈ [hugeTensor], t.shape.length < 2 ^ 32) ∧
      ∃ file, writeGGUF insertionSort noKeys [hugeTensor] = .ok file ∧ ∀ m stop, decode (-1) file ≠ .ok (m, stop)) ∧
    (Writable noKeys [onesTensor (2 ^ 32)] ∧
      InRange noKeys.alignment (insertionSort.run compareBlocks [onesTensor (2 ^ 32)])
        (headerSize noKeys [onesTensor (2 ^ 32)]) ∧
      ∃ file, writeGGUF insertionSort noKeys [onesTensor (2 ^ 32)] = .ok file ∧
        ∀ m stop, decode (-1) file = .ok (m, stop) → ¬SameModel noKeys [onesTensor (2 ^ 32)] m) := by
  constructor
  · refine ⟨⟨fun e he => absurd he List.not_mem_nil, by decide +kernel, by decide +kernel, by decide +kernel⟩,
      by decide +kernel, ?_⟩
    obtain ⟨data, hw⟩ := writeGGUF_singleton (t := hugeTensor) (by decide +kernel)
    have hdecode := @decode_eq_finish noKeys [] [hugeTensor] (-1) sorted_noKeys (by decide +kernel) (by decide +kernel)
    have herror : decode (-1) (writeHeader [] [hugeTensor] ++ []) =
      .error (.wrapped "failed to seek to tensor" .negativePosition) := by
      decide +kernel
    refine ⟨_, hw, fun m stop hd => ?_⟩
    rw [hdecode data, ← hdecode [], herror] at hd
    nomatch hd
  · have hsize := size_onesTensor (2 ^ 32)
    have hheader := headerSize_onesTensor (2 ^ 32)
    have hrun : insertionSort.run compareBlocks [onesTensor (2 ^ 32)] = [onesTensor (2 ^ 32)] := rfl
    have halign : noKeys.alignment = 32 := rfl
    refine ⟨⟨fun e he => absurd he List.not_mem_nil, by decide +kernel, ?_, ?_⟩, ?_, ?_⟩
    · intro t ht
      rw [List.mem_singleton.1 ht]
      exact ⟨by decide, by decide, by decide⟩
    · intro t ht
      have htype : (onesTensor (2 ^ 32)).typeSize.toNat = 4 := rfl
      rw [List.mem_singleton.1 ht, elementCount_onesTensor, htype]
      decide
    · rw [hrun, hheader, halign, InRange, hsize]
      decide +kernel
    · obtain ⟨data, hw⟩ := writeGGUF_singleton (t := onesTensor (2 ^ 32)) (by rw [hheader]; decide +kernel)
      refine ⟨_, hw, fun m stop hd hsame => ?_⟩
      obtain ⟨rest, hread⟩ := @readHeader_ones (2 ^ 32 - 2) (by decide) data
      have hperm := hsame.tensors
      rw [tensors_of_decode hread hd, List.map_singleton, List.map_singleton, List.perm_singleton] at hperm
      have hkind := congrArg (fun t => t.2.1) (List.cons.inj hperm).1
      exact absurd hkind (by decide)

end Ollama.Ggml
