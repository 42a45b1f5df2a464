import Ollama.Ggml.Lemmas.Layout

/-!
# Decoding a written file

What `Decode` makes of a file of `WriteGGUF`: the tensors in the order they were written in, each at the sum of the
sizes before it, after the header padded to the alignment that the keys ask for.
-/

namespace Ollama.Ggml

open Lib Reader

/-! ## The alignment -/

/-- `general.alignment`, or what it is without. -/
def KV.alignment (kv : KV) : Nat :=
  match kv.entries.lookup (ascii "general.alignment") with
  | some (.uint32 a) => a.toNat
  | _ => 32

/-- The keys that are decoded are those that were written, but for the number of parameters. -/
theorem lookup_written (kv : KV) (c : ContainerGGUF) (parameters : UInt64) (k : Bytes) :
    (Assoc.set ((kv.sorted.map (fun e => (e.1, e.2.value c))).foldl (fun kv e => Assoc.set kv e.1 e.2) [])
      (ascii "general.parameter_count") (.scalar (.uint64 parameters))).lookup k =
      if k = ascii "general.parameter_count" then some (.scalar (.uint64 parameters))
      else (kv.entries.lookup k).map (fun v => v.value c) := by
  have hperm : kv.sorted.Perm kv.entries := List.mergeSort_perm _ _
  have hnodup : (kv.sorted.map Prod.fst).Nodup := (hperm.map Prod.fst).nodup_iff.2 kv.nodup
  have hnodup' : ((kv.sorted.map (fun e => (e.1, e.2.value c))).map Prod.fst).Nodup := by
    rw [List.map_map]
    exact hnodup
  rw [Assoc.lookup_set, Assoc.lookup_foldl_set _ _ hnodup', Assoc.lookup_map, Assoc.lookup_perm hperm hnodup,
    List.lookup_nil, Option.or_none]

/-- The decoder takes the alignment that the keys ask for. -/
theorem alignmentOf_written (kv : KV) (c : ContainerGGUF) (parameters : UInt64) :
    alignmentOf (Assoc.set ((kv.sorted.map (fun e => (e.1, e.2.value c))).foldl (fun kv e => Assoc.set kv e.1 e.2) [])
      (ascii "general.parameter_count") (.scalar (.uint64 parameters))) = kv.alignment := by
  have hne : ascii "general.alignment" ≠ ascii "general.parameter_count" := by decide
  unfold alignmentOf KV.alignment
  rw [lookup_written, if_neg hne]
  rcases kv.entries.lookup (ascii "general.alignment") with _ | v
  · rfl
  · cases v <;> rfl

/-! ## Sizes and offsets -/

/-- The order of the dimensions does not change the number of elements. -/
theorem parameters_decoded (t : Tensor) : t.decoded.parameters = t.parameters := by
  have : RightCommutative (fun count n : UInt64 => count * n) :=
    ⟨fun a b c => by rw [UInt64.mul_assoc, UInt64.mul_comm b, ← UInt64.mul_assoc]⟩
  exact (List.reverse_perm t.shape).foldl_eq 1

theorem size_decoded (t : Tensor) : t.decoded.size = t.size := by
  unfold Tensor.size
  rw [parameters_decoded]
  rfl

/-- The sizes of the tensors. -/
def sizes (ts : List Tensor) : List Nat := ts.map (fun t => t.size.toNat)

/-- The offset of a tensor is the sum of the sizes before it, while they fit in 64 bits. -/
theorem getElem?_withOffsets {ts : List Tensor} {s : UInt64} {i : Nat} {t : Tensor} (h : ts[i]? = some t)
    (hfit : s.toNat + (sizes ts).sum < 2 ^ 64) :
    ∃ offset : UInt64, (withOffsets s ts)[i]? = some { t with offset := offset } ∧
      offset.toNat = s.toNat + ((sizes ts).take i).sum := by
  induction ts generalizing s i with
  | nil => nomatch h
  | cons t' ts ih =>
    cases i with
    | zero =>
      simp only [List.getElem?_cons_zero, Option.some.injEq] at h
      subst h
      exact ⟨s, rfl, by simp⟩
    | succ i =>
      simp only [sizes, List.map_cons, List.sum_cons] at hfit
      have hadd : (s + t'.size).toNat = s.toNat + t'.size.toNat := by
        rw [UInt64.toNat_add]
        exact Nat.mod_eq_of_lt (by omega)
      obtain ⟨offset, hoffset, hval⟩ := ih (s := s + t'.size) h (by rw [hadd]; exact Nat.add_assoc .. ▸ hfit)
      refine ⟨offset, hoffset, ?_⟩
      rw [hval, hadd]
      simp only [sizes, List.map_cons, List.take_succ_cons, List.sum_cons, Nat.add_assoc]

/-- A tensor the model is about: the number of its dimensions fits in the file, and it writes as many bytes as its
size is. -/
structure Tensor.Valid (t : Tensor) : Prop where
  dims : t.shape.length < 2 ^ 32
  size : t.writerTo.length = t.size.toNat

theorem dataSizes_eq {ts : List Tensor} (h : ∀ t ∈ ts, t.Valid) : dataSizes ts = sizes ts :=
  List.map_congr_left (fun t ht => (h t ht).size)

/-- The data is part of the file. -/
theorem sum_dataSizes_le (ts : List Tensor) (file : Bytes) :
    file.length + (dataSizes ts).sum ≤ (ggufWriteTensors 32 ts file).length := by
  induction ts generalizing file with
  | nil => exact Nat.le_refl _
  | cons t ts ih =>
    have := ih (file ++ List.replicate (ggufPadding file.length 32) 0 ++ t.writerTo)
    rw [List.length_append, length_padded] at this
    have hle := le_padded file.length 32
    simp only [dataSizes, List.map_cons, List.sum_cons] at this ⊢
    rw [ggufWriteTensors]
    omega

/-! ## Decode -/

/-- What a successful `WriteGGUF` has written. -/
theorem writeGGUF_eq_ok {sort : StableSort} {kv : KV} {ts : List Tensor} {file : Bytes} :
    writeGGUF sort kv ts = .ok file ↔ ∃ kvs, kv.sorted.mapM ggufWriteKV = .ok kvs ∧
      file = ggufWriteTensors 32 (sort.run compareBlocks ts) (writeHeader kvs (sort.run compareBlocks ts)) ∧
      file.length < 2 ^ 63 := by
  unfold writeGGUF
  rcases kv.sorted.mapM ggufWriteKV with e | kvs
  · constructor
    · intro h
      nomatch h
    · rintro ⟨_, h, _⟩
      nomatch h
  · show (if _ then _ else _) = _ ↔ _
    constructor
    · intro h
      split at h
      · rename_i hlt
        have hfile := Except.ok.inj h
        exact ⟨kvs, rfl, hfile.symm, hfile ▸ hlt⟩
      · nomatch h
    · rintro ⟨kvs', hkvs, hfile, hlt⟩
      have hkvs := Except.ok.inj hkvs
      subst hkvs hfile
      rw [if_pos hlt]

/-- What decoding makes of a written file does not depend on the data after the header. -/
theorem decode_eq_finish {kv : KV} {kvs : List Bytes} {ts : List Tensor} (maxArraySize : Int)
    (hkvs : kv.sorted.mapM ggufWriteKV = .ok kvs) (hdims : ∀ t ∈ ts, t.shape.length < 2 ^ 32)
    (hlen : (writeHeader kvs ts).length < 2 ^ 63) (data : Bytes) :
    decode maxArraySize (writeHeader kvs ts ++ data) =
      finish (kv.sorted.map (fun e =>
          (e.1, e.2.value (container ts.length kvs.length (if maxArraySize = 0 then 1024 else maxArraySize)))))
        ((withOffsets 0 ts).map Tensor.decoded) (writeHeader kvs ts).length := by
  rw [decode, decodeAt, reads_readHeader _ hkvs hdims hlen]
  simp

/-- The decoded model of a written file, and where its tensors begin. -/
theorem decode_written {kv : KV} {kvs : List Bytes} {ts : List Tensor} (maxArraySize : Int)
    (hkvs : kv.sorted.mapM ggufWriteKV = .ok kvs) (hdims : ∀ t ∈ ts, t.shape.length < 2 ^ 32)
    (hlen : (writeHeader kvs ts).length < 2 ^ 63) :
    ∃ out : Except Err (Gguf × Nat), (∀ data : Bytes, decode maxArraySize (writeHeader kvs ts ++ data) = out) ∧
      ∀ m stop, out = .ok (m, stop) → m.tensors = (withOffsets 0 ts).map Tensor.decoded ∧
        m.tensorOffset = padded (writeHeader kvs ts).length kv.alignment := by
  refine ⟨_, decode_eq_finish maxArraySize hkvs hdims hlen, fun m stop hm => ?_⟩
  rw [finish, alignmentOf_written] at hm
  split at hm
  · nomatch hm
  · rcases hs : seekTensors kv.alignment ((withOffsets 0 ts).map Tensor.decoded)
      (writeHeader kvs ts).length with e | pos
    · rw [hs] at hm
      nomatch hm
    · rw [hs] at hm
      have hm := congrArg Prod.fst (Except.ok.inj hm)
      subst hm
      exact ⟨rfl, rfl⟩

end Ollama.Ggml
