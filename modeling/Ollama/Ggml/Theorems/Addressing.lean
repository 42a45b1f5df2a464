import Ollama.Ggml.Lemmas.Decode
import Mathlib.Data.List.Nodup

/-!
# Finding tensors in a file

`WriteGGUF` pads the data of each tensor to 32 bytes, but gives each tensor the sum of the sizes before it as its
offset, and `Decode` pads once, to the alignment in the keys. A decoded tensor is where its data is exactly when no
tensor before another needs padding and the two alignments pad the header alike (`tensors_addressed_iff`). What is in
the data may make up for a wrong position, as when it is all zero, so the statement is about all that the tensors may
write.
-/

namespace Ollama.Ggml

open Lib

/-- The decoded tensors are the given ones, and each finds in the file what was written for it, in a place of its own. -/
structure Addressed (file : Bytes) (m : Gguf) (ts : List Tensor) : Prop where
  length : m.tensors.length = ts.length
  same : ∀ (i : Nat) (t w : Tensor), m.tensors[i]? = some t → ts[i]? = some w →
    t.name = w.name ∧ t.kind = w.kind ∧ t.shape = w.shape.reverse
  bytes : ∀ (i : Nat) (t w : Tensor), m.tensors[i]? = some t → ts[i]? = some w →
    (file.drop (m.tensorOffset + t.offset.toNat)).take t.size.toNat = w.writerTo
  disjoint : ∀ (i j : Nat) (t u : Tensor), i ≠ j → m.tensors[i]? = some t → m.tensors[j]? = some u →
    t.offset.toNat + t.size.toNat ≤ u.offset.toNat ∨ u.offset.toNat + u.size.toNat ≤ t.offset.toNat

/-- The number of bytes of a value, with its type. -/
def Any.bytes : Any → Nat
  | .uint32 _ => 8
  | .float32 _ => 8
  | .bool _ => 5
  | .string v => 12 + v.length
  | .int32s vs => 16 + 4 * vs.length
  | .uint32s vs => 16 + 4 * vs.length
  | .float32s bits => 16 + 4 * bits.length
  | .strings vs => 16 + (vs.map (fun v => 8 + v.length)).sum
  | .other => 0

/-- The number of bytes before the data. -/
def headerSize (kv : KV) (ts : List Tensor) : Nat :=
  24 + (kv.entries.map (fun e => 8 + e.1.length + e.2.bytes)).sum +
    (ts.map (fun t => 24 + t.name.length + 8 * t.shape.length)).sum

/-- All tensors are empty; or the alignment of the keys pads the header as 32 does, and a tensor that is followed by
one that is not empty has a size that is a multiple of 32. -/
def Unpadded (sort : StableSort) (kv : KV) (ts : List Tensor) : Prop :=
  (∀ t ∈ ts, t.size = 0) ∨
    (ggufPadding (headerSize kv ts) kv.alignment = ggufPadding (headerSize kv ts) 32 ∧
      (sort.run compareBlocks ts).Pairwise (fun t u => u.size ≠ 0 → 32 ∣ t.size.toNat))

/-- A tensor without what it writes. -/
def Tensor.header (t : Tensor) : Tensor := { t with writerTo := [] }

namespace AddressingAux

/-! ## The header -/

/-- Elements of one size take so much each. -/
theorem length_flatMap_of_forall {α : Type} {enc : α → Bytes} {n : Nat} (h : ∀ v, (enc v).length = n) (vs : List α) :
    (vs.flatMap enc).length = n * vs.length := by
  induction vs with
  | nil => rfl
  | cons v vs ih => rw [List.flatMap_cons, List.length_append, h, ih, List.length_cons, Nat.mul_succ, Nat.add_comm]

/-- A key and its value take as much as they are counted for. -/
theorem length_ggufWriteKV {e : Bytes × Any} {b : Bytes} (h : ggufWriteKV e = .ok b) :
    b.length = 8 + e.1.length + e.2.bytes := by
  obtain ⟨k, v⟩ := e
  unfold ggufWriteKV at h
  split at h
  · rename_i payload hpayload
    rw [← Except.ok.inj h, List.length_append, length_writeString]
    congr 1
    cases v with
    | other => cases hpayload
    | strings vs =>
      rw [writeValue, Option.some.injEq, writeGGUFArray] at hpayload
      rw [← hpayload]
      simp only [List.length_append, length_le, List.length_flatMap, length_writeString]
      rfl
    | _ =>
      rw [writeValue, Option.some.injEq] at hpayload
      rw [← hpayload]
      simp [writeGGUFArray, length_writeString, length_flatMap_of_forall (n := 4), Any.bytes]
      try omega
  · cases h

/-- The number of bytes before the data, from the keys and the tensors in any order. -/
theorem length_writeHeader {sort : StableSort} {kv : KV} {ts : List Tensor} {kvs : List Bytes}
    (hkvs : kv.sorted.mapM ggufWriteKV = .ok kvs) :
    (writeHeader kvs (sort.run compareBlocks ts)).length = headerSize kv ts := by
  obtain ⟨enc, rfl, henc⟩ := mapM_ggufWriteKV hkvs
  have hkeys : (kv.sorted.map enc).flatten.length = (kv.entries.map (fun e => 8 + e.1.length + e.2.bytes)).sum := by
    have hperm : kv.sorted.Perm kv.entries := List.mergeSort_perm _ _
    rw [List.length_flatten, List.map_map, ← (hperm.map _).sum_nat]
    exact congrArg List.sum (List.map_congr_left (fun e he => length_ggufWriteKV (henc e he)))
  have hinfos : ∀ (ts : List Tensor) (s : UInt64), ((withOffsets s ts).flatMap ggufWriteTensorInfo).length =
      (ts.map (fun t => 24 + t.name.length + 8 * t.shape.length)).sum := by
    intro ts
    induction ts with
    | nil => exact fun _ => rfl
    | cons t ts ih =>
      intro s
      rw [withOffsets, List.flatMap_cons, List.length_append, ih, length_ggufWriteTensorInfo, List.map_cons,
        List.sum_cons]
  have hsum := ((sort.perm compareBlocks ts).map (fun t => 24 + t.name.length + 8 * t.shape.length)).sum_nat
  have hmagic : (ascii "GGUF").length = 4 := by decide
  simp only [writeHeader, List.length_append, length_le, hkeys, hinfos, hsum, hmagic, headerSize]

/-- A header does not depend on what the tensors write. -/
theorem writeHeader_congr (kvs : List Bytes) {ts ts' : List Tensor} (h : ts'.map Tensor.header = ts.map Tensor.header) :
    writeHeader kvs ts' = writeHeader kvs ts := by
  have hinfos : ∀ (ts : List Tensor) (s : UInt64), (withOffsets s ts).flatMap ggufWriteTensorInfo =
      (withOffsets s (ts.map Tensor.header)).flatMap ggufWriteTensorInfo := by
    intro ts
    induction ts with
    | nil => exact fun _ => rfl
    | cons t ts ih =>
      intro s
      rw [List.map_cons, withOffsets, withOffsets, List.flatMap_cons, List.flatMap_cons, ih]
      rfl
  have hlen : ts'.length = ts.length := by simpa using congrArg List.length h
  rw [writeHeader, writeHeader, hinfos ts', h, ← hinfos ts, hlen]

/-- The sizes of tensors depend on their headers only. -/
theorem sizes_congr {ts ts' : List Tensor} (h : ts'.map Tensor.header = ts.map Tensor.header) :
    sizes ts' = sizes ts := by
  have hmap : ∀ ts : List Tensor, sizes ts = (ts.map Tensor.header).map (fun t => t.size.toNat) := by
    intro ts
    rw [List.map_map]
    rfl
  rw [hmap, hmap, h]

/-- Tensors are sorted by their headers. -/
theorem header_run (sort : StableSort) (ts : List Tensor) :
    (sort.run compareBlocks ts).map Tensor.header = sort.run compareBlocks (ts.map Tensor.header) :=
  sort.map Tensor.header compareBlocks ts

/-- The sizes of the tensors in order depend on their headers only. -/
theorem sizes_run_congr {sort : StableSort} {ts ts' : List Tensor} (h : ts'.map Tensor.header = ts.map Tensor.header) :
    sizes (sort.run compareBlocks ts') = sizes (sort.run compareBlocks ts) :=
  sizes_congr (by rw [header_run, header_run, h])

/-- The size of the header depends on the headers only. -/
theorem headerSize_congr {kv : KV} {ts ts' : List Tensor} (h : ts'.map Tensor.header = ts.map Tensor.header) :
    headerSize kv ts' = headerSize kv ts := by
  have hmap : ∀ ts : List Tensor, ts.map (fun t => 24 + t.name.length + 8 * t.shape.length) =
      (ts.map Tensor.header).map (fun t => 24 + t.name.length + 8 * t.shape.length) := by
    intro ts
    rw [List.map_map]
    rfl
  rw [headerSize, headerSize, hmap, h, ← hmap]

/-- A size is 0 if its number is. -/
theorem size_eq_zero_iff (n : UInt64) : n = 0 ↔ n.toNat = 0 := by
  rw [← UInt64.toNat_inj]
  rfl

/-- The condition, as the agreement of two ways to find the tensors. -/
theorem unpadded_iff {sort : StableSort} {kv : KV} {ts : List Tensor} :
    Unpadded sort kv ts ↔ ∀ i s, (sizes (sort.run compareBlocks ts))[i]? = some s → 0 < s →
      padded (headerSize kv ts) kv.alignment + ((sizes (sort.run compareBlocks ts)).take i).sum =
        startOf (sizes (sort.run compareBlocks ts)) (headerSize kv ts) i := by
  have hperm := sort.perm compareBlocks ts
  rw [starts_agree_iff, Unpadded, sizes, List.forall_mem_map, List.pairwise_map]
  have hzero : (∀ t ∈ ts, t.size = 0) ↔ ∀ t ∈ sort.run compareBlocks ts, t.size.toNat = 0 := by
    simp only [size_eq_zero_iff, hperm.mem_iff]
  have hpad : ggufPadding (headerSize kv ts) kv.alignment = ggufPadding (headerSize kv ts) 32 ↔
      padded (headerSize kv ts) kv.alignment = padded (headerSize kv ts) 32 := by
    unfold padded
    omega
  rw [hzero, hpad]
  simp only [ne_eq, size_eq_zero_iff, Nat.pos_iff_ne_zero]

/-! ## A file and its decoded model -/

/-- What is known of a written file and of what is decoded from it. -/
structure Decoded (sort : StableSort) (kv : KV) (ts : List Tensor) (file header : Bytes) (m : Gguf) : Prop where
  written : file = ggufWriteTensors 32 (sort.run compareBlocks ts) header
  headerLength : header.length = headerSize kv ts
  small : file.length < 2 ^ 63
  tensors : m.tensors = (withOffsets 0 (sort.run compareBlocks ts)).map Tensor.decoded
  offset : m.tensorOffset = padded (headerSize kv ts) kv.alignment

variable {sort : StableSort} {kv : KV} {ts : List Tensor} {file header : Bytes} {m : Gguf} {maxArraySize : Int}
  {stop : Nat}

/-- Tensors that are valid are so in order. -/
theorem valid_run (h : ∀ t ∈ ts, t.Valid) : ∀ t ∈ sort.run compareBlocks ts, t.Valid :=
  fun t ht => h t ((sort.perm compareBlocks ts).mem_iff.1 ht)

/-- A file that was written is decoded to its tensors. -/
theorem decoded_of_ok (hvalid : ∀ t ∈ ts, t.Valid) (hw : writeGGUF sort kv ts = .ok file)
    (hd : decode maxArraySize file = .ok (m, stop)) : ∃ header, Decoded sort kv ts file header m := by
  obtain ⟨kvs, hkvs, hfile, hsmall⟩ := writeGGUF_eq_ok.1 hw
  obtain ⟨data, hdata⟩ :=
    ggufWriteTensors_prefix (sort.run compareBlocks ts) (writeHeader kvs (sort.run compareBlocks ts))
  have hlen : (writeHeader kvs (sort.run compareBlocks ts)).length < 2 ^ 63 := by
    rw [hfile, ← hdata, List.length_append] at hsmall
    omega
  obtain ⟨out, hout, hm⟩ := decode_written maxArraySize hkvs (fun t ht => (valid_run hvalid t ht).dims) hlen
  have hok : out = .ok (m, stop) := by
    rw [← hout data, hdata, ← hfile]
    exact hd
  obtain ⟨htensors, hoffset⟩ := hm m stop hok
  rw [length_writeHeader hkvs] at hoffset
  exact ⟨_, hfile, length_writeHeader hkvs, hsmall, htensors, hoffset⟩

/-- The sizes of the tensors fit in a file. -/
theorem Decoded.sum_lt (d : Decoded sort kv ts file header m) (hvalid : ∀ t ∈ ts, t.Valid) :
    (sizes (sort.run compareBlocks ts)).sum < 2 ^ 63 := by
  have hle := sum_dataSizes_le (sort.run compareBlocks ts) header
  have hsmall := d.small
  rw [← d.written, dataSizes_eq (valid_run hvalid)] at hle
  omega

/-- A decoded tensor is the one that was written at its place, and its offset is the sum of the sizes before it. -/
theorem Decoded.tensor (d : Decoded sort kv ts file header m) (hvalid : ∀ t ∈ ts, t.Valid) {i : Nat} {t : Tensor}
    (h : m.tensors[i]? = some t) : ∃ w, (sort.run compareBlocks ts)[i]? = some w ∧ t.name = w.name ∧ t.kind = w.kind ∧
      t.shape = w.shape.reverse ∧ t.size = w.size ∧
        t.offset.toNat = ((sizes (sort.run compareBlocks ts)).take i).sum := by
  have hi : i < (sort.run compareBlocks ts).length := by
    have := (List.getElem?_eq_some_iff.1 h).1
    rw [d.tensors, List.length_map, length_withOffsets] at this
    exact this
  have hw := List.getElem?_eq_getElem hi
  have hsum := d.sum_lt hvalid
  obtain ⟨offset, hoffset, hval⟩ := getElem?_withOffsets (s := 0) hw (by rw [UInt64.toNat_zero]; omega)
  rw [d.tensors, List.getElem?_map, hoffset, Option.map_some, Option.some.injEq] at h
  subst h
  refine ⟨_, hw, rfl, rfl, rfl, ?_, ?_⟩
  · rw [size_decoded]
    rfl
  · rw [UInt64.toNat_zero, Nat.zero_add] at hval
    exact hval

/-- The sizes before a tensor, and its own. -/
theorem sum_take_le {sizes : List Nat} {i j s : Nat} (hs : sizes[i]? = some s) (hij : i < j) :
    (sizes.take i).sum + s ≤ (sizes.take j).sum := by
  obtain ⟨hi, hget⟩ := List.getElem?_eq_some_iff.1 hs
  obtain ⟨k, rfl⟩ : ∃ k, j = (i + 1) + k := ⟨j - (i + 1), by omega⟩
  rw [List.take_add, List.sum_append, List.take_succ_eq_append_getElem hi, List.sum_append, hget, List.sum_singleton]
  exact Nat.le_add_right _ _

/-- The regions of different tensors do not overlap, whatever the condition. -/
theorem Decoded.disjoint (d : Decoded sort kv ts file header m) (hvalid : ∀ t ∈ ts, t.Valid) {i j : Nat} {t u : Tensor}
    (hij : i ≠ j) (ht : m.tensors[i]? = some t) (hu : m.tensors[j]? = some u) :
    t.offset.toNat + t.size.toNat ≤ u.offset.toNat ∨ u.offset.toNat + u.size.toNat ≤ t.offset.toNat := by
  obtain ⟨w, hw, _, _, _, hsize, hoffset⟩ := d.tensor hvalid ht
  obtain ⟨v, hv, _, _, _, hsize', hoffset'⟩ := d.tensor hvalid hu
  rw [hoffset, hoffset', hsize, hsize']
  have hws : (sizes (sort.run compareBlocks ts))[i]? = some w.size.toNat := by rw [sizes, List.getElem?_map, hw]; rfl
  have hvs : (sizes (sort.run compareBlocks ts))[j]? = some v.size.toNat := by rw [sizes, List.getElem?_map, hv]; rfl
  rcases Nat.lt_or_gt_of_ne hij with hlt | hgt
  · exact Or.inl (sum_take_le hws hlt)
  · exact Or.inr (sum_take_le hvs hgt)

/-- Under the condition every tensor is found. -/
theorem Decoded.addressed (d : Decoded sort kv ts file header m) (hvalid : ∀ t ∈ ts, t.Valid)
    (h : Unpadded sort kv ts) :
    Addressed file m (sort.run compareBlocks ts) where
  length := by rw [d.tensors, List.length_map, length_withOffsets]
  same i t w ht hw := by
    obtain ⟨w', hw', hname, hkind, hshape, _⟩ := d.tensor hvalid ht
    rw [hw, Option.some.injEq] at hw'
    subst hw'
    exact ⟨hname, hkind, hshape⟩
  bytes i t w ht hw := by
    obtain ⟨w', hw', _, _, _, hsize, hoffset⟩ := d.tensor hvalid ht
    rw [hw, Option.some.injEq] at hw'
    subst hw'
    have hdata := (valid_run hvalid w (List.mem_of_getElem? hw)).size
    rw [hsize]
    by_cases hzero : w.size.toNat = 0
    · rw [hzero, List.take_zero]
      rw [hzero] at hdata
      exact (List.length_eq_zero_iff.1 hdata).symm
    · have hs : (sizes (sort.run compareBlocks ts))[i]? = some w.size.toNat := by rw [sizes, List.getElem?_map, hw]; rfl
      have hagree := unpadded_iff.1 h i _ hs (Nat.pos_of_ne_zero hzero)
      have hbytes := take_drop_ggufWriteTensors header hw
      rw [← d.written, d.headerLength, dataSizes_eq (valid_run hvalid), hdata] at hbytes
      rw [d.offset, hoffset, hagree]
      exact hbytes
  disjoint i j t u hij ht hu := d.disjoint hvalid hij ht hu

/-! ## Other data -/

/-- Tensors that write something else of the same sizes are written too, and the same is decoded. -/
theorem same_headers {ts' : List Tensor} (hheaders : ts'.map Tensor.header = ts.map Tensor.header)
    (hvalid : ∀ t ∈ ts, t.Valid) (hvalid' : ∀ t ∈ ts', t.Valid) (hw : writeGGUF sort kv ts = .ok file)
    (hd : decode maxArraySize file = .ok (m, stop)) :
    ∃ file', writeGGUF sort kv ts' = .ok file' ∧ decode maxArraySize file' = .ok (m, stop) := by
  obtain ⟨kvs, hkvs, rfl, hsmall⟩ := writeGGUF_eq_ok.1 hw
  have hrun : (sort.run compareBlocks ts').map Tensor.header = (sort.run compareBlocks ts).map Tensor.header := by
    rw [header_run, header_run, hheaders]
  have hheader := writeHeader_congr kvs hrun
  have hsizes : dataSizes (sort.run compareBlocks ts') = dataSizes (sort.run compareBlocks ts) := by
    rw [dataSizes_eq (valid_run hvalid), dataSizes_eq (valid_run hvalid'), sizes_congr hrun]
  have hlen := length_ggufWriteTensors hsizes (congrArg List.length hheader)
  obtain ⟨data, hdata⟩ :=
    ggufWriteTensors_prefix (sort.run compareBlocks ts) (writeHeader kvs (sort.run compareBlocks ts))
  obtain ⟨data', hdata'⟩ :=
    ggufWriteTensors_prefix (sort.run compareBlocks ts') (writeHeader kvs (sort.run compareBlocks ts'))
  have hsmall' : (writeHeader kvs (sort.run compareBlocks ts)).length < 2 ^ 63 := by
    rw [← hdata, List.length_append] at hsmall
    omega
  obtain ⟨out, hout, _⟩ := decode_written maxArraySize hkvs (fun t ht => (valid_run hvalid t ht).dims) hsmall'
  refine ⟨_, writeGGUF_eq_ok.2 ⟨kvs, hkvs, rfl, hlen ▸ hsmall⟩, ?_⟩
  rw [← hdata', hheader, hout data', ← hout data, hdata]
  exact hd

/-- The tensor that came at place `k` writes ones, and all others write zeros. -/
def mark (k : Nat) (x : Tensor × Nat) : Tensor :=
  { x.1 with writerTo := List.replicate x.1.size.toNat (if x.2 = k then 1 else 0) }

/-- A mark leaves the headers. -/
theorem header_mark (k : Nat) (ts : List Tensor) :
    (ts.zipIdx.map (mark k)).map Tensor.header = ts.map Tensor.header := by
  have : ts.map Tensor.header = ts.zipIdx.map (Tensor.header ∘ Prod.fst) := by
    rw [← List.map_map, List.zipIdx_map_fst]
  rw [this, List.map_map]
  rfl

/-- A mark leaves tensors valid. -/
theorem valid_mark (k : Nat) {ts : List Tensor} (h : ∀ t ∈ ts, t.Valid) : ∀ t ∈ ts.zipIdx.map (mark k), t.Valid := by
  intro t ht
  obtain ⟨⟨t', j⟩, hmem, rfl⟩ := List.mem_map.1 ht
  have ht' : t' ∈ ts := by
    rw [← List.zipIdx_map_fst 0 ts]
    exact List.mem_map_of_mem hmem
  refine ⟨(h t' ht').dims, ?_⟩
  rw [mark, List.length_replicate]
  rfl

/-- The tensors with the places they came at, as they are sorted. -/
def places (sort : StableSort) (ts : List Tensor) : List (Tensor × Nat) :=
  sort.run (fun a b => compareBlocks a.1 b.1) ts.zipIdx

/-- The tensors in order are those that the places are given to. -/
theorem run_eq_places (sort : StableSort) (ts : List Tensor) :
    sort.run compareBlocks ts = (places sort ts).map Prod.fst := by
  rw [places, sort.map Prod.fst compareBlocks, List.zipIdx_map_fst]

/-- Marked tensors are put in the same order. -/
theorem run_mark (sort : StableSort) (k : Nat) (ts : List Tensor) :
    sort.run compareBlocks (ts.zipIdx.map (mark k)) = (places sort ts).map (mark k) :=
  (sort.map (mark k) compareBlocks _).symm

/-- No place is there twice. -/
theorem places_inj {i j k : Nat} {t u : Tensor} (hi : (places sort ts)[i]? = some (t, k))
    (hj : (places sort ts)[j]? = some (u, k)) :
    i = j := by
  have hnodup : ((places sort ts).map Prod.snd).Nodup := by
    have hperm : (places sort ts).Perm ts.zipIdx := sort.perm _ _
    rw [(hperm.map Prod.snd).nodup_iff, List.zipIdx_map_snd]
    exact List.nodup_range' ..
  have hi' : ((places sort ts).map Prod.snd)[i]? = some k := by rw [List.getElem?_map, hi]; rfl
  have hj' : ((places sort ts).map Prod.snd)[j]? = some k := by rw [List.getElem?_map, hj]; rfl
  obtain ⟨h1, h1'⟩ := List.getElem?_eq_some_iff.1 hi'
  obtain ⟨h2, h2'⟩ := List.getElem?_eq_some_iff.1 hj'
  exact (List.Nodup.getElem_inj_iff hnodup).1 (h1'.trans h2'.symm)

/-- A window of the file with the ones of the marked tensor only is where that tensor is. -/
theorem window_of_ones {i k : Nat} {w : Tensor} {q : Nat} (hw : (places sort ts)[i]? = some (w, k))
    (hpos : 0 < w.size.toNat) (hq : header.length ≤ q)
    (hones : ((ggufWriteTensors 32 ((places sort ts).map (mark k)) header).drop q).take w.size.toNat =
      List.replicate w.size.toNat 1) :
    q = startOf (sizes (sort.run compareBlocks ts)) header.length i := by
  have hsizes : dataSizes ((places sort ts).map (mark k)) = sizes (sort.run compareBlocks ts) := by
    rw [run_eq_places, dataSizes, sizes, List.map_map, List.map_map]
    exact List.map_congr_left (fun x _ => List.length_replicate)
  -- every byte of the window is one of the marked tensor
  have hbyte : ∀ n, n < w.size.toNat → startOf (sizes (sort.run compareBlocks ts)) header.length i ≤ q + n ∧
      q + n < startOf (sizes (sort.run compareBlocks ts)) header.length i + w.size.toNat := by
    intro n hn
    have hget : (ggufWriteTensors 32 ((places sort ts).map (mark k)) header)[q + n]? = some 1 := by
      have := congrArg (·[n]?) hones
      simpa [List.getElem?_take_of_lt hn, List.getElem?_drop, List.getElem?_replicate, hn] using this
    obtain ⟨j, t, hj, hstart, hone⟩ := getElem?_ggufWriteTensors (by omega) (by decide) hget
    rw [hsizes] at hstart hone
    rw [List.getElem?_map, Option.map_eq_some_iff] at hj
    obtain ⟨⟨u, k'⟩, hu, rfl⟩ := hj
    obtain ⟨hlt, hval⟩ := List.getElem?_eq_some_iff.1 hone
    have hk : k' = k := by
      by_contra hne
      simp [mark, hne] at hval
    subst hk
    have hij := places_inj hw hu
    subst hij
    rw [hw, Option.some.injEq, Prod.mk.injEq] at hu
    have hlen : (mark k' (u, k')).writerTo.length = w.size.toNat := by
      rw [hu.1]
      exact List.length_replicate
    omega
  have h0 := hbyte 0 hpos
  have hlast := hbyte (w.size.toNat - 1) (by omega)
  omega

end AddressingAux

open AddressingAux

/-- For a file that is written and decoded: whatever the tensors write, each decoded tensor finds it, exactly when no
padding comes between a tensor and the next and the header is padded as the decoder pads it. -/
theorem tensors_addressed_iff {sort : StableSort} {kv : KV} {ts : List Tensor} {file : Bytes} {m : Gguf}
    {maxArraySize : Int} {stop : Nat} (hvalid : ∀ t ∈ ts, t.Valid) (hw : writeGGUF sort kv ts = .ok file)
    (hd : decode maxArraySize file = .ok (m, stop)) :
    (∀ (ts' : List Tensor) (file' : Bytes) (m' : Gguf) (stop' : Nat), ts'.map Tensor.header = ts.map Tensor.header →
      (∀ t ∈ ts', t.Valid) → writeGGUF sort kv ts' = .ok file' → decode maxArraySize file' = .ok (m', stop') →
      Addressed file' m' (sort.run compareBlocks ts')) ↔ Unpadded sort kv ts := by
  constructor
  · intro h
    rw [unpadded_iff]
    intro i s hs hpos
    rw [sizes, run_eq_places, List.map_map, List.getElem?_map, Option.map_eq_some_iff] at hs
    obtain ⟨⟨w, k⟩, hplace, rfl⟩ := hs
    -- the tensor writes ones and all others zeros
    obtain ⟨file', hw', hd'⟩ := same_headers (header_mark k ts) hvalid (valid_mark k hvalid) hw hd
    have haddressed := h _ file' m stop (header_mark k ts) (valid_mark k hvalid) hw' hd'
    obtain ⟨header, d⟩ := decoded_of_ok (valid_mark k hvalid) hw' hd'
    have hw₁ : (sort.run compareBlocks (ts.zipIdx.map (mark k)))[i]? = some (mark k (w, k)) := by
      rw [run_mark, List.getElem?_map, hplace]
      rfl
    have hi : i < m.tensors.length := by
      rw [haddressed.length]
      exact (List.getElem?_eq_some_iff.1 hw₁).1
    have ht := List.getElem?_eq_getElem hi
    obtain ⟨w', hw', _, _, _, hsize, hoffset⟩ := d.tensor (valid_mark k hvalid) ht
    rw [hw₁, Option.some.injEq] at hw'
    have hbytes := haddressed.bytes i _ _ ht hw₁
    have hsize' : (mark k (w, k)).size = w.size := rfl
    have hones : (mark k (w, k)).writerTo = List.replicate w.size.toNat 1 := by simp [mark]
    rw [hsize, ← hw', hsize', hones, d.written, d.offset, hoffset, headerSize_congr (header_mark k ts),
      sizes_run_congr (header_mark k ts), run_mark] at hbytes
    have hstart := window_of_ones hplace hpos ?_ hbytes
    · rw [d.headerLength, headerSize_congr (header_mark k ts)] at hstart
      exact hstart
    · rw [d.headerLength, headerSize_congr (header_mark k ts)]
      exact Nat.le_trans (le_padded _ _) (Nat.le_add_right _ _)
  · intro h ts' file' m' stop' hheaders hvalid' hw' hd'
    obtain ⟨header', d⟩ := decoded_of_ok hvalid' hw' hd'
    refine d.addressed hvalid' ?_
    rw [unpadded_iff, headerSize_congr hheaders, sizes_run_congr hheaders]
    exact unpadded_iff.1 h

/-! ## Two tensors -/

/-- Two tensors of 32-bit numbers, the first of `n` bytes and the second of one number. -/
def twoTensors (n : Nat) : List Tensor :=
  [{ name := ascii "a", kind := 0, shape := [UInt64.ofNat n / 4], writerTo := List.replicate n 1 },
    { name := ascii "b", kind := 0, shape := [1], writerTo := [2, 2, 2, 2] }]

/-- A file without keys, and what is decoded from it. -/
def written (ts : List Tensor) : Option (Bytes × Gguf) :=
  (writeGGUF insertionSort ⟨[], List.nodup_nil⟩ ts).toOption.bind (fun file =>
    (decode 0 file).toOption.map (fun out => (file, out.1)))

/-- The test has written a file and decoded it. -/
theorem ok_of_written {ts : List Tensor} {file : Bytes} {m : Gguf} (h : written ts = some (file, m)) :
    ∃ stop, writeGGUF insertionSort ⟨[], List.nodup_nil⟩ ts = .ok file ∧ decode 0 file = .ok (m, stop) := by
  unfold written at h
  rcases hw : writeGGUF insertionSort ⟨[], List.nodup_nil⟩ ts with e | file'
  · rw [hw] at h
    nomatch h
  · rw [hw] at h
    rcases hd : decode 0 file' with e | ⟨m', stop⟩
    · simp [Except.toOption, hd] at h
    · simp only [Except.toOption, hd, Option.bind_some, Option.map_some, Option.some.injEq, Prod.mk.injEq] at h
      obtain ⟨rfl, rfl⟩ := h
      exact ⟨stop, rfl, hd⟩

/-- Whether tensors are valid is decided. -/
theorem valid_of_decide {ts : List Tensor}
    (h : ts.all (fun t => t.shape.length < 2 ^ 32 ∧ t.writerTo.length = t.size.toNat)) :
    ∀ t ∈ ts, t.Valid := by
  intro t ht
  have := List.all_eq_true.1 h t ht
  rw [decide_eq_true_eq] at this
  exact ⟨this.1, this.2⟩

/-- A first tensor of 32 bytes: both are found. -/
theorem tensors_addressed_32 : ∃ (file : Bytes) (m : Gguf) (stop : Nat),
    writeGGUF insertionSort ⟨[], List.nodup_nil⟩ (twoTensors 32) = .ok file ∧ decode 0 file = .ok (m, stop) ∧
      Addressed file m (insertionSort.run compareBlocks (twoTensors 32)) := by
  have hvalid : ∀ t ∈ twoTensors 32, t.Valid := valid_of_decide (by decide +kernel)
  have hsome : (written (twoTensors 32)).isSome := by decide +kernel
  obtain ⟨⟨file, m⟩, hwritten⟩ := Option.isSome_iff_exists.1 hsome
  obtain ⟨stop, hw, hd⟩ := ok_of_written hwritten
  have hunpadded : Unpadded insertionSort ⟨[], List.nodup_nil⟩ (twoTensors 32) :=
    Or.inr ⟨by decide +kernel, by decide +kernel⟩
  exact ⟨file, m, stop, hw, hd, (tensors_addressed_iff hvalid hw hd).2 hunpadded
    (twoTensors 32) file m stop rfl hvalid hw hd⟩

/-- A first tensor of 4 bytes: the second is looked for in the padding. -/
theorem tensors_misplaced :
    ¬∀ (sort : StableSort) (kv : KV) (ts : List Tensor) (file : Bytes) (maxArraySize : Int) (m : Gguf) (stop : Nat),
      (∀ t ∈ ts, t.Valid) → writeGGUF sort kv ts = .ok file → decode maxArraySize file = .ok (m, stop) →
      Addressed file m (sort.run compareBlocks ts) := by
  intro h
  have hvalid : ∀ t ∈ twoTensors 4, t.Valid := valid_of_decide (by decide +kernel)
  have hfound : (written (twoTensors 4)).map (fun out => (out.2.tensors[1]?).map (fun t =>
      (out.1.drop (out.2.tensorOffset + t.offset.toNat)).take t.size.toNat)) =
        some (some [0, 0, 0, 0]) := by decide +kernel
  have hgiven : ((insertionSort.run compareBlocks (twoTensors 4))[1]?).map Tensor.writerTo = some [2, 2, 2, 2] := by
    decide +kernel
  simp only [Option.map_eq_some_iff] at hfound hgiven
  obtain ⟨⟨file, m⟩, hwritten, t, ht, hbytes⟩ := hfound
  obtain ⟨w, hw, hdata⟩ := hgiven
  obtain ⟨stop, hwrite, hd⟩ := ok_of_written hwritten
  have := (h insertionSort ⟨[], List.nodup_nil⟩ (twoTensors 4) file 0 m stop hvalid hwrite hd).bytes 1 t w ht hw
  rw [hbytes, hdata] at this
  nomatch this

end Ollama.Ggml
