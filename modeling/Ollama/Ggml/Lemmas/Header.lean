import Ollama.Ggml.Gguf

/-!
# Reading back a header

The header that `WriteGGUF` writes is read back field by field, for every number of array elements to collect: the
keys with their values and the tensors with their offsets, each shape reversed. The lengths in it are not too large
because the file is not.
-/

namespace Ollama.Ggml

open Lib Reader

/-! ## Numbers and strings -/

/-- Bytes are read back. -/
theorem reads_readFull (b : Bytes) : Reads (readFull b.length) b b := by
  intro rest
  simp [readFull]

/-- A number is read back. -/
theorem reads_uint {n x : Nat} (h : x < 256 ^ n) : Reads (readUint .littleEndian n) (le n x) x := by
  have hread : Reads (readFull n) (le n x) (le n x) := by
    have := reads_readFull (le n x)
    rwa [length_le] at this
  have hval : ByteOrder.littleEndian.uint (le n x) = x := by
    rw [ByteOrder.uint, ofLe_le, Nat.mod_eq_of_lt h]
  have := hread.map (f := ByteOrder.littleEndian.uint)
  rwa [hval] at this

/-- A container as `WriteGGUF` writes it, where every allocation succeeds. -/
structure Written (c : ContainerGGUF) : Prop where
  byteOrder : c.byteOrder = .littleEndian
  version : c.version ≠ 1
  maxAlloc : c.maxAlloc = none

variable {c : ContainerGGUF}

/-- A number is read back from a file that was written. -/
theorem Written.uint (hc : Written c) {n x : Nat} (h : x < 256 ^ n) : Reads (readUint c.byteOrder n) (le n x) x := by
  rw [hc.byteOrder]
  exact reads_uint h

/-- In a file that was written nothing stands where memory is made. -/
theorem Written.make (hc : Written c) (width n : Nat) : Reads (make c width n) [] () := by
  rw [Ggml.make, hc.maxAlloc, if_pos (makes_none width n)]
  exact reads_pure ()

/-- Nor does anything stand where memory is made for a string. -/
theorem Written.stringBuffer (hc : Written c) {length : Nat} (h : length < 2 ^ 63) :
    Reads (stringBuffer c length) [] () := by
  rw [Ggml.stringBuffer, if_neg (Nat.not_le.2 h)]
  split
  · exact hc.make 1 length
  · exact reads_pure ()

/-- A string is read back. -/
theorem Written.readGGUFString (hc : Written c) {s : Bytes} (h : s.length < 2 ^ 63) :
    Reads (readGGUFString c) (writeString s) s := by
  rw [Ggml.readGGUFString, if_neg hc.version]
  exact (hc.uint (by omega)).bind ((hc.stringBuffer h).bind (reads_readFull s))

/-- A string is read back as a value. -/
theorem Written.readStr (hc : Written c) {s : Bytes} (h : s.length < 2 ^ 63) :
    Reads (readStr c) (writeString s) (.string s) :=
  (hc.readGGUFString h).map

/-- A string is passed over. -/
theorem Written.skipStr (hc : Written c) {s : Bytes} (h : s.length < 2 ^ 63) :
    Reads (skipStr c) (writeString s) (.string []) := by
  have hdiscard : Reads (discardGGUFString c) (writeString s) () := by
    refine Reads.bind (hc.uint (by omega)) (fun rest => ?_)
    rw [if_neg (Nat.not_le.2 h), if_pos (by simp), List.drop_left]
  exact hdiscard.map (f := fun _ => Scalar.string [])

/-! ## Values -/

/-- The elements of an array as they are read. -/
def elements (c : ContainerGGUF) {α : Type} (val : α → Scalar) (vs : List α) : Value :=
  .array vs.length (if c.canCollectArray vs.length then some (vs.map val) else none)

/-- A value as it is read. -/
def Any.value (c : ContainerGGUF) : Any → Value
  | .uint32 v => .scalar (.uint32 v)
  | .float32 bits => .scalar (.float32 bits)
  | .bool v => .scalar (.bool v)
  | .string v => .scalar (.string v)
  | .int32s vs => elements c .int32 vs
  | .uint32s vs => elements c .uint32 vs
  | .float32s bits => elements c .float32 bits
  | .strings vs => elements c .string vs
  | .other => .array 0 none

/-- An array is read back when its elements are, whether they are collected or not. -/
theorem Written.readGGUFArray (hc : Written c) {α : Type} {enc : α → Bytes} {val skip : α → Scalar}
    {vs : List α} {t : Nat} (ht : t < 256) (hlen : vs.length < 2 ^ 63)
    (hval : ∀ v ∈ vs, Reads (readElement c (Ggml.readStr c) (UInt32.ofNat t)) (enc v) (val v))
    (hskip : ∀ v ∈ vs, Reads (readElement c (Ggml.skipStr c) (UInt32.ofNat t)) (enc v) (skip v)) :
    Reads (readGGUFArray c) (le 4 t ++ (le 8 vs.length ++ vs.flatMap enc)) (elements c val vs) := by
  rw [Ggml.readGGUFArray, if_neg hc.version, elements]
  refine Reads.bind (hc.uint (by omega)) (Reads.bind (hc.uint (by omega)) ?_)
  rw [if_neg (Nat.not_le.2 hlen)]
  by_cases hcollect : c.canCollectArray vs.length = true
  · rw [if_pos hcollect, if_pos hcollect]
    exact (hc.make 16 vs.length).bind ((reads_times hval).map (f := fun values => Value.array vs.length (some values)))
  · rw [if_neg hcollect, if_neg hcollect]
    exact (reads_times hskip).map (f := fun _ => Value.array vs.length none)

/-- A number of a fixed width as a value. -/
theorem Written.number (hc : Written c) {n x : Nat} {f : Nat → Scalar} {v : Scalar} (h : x < 256 ^ n) (hv : f x = v) :
    Reads (do pure (f (← readUint c.byteOrder n)) : Reader Err Scalar) (le n x) v := by
  rw [← hv]
  exact (hc.uint h).map

/-- An unsigned integer is read back as an element. -/
theorem Written.uint32 (hc : Written c) (str : Reader Err Scalar) (v : UInt32) :
    Reads (readElement c str (UInt32.ofNat 4)) (le 4 v.toNat) (.uint32 v) :=
  hc.number v.toNat_lt (congrArg Scalar.uint32 UInt32.ofNat_toNat)

/-- A signed integer is read back as an element. -/
theorem Written.int32 (hc : Written c) (str : Reader Err Scalar) (v : Int32) :
    Reads (readElement c str (UInt32.ofNat 5)) (le 4 v.toUInt32.toNat) (.int32 v) := by
  refine hc.number v.toUInt32.toNat_lt (f := fun x => Scalar.int32 (UInt32.ofNat x).toInt32) ?_
  simp

/-- The bits of a float are read back as an element. -/
theorem Written.float32 (hc : Written c) (str : Reader Err Scalar) (v : UInt32) :
    Reads (readElement c str (UInt32.ofNat 6)) (le 4 v.toNat) (.float32 v) :=
  hc.number v.toNat_lt (congrArg Scalar.float32 UInt32.ofNat_toNat)

/-- A truth value is read back as an element. -/
theorem Written.bool (hc : Written c) (str : Reader Err Scalar) (v : Bool) :
    Reads (readElement c str (UInt32.ofNat 7)) (le 1 v.toNat) (.bool v) := by
  refine hc.number (f := fun x => Scalar.bool (decide (x ≠ 0))) ?_ ?_
  · cases v <;> decide
  · cases v <;> rfl

/-! ## Keys -/

/-- A key with a value that is not an array. -/
theorem Written.scalar (hc : Written c) {k payload : Bytes} {v : Scalar} {tag : Nat} (hk : k.length < 2 ^ 63)
    (htag : tag < 9) (hsome : (readScalar c (Ggml.readStr c) (UInt32.ofNat tag)).isSome)
    (hv : Reads (readElement c (Ggml.readStr c) (UInt32.ofNat tag)) payload v) :
    Reads (readKV c) (writeString k ++ (le 4 tag ++ payload)) (k, .scalar v) := by
  refine Reads.bind (hc.readGGUFString hk) (Reads.bind (hc.uint (by omega)) ?_)
  rw [if_neg (by omega)]
  obtain ⟨p, hp⟩ := Option.isSome_iff_exists.1 hsome
  rw [readElement, hp] at hv
  rw [hp]
  exact hv.map

/-- A key with an array. -/
theorem Written.array (hc : Written c) {k payload : Bytes} {v : Value} (hk : k.length < 2 ^ 63)
    (hv : Reads (Ggml.readGGUFArray c) payload v) : Reads (readKV c) (writeString k ++ (le 4 9 ++ payload)) (k, v) := by
  refine Reads.bind (hc.readGGUFString hk) (Reads.bind (hc.uint (by omega)) ?_)
  rw [if_pos rfl]
  exact hv.map

/-- A string takes eight bytes more than it has. -/
theorem length_writeString (s : Bytes) : (writeString s).length = 8 + s.length := by simp [writeString]

/-- There are no more elements than bytes of them. -/
theorem length_le_flatMap {α : Type} (enc : α → Bytes) {vs : List α} (h : ∀ v ∈ vs, 1 ≤ (enc v).length) :
    vs.length ≤ (vs.flatMap enc).length := by
  induction vs with
  | nil => exact Nat.le_refl _
  | cons v vs ih =>
    have hv := h v (List.mem_cons_self ..)
    have hvs := ih (fun w hw => h w (List.mem_cons_of_mem v hw))
    rw [List.flatMap_cons, List.length_append, List.length_cons]
    omega

/-- An element has no more bytes than all of them. -/
theorem length_le_of_mem {α : Type} (enc : α → Bytes) {v : α} {vs : List α} (h : v ∈ vs) :
    (enc v).length ≤ (vs.flatMap enc).length := by
  induction vs with
  | nil => nomatch h
  | cons w vs ih =>
    rw [List.flatMap_cons, List.length_append]
    rcases List.mem_cons.1 h with rfl | hmem
    · omega
    · have := ih hmem
      omega

/-- A key and its value are read back. -/
theorem Written.readKV (hc : Written c) {e : Bytes × Any} {b : Bytes} (h : ggufWriteKV e = .ok b)
    (hb : b.length < 2 ^ 63) :
    Reads (readKV c) b (e.1, e.2.value c) := by
  obtain ⟨k, v⟩ := e
  unfold ggufWriteKV at h
  split at h
  · rename_i payload hpayload
    simp only [Except.ok.injEq] at h
    subst h
    rw [List.length_append, length_writeString] at hb
    have hk : k.length < 2 ^ 63 := by omega
    cases v with
    | uint32 v =>
      simp only [writeValue, Option.some.injEq] at hpayload
      subst hpayload
      exact hc.scalar hk (by decide) rfl (hc.uint32 _ v)
    | float32 bits =>
      simp only [writeValue, Option.some.injEq] at hpayload
      subst hpayload
      exact hc.scalar hk (by decide) rfl (hc.float32 _ bits)
    | bool v =>
      simp only [writeValue, Option.some.injEq] at hpayload
      subst hpayload
      exact hc.scalar hk (by decide) rfl (hc.bool _ v)
    | string v =>
      simp only [writeValue, Option.some.injEq] at hpayload
      subst hpayload
      rw [List.length_append, length_writeString] at hb
      exact hc.scalar hk (by decide) rfl (hc.readStr (by omega))
    | int32s vs =>
      simp only [writeValue, writeGGUFArray, Option.some.injEq, List.append_assoc] at hpayload
      subst hpayload
      have hlen := length_le_flatMap (fun v : Int32 => le 4 v.toUInt32.toNat) (fun v (_ : v ∈ vs) => by simp)
      simp only [List.length_append] at hb
      exact hc.array hk (hc.readGGUFArray (by decide) (by omega) (fun v _ => hc.int32 _ v) (fun v _ => hc.int32 _ v))
    | uint32s vs =>
      simp only [writeValue, writeGGUFArray, Option.some.injEq, List.append_assoc] at hpayload
      subst hpayload
      have hlen := length_le_flatMap (fun v : UInt32 => le 4 v.toNat) (fun v (_ : v ∈ vs) => by simp)
      simp only [List.length_append] at hb
      exact hc.array hk (hc.readGGUFArray (by decide) (by omega) (fun v _ => hc.uint32 _ v) (fun v _ => hc.uint32 _ v))
    | float32s bits =>
      simp only [writeValue, writeGGUFArray, Option.some.injEq, List.append_assoc] at hpayload
      subst hpayload
      have hlen := length_le_flatMap (fun v : UInt32 => le 4 v.toNat) (fun v (_ : v ∈ bits) => by simp)
      simp only [List.length_append] at hb
      exact hc.array hk (hc.readGGUFArray (by decide) (by omega) (fun v _ => hc.float32 _ v)
        (fun v _ => hc.float32 _ v))
    | strings vs =>
      simp only [writeValue, writeGGUFArray, Option.some.injEq, List.append_assoc] at hpayload
      subst hpayload
      have hlen := length_le_flatMap writeString (fun v (_ : v ∈ vs) => by rw [length_writeString]; omega)
      simp only [List.length_append] at hb
      have hmem : ∀ v ∈ vs, v.length < 2 ^ 63 := by
        intro v hv
        have := length_le_of_mem writeString hv
        rw [length_writeString] at this
        omega
      exact hc.array hk (hc.readGGUFArray (by decide) (by omega) (fun v hv => hc.readStr (hmem v hv))
        (fun v hv => hc.skipStr (hmem v hv)))
    | other => nomatch hpayload
  · nomatch h

/-! ## Tensors -/

/-- A tensor as it is read: its shape reversed, and nothing to write. -/
def Tensor.decoded (t : Tensor) : Tensor := { t with shape := t.shape.reverse, writerTo := [] }

/-- A tensor is read back, without its data. -/
theorem Written.readTensor (hc : Written c) {t : Tensor} (hname : t.name.length < 2 ^ 63)
    (hdims : t.shape.length < 2 ^ 32) :
    Reads (readTensor c) (ggufWriteTensorInfo t) t.decoded := by
  have hshape :
      Reads (((readUint c.byteOrder 8).mapError (.wrapped "failed to read tensor shape")).times t.shape.length)
        (t.shape.reverse.flatMap (fun n => le 8 n.toNat)) (t.shape.reverse.map UInt64.toNat) := by
    rw [← List.length_reverse]
    exact reads_times (fun n _ => (hc.uint n.toNat_lt).mapError)
  have hread : Reads (Ggml.readTensor c) (writeString t.name ++ (le 4 t.shape.length ++
      (t.shape.reverse.flatMap (fun n => le 8 n.toNat) ++ (le 4 t.kind.toNat ++ le 8 t.offset.toNat)))) t.decoded := by
    have hoffset := (hc.uint (n := 8) t.offset.toNat_lt).mapError (f := .wrapped "failed to read tensor offset")
    refine (hc.readGGUFString hname).mapError.bind
      ((hc.uint (by omega)).mapError.bind ((hc.make 8 t.shape.length).bind (hshape.bind
      ((hc.uint t.kind.toNat_lt).mapError.bind ?_))))
    have := hoffset.map (f := fun offset => ({
      name := t.name
      kind := UInt32.ofNat t.kind.toNat
      offset := UInt64.ofNat offset
      shape := (t.shape.reverse.map UInt64.toNat).map UInt64.ofNat } : Tensor))
    simpa [Tensor.decoded, Function.comp_def] using this
  simpa only [ggufWriteTensorInfo, List.append_assoc] using hread

/-- What is written of a tensor in the header depends on the lengths of its name and shape only. -/
theorem length_ggufWriteTensorInfo (t : Tensor) :
    (ggufWriteTensorInfo t).length = 24 + t.name.length + 8 * t.shape.length := by
  have hshape : ∀ shape : List UInt64, (shape.flatMap (fun n => le 8 n.toNat)).length = 8 * shape.length := by
    intro shape
    induction shape with
    | nil => rfl
    | cons n shape ih =>
      rw [List.flatMap_cons, List.length_append, ih, length_le, List.length_cons]
      omega
  simp only [ggufWriteTensorInfo, List.length_append, length_writeString, length_le, hshape, List.length_reverse]
  omega

/-- Offsets are given to all tensors. -/
theorem length_withOffsets (s : UInt64) (ts : List Tensor) : (withOffsets s ts).length = ts.length := by
  induction ts generalizing s with
  | nil => rfl
  | cons t ts ih => simp [withOffsets, ih]

/-- The tensors of a header are those that were given, but for their offsets. -/
theorem mem_withOffsets {s : UInt64} {ts : List Tensor} {t : Tensor} (h : t ∈ withOffsets s ts) :
    ∃ t' ∈ ts, ∃ offset, t = { t' with offset := offset } := by
  induction ts generalizing s with
  | nil => nomatch h
  | cons t' ts ih =>
    rcases List.mem_cons.1 h with rfl | hmem
    · exact ⟨t', List.mem_cons_self .., s, rfl⟩
    · obtain ⟨t'', h'', hoffset⟩ := ih hmem
      exact ⟨t'', List.mem_cons_of_mem _ h'', hoffset⟩

/-! ## The header -/

/-- What was written for the entries. -/
theorem mapM_ggufWriteKV {entries : List (Bytes × Any)} {kvs : List Bytes} (h : entries.mapM ggufWriteKV = .ok kvs) :
    ∃ enc : Bytes × Any → Bytes, kvs = entries.map enc ∧ ∀ e ∈ entries, ggufWriteKV e = .ok (enc e) := by
  refine ⟨fun e => (ggufWriteKV e).toOption.getD [], ?_⟩
  induction entries generalizing kvs with
  | nil =>
    simp only [List.mapM_nil, pure, Except.pure, Except.ok.injEq] at h
    exact ⟨h.symm, fun e he => by nomatch he⟩
  | cons e entries ih =>
    rw [List.mapM_cons] at h
    rcases he : ggufWriteKV e with err | b
    · rw [he] at h
      nomatch h
    · rw [he] at h
      rcases hr : entries.mapM ggufWriteKV with err | bs
      · rw [hr] at h
        nomatch h
      · rw [hr] at h
        obtain ⟨hbs, hall⟩ := ih hr
        have hkvs : b :: bs = kvs := Except.ok.inj h
        refine ⟨?_, fun e' he' => ?_⟩
        · rw [← hkvs, List.map_cons, he, hbs]
          rfl
        · rcases List.mem_cons.1 he' with rfl | hmem
          · simp only [he]
            rfl
          · exact hall e' hmem

/-- A key and its value are not written as nothing. -/
theorem one_le_length_ggufWriteKV {e : Bytes × Any} {b : Bytes} (h : ggufWriteKV e = .ok b) : 1 ≤ b.length := by
  unfold ggufWriteKV at h
  split at h
  · rw [← Except.ok.inj h, List.length_append, length_writeString]
    omega
  · nomatch h

/-- The part before the keys is read back. -/
theorem reads_readContainer (numTensor numKV : Nat) (maxArraySize : Int) :
    Reads (readContainer none maxArraySize) (ascii "GGUF" ++ (le 4 3 ++ (le 8 numTensor ++ le 8 numKV)))
      ⟨.littleEndian, 3, UInt64.ofNat (numTensor % 256 ^ 8), UInt64.ofNat (numKV % 256 ^ 8), maxArraySize, none⟩ := by
  have hmagic : Reads (readUint .littleEndian 4) (ascii "GGUF") 0x46554747 := by
    have hascii : ascii "GGUF" = le 4 0x46554747 := by decide
    rw [hascii]
    exact reads_uint (by decide)
  have hcounts : Reads (readFull (2 * 8)) (le 8 numTensor ++ le 8 numKV) (le 8 numTensor ++ le 8 numKV) := by
    have := reads_readFull (le 8 numTensor ++ le 8 numKV)
    rwa [List.length_append, length_le, length_le] at this
  refine hmagic.bind (Reads.bind (reads_uint (by decide)) ?_)
  have := hcounts.map (f := fun b =>
    (⟨.littleEndian, UInt32.ofNat 3, UInt64.ofNat (ByteOrder.littleEndian.uint (b.take 8)),
    UInt64.ofNat (ByteOrder.littleEndian.uint (b.drop 8)), maxArraySize, none⟩ : ContainerGGUF))
  have htake : (le 8 numTensor ++ le 8 numKV).take 8 = le 8 numTensor := List.take_left' (length_le _ _)
  have hdrop : (le 8 numTensor ++ le 8 numKV).drop 8 = le 8 numKV := List.drop_left' (length_le _ _)
  rw [htake, hdrop, ByteOrder.uint, ByteOrder.uint, ofLe_le, ofLe_le] at this
  exact this

/-- The container of a file with as many tensors and keys. -/
def container (numTensor numKV : Nat) (maxArraySize : Int) : ContainerGGUF :=
  ⟨.littleEndian, 3, UInt64.ofNat numTensor, UInt64.ofNat numKV, maxArraySize, none⟩

/-- Keys and tensors after the counts of them are read back. -/
theorem reads_infos {entries : List (Bytes × Any)} {kvs : List Bytes} {ts : List Tensor} (maxArraySize : Int)
    (hkvs : entries.mapM ggufWriteKV = .ok kvs) (hdims : ∀ t ∈ ts, t.shape.length < 2 ^ 32)
    (hlen : kvs.flatten.length + (ts.flatMap ggufWriteTensorInfo).length < 2 ^ 63) :
    Reads (readHeader none maxArraySize)
      (ascii "GGUF" ++ le 4 3 ++ le 8 ts.length ++ le 8 kvs.length ++ kvs.flatten ++ ts.flatMap ggufWriteTensorInfo)
      (entries.map (fun e => (e.1, e.2.value (container ts.length kvs.length maxArraySize))),
        ts.map Tensor.decoded) := by
  obtain ⟨enc, rfl, henc⟩ := mapM_ggufWriteKV hkvs
  have hflat : (entries.map enc).flatten = entries.flatMap enc := rfl
  rw [hflat] at hlen
  have hkey : ∀ e ∈ entries, (enc e).length < 2 ^ 63 := by
    intro e he
    have := length_le_of_mem enc he
    omega
  have hinfo : ∀ t ∈ ts, (ggufWriteTensorInfo t).length < 2 ^ 63 := by
    intro t ht
    have := length_le_of_mem ggufWriteTensorInfo ht
    omega
  have hnkv : entries.length < 2 ^ 63 := by
    have := length_le_flatMap enc (fun e he => one_le_length_ggufWriteKV (henc e he))
    omega
  have hnts : ts.length < 2 ^ 63 := by
    have := length_le_flatMap ggufWriteTensorInfo (fun t (_ : t ∈ ts) => by
      rw [length_ggufWriteTensorInfo]
      omega)
    omega
  have hc : Written (container ts.length entries.length maxArraySize) := ⟨rfl, by simp [container], rfl⟩
  have hcontainer := reads_readContainer ts.length entries.length maxArraySize
  rw [Nat.mod_eq_of_lt (by omega), Nat.mod_eq_of_lt (by omega)] at hcontainer
  have hkeys := reads_times (p := readKV (container ts.length entries.length maxArraySize))
    (fun e (he : e ∈ entries) => hc.readKV (henc e he) (hkey e he))
  have htensor : ∀ t ∈ ts, Reads (readTensor (container ts.length entries.length maxArraySize))
    (ggufWriteTensorInfo t) t.decoded := by
    intro t ht
    have hinfo := hinfo t ht
    rw [length_ggufWriteTensorInfo] at hinfo
    exact hc.readTensor (by omega) (hdims t ht)
  have htensors := reads_times htensor
  have hkv : (container ts.length entries.length maxArraySize).numKV.toNat = entries.length := by
    simp only [container]
    exact UInt64.toNat_ofNat_of_lt' (Nat.lt_trans hnkv (by decide))
  have hts : (container ts.length entries.length maxArraySize).numTensor.toNat = ts.length := by
    simp only [container]
    exact UInt64.toNat_ofNat_of_lt' (Nat.lt_trans hnts (by decide))
  have hread : Reads (readHeader none maxArraySize)
    ((ascii "GGUF" ++ (le 4 3 ++ (le 8 ts.length ++ le 8 entries.length))) ++
      (entries.flatMap enc ++ ts.flatMap ggufWriteTensorInfo))
      (entries.map (fun e => (e.1, e.2.value (container ts.length entries.length maxArraySize))),
        ts.map Tensor.decoded) := by
    refine hcontainer.bind ?_
    show Reads ((readKV (container ts.length entries.length maxArraySize)).times
      (container ts.length entries.length maxArraySize).numKV.toNat >>= _) _ _
    rw [hkv]
    refine hkeys.bind ?_
    show Reads ((readTensor (container ts.length entries.length maxArraySize)).times
      (container ts.length entries.length maxArraySize).numTensor.toNat >>= _) _ _
    rw [hts]
    exact htensors.map
  rw [List.length_map]
  simpa only [List.append_assoc, hflat] using hread

/-- A header is read back. -/
theorem reads_readHeader {entries : List (Bytes × Any)} {kvs : List Bytes} {ts : List Tensor} (maxArraySize : Int)
    (hkvs : entries.mapM ggufWriteKV = .ok kvs) (hdims : ∀ t ∈ ts, t.shape.length < 2 ^ 32)
    (hlen : (writeHeader kvs ts).length < 2 ^ 63) :
    Reads (readHeader none maxArraySize) (writeHeader kvs ts)
      (entries.map (fun e => (e.1, e.2.value (container ts.length kvs.length maxArraySize))),
        (withOffsets 0 ts).map Tensor.decoded) := by
  have hdims' : ∀ t ∈ withOffsets 0 ts, t.shape.length < 2 ^ 32 := by
    intro t ht
    obtain ⟨t', ht', offset, rfl⟩ := mem_withOffsets ht
    exact hdims t' ht'
  simp only [writeHeader, List.length_append] at hlen
  have hread := reads_infos maxArraySize hkvs hdims' (by omega)
  rwa [length_withOffsets] at hread

end Ollama.Ggml
