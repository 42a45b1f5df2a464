import Ollama.Ggml.Gguf

/-!
# What makes decoding panic

`Decode` returns a model or an error unless it gets to one of five fields: the length of a string that is negative as
an `int`, or 0 in version 1, where the terminator is cut off without a look; a count of elements that is negative as
an `int`; an array of version 1 that is collected and has an element that can be read, since it is made with no
elements to assign to; and an alignment of 0, which it divides by. Where not every allocation succeeds, it panics too
at a string, at an array that is collected and at a number of dimensions that are more than can be allocated.
-/

namespace Ollama.Ggml

open Lib Reader

/-- Whether an error is a panic. -/
def Err.Panics : Err → Prop
  | .wrapped _ e => e.Panics
  | .panic => True
  | _ => False

/-! ## Fields that cannot be taken -/

/-- A string follows whose length `readGGUFString` cannot take. -/
def BadString (c : ContainerGGUF) (s : Bytes) : Prop :=
  ∃ length s', readUint c.byteOrder 8 s = .ok (length, s') ∧ (2 ^ 63 ≤ length ∨ (c.version = 1 ∧ length = 0) ∨
    (c.version ≠ 1 ∧ 16 * 1024 < length ∧ makes c.maxAlloc 1 length = false))

/-- The width of the count of an array. -/
def ContainerGGUF.countWidth (c : ContainerGGUF) : Nat := if c.version = 1 then 4 else 8

/-- An array follows that `readGGUFArray` cannot take: its count is negative, or it is a collected one that is too
large, or one of version 1 whose first element can be read, or it has strings that are read, and gets to a bad one. -/
def BadArray (c : ContainerGGUF) (s : Bytes) : Prop :=
  ∃ t s₁ n s₂, readUint c.byteOrder 4 s = .ok (t, s₁) ∧ readUint c.byteOrder c.countWidth s₁ = .ok (n, s₂) ∧
    ((c.version ≠ 1 ∧ 2 ^ 63 ≤ n) ∨ (c.canCollectArray n = true ∧ makes c.maxAlloc 16 n = false) ∨
      (c.version = 1 ∧ c.canCollectArray n = true ∧ 0 < n ∧ ∃ e s₃, readElement c (readStr c) (UInt32.ofNat t) s₂ =
      .ok (e, s₃)) ∨
      (t = 8 ∧ (c.version = 1 ∨ c.canCollectArray n = true) ∧
        ∃ i < n, ∃ es s₃, (readStr c).times i s₂ = .ok (es, s₃) ∧ BadString c s₃))

/-- A key follows that cannot be taken, or a value of it. -/
def BadKV (c : ContainerGGUF) (s : Bytes) : Prop :=
  BadString c s ∨ ∃ k s₁ t s₂, readGGUFString c s = .ok (k, s₁) ∧ readUint c.byteOrder 4 s₁ = .ok (t, s₂) ∧
    ((t = 8 ∧ BadString c s₂) ∨ (t = 9 ∧ BadArray c s₂))

/-- A tensor follows whose name cannot be taken, or its number of dimensions. -/
def BadTensor (c : ContainerGGUF) (s : Bytes) : Prop :=
  BadString c s ∨ ∃ name s₁ dims s₂, readGGUFString c s = .ok (name, s₁) ∧ readUint c.byteOrder 4 s₁ = .ok (dims, s₂) ∧
    makes c.maxAlloc 8 dims = false

/-- `general.alignment` is the number 0. -/
def ZeroAlignment (kvs : List (Bytes × Value)) : Prop :=
  (kvs.foldl (fun kv e => Assoc.set kv e.1 e.2) []).lookup (ascii "general.alignment") = some (.scalar (.uint32 0))

/-- A field of the file that `Decode` gets to is one it cannot take: in a key or its value, in a tensor, or the
alignment. -/
def BadFile (maxAlloc : Option Nat) (maxArraySize : Int) (file : Bytes) : Prop :=
  ∃ c s, readContainer maxAlloc (if maxArraySize = 0 then 1024 else maxArraySize) file = .ok (c, s) ∧
    ((∃ i < c.numKV.toNat, ∃ kvs s₁, (readKV c).times i s = .ok (kvs, s₁) ∧ BadKV c s₁) ∨
      ∃ kvs s₁, (readKV c).times c.numKV.toNat s = .ok (kvs, s₁) ∧
        ((∃ j < c.numTensor.toNat, ∃ ts s₂, (readTensor c).times j s₁ = .ok (ts, s₂) ∧ BadTensor c s₂) ∨
          ∃ ts s₂, (readTensor c).times c.numTensor.toNat s₁ = .ok (ts, s₂) ∧ ZeroAlignment kvs))

variable {c : ContainerGGUF} {s : Bytes}

/-- Reading bytes does not panic. -/
theorem not_fails_readFull (n : Nat) : ¬Fails Err.Panics (readFull n) s := by
  rintro ⟨e, he, h⟩
  unfold readFull at he
  split at he
  · nomatch he
  · rw [← Except.error.inj he] at h
    split at h <;> exact h

/-- Reading a number does not panic. -/
theorem not_fails_readUint (order : ByteOrder) (n : Nat) : ¬Fails Err.Panics (readUint order n) s := by
  rw [readUint, fails_map]
  exact not_fails_readFull n

/-- A number and what follows it. -/
theorem fails_readUint_bind {α : Type} {order : ByteOrder} {n : Nat} {f : Nat → Reader Err α} :
    Fails Err.Panics (readUint order n >>= f) s ↔ ∃ x s', readUint order n s = .ok (x, s') ∧
      Fails Err.Panics (f x) s' := by
  rw [fails_bind]
  exact or_iff_right (not_fails_readUint order n)

/-- `make` panics where the length is not one it makes. -/
theorem fails_make {width n : Nat} : Fails Err.Panics (make c width n) s ↔ makes c.maxAlloc width n = false := by
  unfold make
  split
  · rename_i hmakes
    exact iff_of_false (not_fails_pure ()) (by simp [hmakes])
  · rename_i hmakes
    exact iff_of_true ((fails_fail _).2 trivial) (Bool.not_eq_true _ ▸ hmakes)

/-- Making a slice panics, or what comes after it does. -/
theorem fails_make_bind {α : Type} {width n : Nat} {f : Unit → Reader Err α} :
    Fails Err.Panics (make c width n >>= f) s ↔ makes c.maxAlloc width n = false ∨ Fails Err.Panics (f ()) s := by
  rw [fails_bind, fails_make]
  by_cases hmakes : makes c.maxAlloc width n = true
  · have hmake : make c width n = pure () := by rw [make, if_pos hmakes]
    refine or_congr_right ⟨?_, fun hfail => ⟨(), s, by rw [hmake]; rfl, hfail⟩⟩
    rintro ⟨_, s', hok, hfail⟩
    rw [hmake] at hok
    obtain ⟨-, rfl⟩ := pure_eq_ok.1 hok
    exact hfail
  · rw [Bool.not_eq_true] at hmakes
    exact iff_of_true (.inl hmakes) (.inl hmakes)

/-- Making room for a string panics for a length that is negative, or too large for `make`. -/
theorem fails_stringBuffer {length : Nat} :
    Fails Err.Panics (stringBuffer c length) s ↔ 2 ^ 63 ≤ length ∨
      (16 * 1024 < length ∧ makes c.maxAlloc 1 length = false) := by
  unfold stringBuffer
  split_ifs with hneg hlong
  · exact iff_of_true ((fails_fail _).2 trivial) (.inl hneg)
  · rw [fails_make, or_iff_right hneg, and_iff_right hlong]
  · refine iff_of_false (not_fails_pure ()) ?_
    rintro (hneg' | ⟨hlong', _⟩)
    · exact hneg hneg'
    · exact hlong hlong'

/-- Reading a string panics exactly in the cases of `BadString`. -/
theorem fails_readGGUFString : Fails Err.Panics (readGGUFString c) s ↔ BadString c s := by
  unfold readGGUFString BadString
  split
  · rename_i hv
    rw [readGGUFV1String, fails_readUint_bind]
    refine exists_congr fun length => exists_congr fun s' => and_congr_right fun _ => ?_
    unfold Fails
    constructor
    · rintro ⟨e, he, h⟩
      dsimp only at he
      split_ifs at he with hbad hlen
      · rcases hbad with hbad | hbad
        · exact .inr (.inl ⟨hv, hbad⟩)
        · exact .inl hbad
      · rw [← Except.error.inj he] at h
        exact h.elim
    · intro hbad
      have hlength : length = 0 ∨ 2 ^ 63 ≤ length := by
        rcases hbad with hbad | ⟨_, hbad⟩ | ⟨hv', _⟩
        · exact .inr hbad
        · exact .inl hbad
        · exact absurd hv hv'
      refine ⟨.panic, ?_, trivial⟩
      dsimp only
      rw [if_pos hlength]
  · rename_i hv
    rw [fails_readUint_bind]
    refine exists_congr fun length => exists_congr fun s' => and_congr_right fun _ => ?_
    have hread : ¬∃ x s'', stringBuffer c length s' = .ok (x, s'') ∧ Fails Err.Panics (readFull length) s'' := by
      rintro ⟨_, s'', _, hfail⟩
      exact not_fails_readFull length hfail
    rw [fails_bind, or_iff_left hread, fails_stringBuffer]
    refine or_congr_right ?_
    rw [or_iff_right (fun h => hv h.1), and_iff_right hv]

/-- Reading a string as a value panics exactly in the cases of `BadString`. -/
theorem fails_readStr : Fails Err.Panics (readStr c) s ↔ BadString c s := by
  rw [readStr, fails_map, fails_readGGUFString]

/-- Numbers are smaller than their width allows. -/
theorem ofLe_lt (b : Bytes) : ofLe b < 256 ^ b.length := by
  induction b with
  | nil => exact Nat.one_pos
  | cons x b ih =>
    have hx : x.toNat < 256 := x.toNat_lt
    rw [ofLe, List.length_cons, Nat.pow_succ']
    omega

/-- A number that was read fits in its bytes. -/
theorem readUint_lt {order : ByteOrder} {n x : Nat} {s' : Bytes} (h : readUint order n s = .ok (x, s')) :
    x < 256 ^ n := by
  have hread : (readFull n s).bind (fun out => .ok (order.uint out.1, out.2)) = .ok (x, s') := h
  unfold readFull at hread
  split at hread
  · rename_i hle
    have hx : order.uint (s.take n) = x := congrArg Prod.fst (Except.ok.inj hread)
    have hlen : (s.take n).length = n := List.length_take_of_le hle
    rw [← hx]
    cases order with
    | littleEndian =>
      have hlt := ofLe_lt (s.take n)
      rwa [hlen] at hlt
    | bigEndian =>
      have hlt := ofLe_lt (s.take n).reverse
      rwa [List.length_reverse, hlen] at hlt
  · nomatch hread

/-- A value of a type that has one panics only as a string. -/
theorem fails_readScalar {str p : Reader Err Scalar} {t : UInt32} (h : readScalar c str t = some p) :
    Fails Err.Panics p s ↔ t.toNat = 8 ∧ Fails Err.Panics str s := by
  unfold readScalar at h
  split at h
  all_goals first
    | (rename_i ht
       rw [← Option.some.inj h, fails_map, ht]
       exact iff_of_false (not_fails_readUint _ _) (fun hand => absurd hand.1 (by decide)))
    | (rename_i ht
       rw [← Option.some.inj h, ht]
       exact (and_iff_right rfl).symm)
    | cases h

/-- A value panics only as a string, whatever the error for types that have none. -/
theorem fails_getD_readScalar {str : Reader Err Scalar} {t : UInt32} {e : Err} (he : ¬e.Panics) :
    Fails Err.Panics ((readScalar c str t).getD (fail e)) s ↔ t.toNat = 8 ∧ Fails Err.Panics str s := by
  rcases h : readScalar c str t with _ | p
  · rw [Option.getD_none, fails_fail]
    refine iff_of_false he ?_
    rintro ⟨ht, _⟩
    rw [readScalar_string str ht] at h
    nomatch h
  · rw [Option.getD_some]
    exact fails_readScalar h

/-- Reading an element panics only where it is a string that does. -/
theorem fails_readElement {str : Reader Err Scalar} {t : UInt32} :
    Fails Err.Panics (readElement c str t) s ↔ t.toNat = 8 ∧ Fails Err.Panics str s :=
  fails_getD_readScalar (fun h => h)

/-- An element of the type of strings is read as a string. -/
theorem readElement_string (str : Reader Err Scalar) {t : UInt32} (ht : t.toNat = 8) : readElement c str t = str := by
  rw [readElement, readScalar_string str ht, Option.getD_some]

/-- Passing over a string does not panic. -/
theorem not_fails_skipStr : ¬Fails Err.Panics (skipStr c) s := by
  rw [skipStr, fails_map, discardGGUFString, fails_readUint_bind]
  rintro ⟨size, s', _, e, he, h⟩
  dsimp only at he
  split_ifs at he
  rw [← Except.error.inj he] at h
  exact h

/-- The elements of an array panic at a string that cannot be taken. -/
theorem fails_elements {t n : Nat} (ht : t < 2 ^ 32) :
    Fails Err.Panics ((readElement c (readStr c) (UInt32.ofNat t)).times n) s ↔
      t = 8 ∧ ∃ i < n, ∃ es s₃, (readStr c).times i s = .ok (es, s₃) ∧ BadString c s₃ := by
  have htype : (UInt32.ofNat t).toNat = t := UInt32.toNat_ofNat_of_lt' ht
  rw [fails_times]
  constructor
  · rintro ⟨i, hi, es, s₃, hes, hfail⟩
    rw [fails_readElement, htype, fails_readStr] at hfail
    rw [readElement_string (readStr c) (htype.trans hfail.1)] at hes
    exact ⟨hfail.1, i, hi, es, s₃, hes, hfail.2⟩
  · rintro ⟨h8, i, hi, es, s₃, hes, hbad⟩
    rw [readElement_string (readStr c) (htype.trans h8)]
    exact ⟨i, hi, es, s₃, hes, fails_readStr.2 hbad⟩

/-- In version 1 strings are read in one way only. -/
theorem readStr_of_version (hv : c.version = 1) :
    (do pure (.string (← readGGUFV1String c)) : Reader Err Scalar) = readStr c := by
  rw [readStr, readGGUFString, if_pos hv]

/-- The first of some strings can be read when the string after them is reached. -/
theorem readStr_of_times {i : Nat} {es : List Scalar} {s₃ : Bytes} (h : (readStr c).times (i + 1) s = .ok (es, s₃)) :
    ∃ e s', readStr c s = .ok (e, s') := by
  obtain ⟨e, s', he, _⟩ := bind_eq_ok.1 h
  exact ⟨e, s', he⟩

/-- Reading an array of version 1 panics exactly in the cases of `BadArray`. -/
theorem fails_readGGUFV1Array (hv : c.version = 1) : Fails Err.Panics (readGGUFV1Array c) s ↔ BadArray c s := by
  unfold readGGUFV1Array BadArray
  rw [fails_readUint_bind]
  refine exists_congr fun t => exists_congr fun s₁ => ?_
  rw [fails_readUint_bind, ContainerGGUF.countWidth, if_pos hv, readStr_of_version hv]
  constructor
  · rintro ⟨hread, n, s₂, hn, hfail⟩
    refine ⟨n, s₂, hread, hn, .inr ?_⟩
    have ht : t < 2 ^ 32 := readUint_lt hread
    have htype : (UInt32.ofNat t).toNat = t := UInt32.toNat_ofNat_of_lt' ht
    dsimp only at hfail
    by_cases hcollect : c.canCollectArray n = true
    · rw [if_pos hcollect, fails_make_bind] at hfail
      rcases hfail with hmakes | hfail
      · exact .inl ⟨hcollect, hmakes⟩
      · split_ifs at hfail with hzero
        · exact absurd hfail (not_fails_pure _)
        · rw [fails_bind] at hfail
          rcases hfail with hfail | ⟨e, s₃, he, _⟩
          · rw [fails_readElement, htype, fails_readStr] at hfail
            exact .inr (.inr ⟨hfail.1, .inl hv, 0, Nat.pos_of_ne_zero hzero, [], s₂, rfl, hfail.2⟩)
          · exact .inr (.inl ⟨hv, hcollect, Nat.pos_of_ne_zero hzero, e, s₃, he⟩)
    · rw [if_neg hcollect, fails_map, fails_elements ht] at hfail
      exact .inr (.inr ⟨hfail.1, .inl hv, hfail.2⟩)
  · rintro ⟨n, s₂, hread, hn, hbad⟩
    refine ⟨hread, n, s₂, hn, ?_⟩
    have ht : t < 2 ^ 32 := readUint_lt hread
    have htype : (UInt32.ofNat t).toNat = t := UInt32.toNat_ofNat_of_lt' ht
    dsimp only
    rcases hbad with ⟨hne, _⟩ | ⟨hcollect, hmakes⟩ | ⟨_, hcollect, hpos, e, s₃, he⟩ | ⟨h8, _, i, hi, es, s₃, hes, hbad⟩
    · exact absurd hv hne
    · rw [if_pos hcollect, fails_make_bind]
      exact .inl hmakes
    · rw [if_pos hcollect, fails_make_bind, if_neg (Nat.pos_iff_ne_zero.1 hpos), fails_bind]
      exact .inr (.inr ⟨e, s₃, he, (fails_fail _).2 trivial⟩)
    · have hzero : n ≠ 0 := by omega
      by_cases hcollect : c.canCollectArray n = true
      · rw [if_pos hcollect, fails_make_bind, if_neg hzero, fails_bind]
        right
        cases i with
        | zero =>
          have hs : s₂ = s₃ := congrArg Prod.snd (Except.ok.inj hes)
          rw [fails_readElement, htype, fails_readStr]
          exact .inl ⟨h8, hs ▸ hbad⟩
        | succ i =>
          obtain ⟨e, s', he⟩ := readStr_of_times hes
          refine .inr ⟨e, s', ?_, (fails_fail _).2 trivial⟩
          rw [readElement_string (readStr c) (htype.trans h8)]
          exact he
      · rw [if_neg hcollect, fails_map, fails_elements ht]
        exact ⟨h8, i, hi, es, s₃, hes, hbad⟩

/-- Reading an array panics exactly in the cases of `BadArray`. -/
theorem fails_readGGUFArray : Fails Err.Panics (readGGUFArray c) s ↔ BadArray c s := by
  unfold readGGUFArray
  split
  · rename_i hv
    exact fails_readGGUFV1Array hv
  · rename_i hv
    unfold BadArray
    rw [fails_readUint_bind]
    refine exists_congr fun t => exists_congr fun s₁ => ?_
    rw [fails_readUint_bind, ContainerGGUF.countWidth, if_neg hv]
    constructor
    · rintro ⟨hread, n, s₂, hn, hfail⟩
      refine ⟨n, s₂, hread, hn, ?_⟩
      have ht : t < 2 ^ 32 := readUint_lt hread
      split_ifs at hfail with hneg hcollect
      · exact .inl ⟨hv, hneg⟩
      · rw [fails_make_bind, fails_map, fails_elements ht] at hfail
        rcases hfail with hmakes | hfail
        · exact .inr (.inl ⟨hcollect, hmakes⟩)
        · exact .inr (.inr (.inr ⟨hfail.1, .inr hcollect, hfail.2⟩))
      · rw [fails_map, fails_times] at hfail
        obtain ⟨i, _, es, s₃, _, hfail⟩ := hfail
        exact absurd (fails_readElement.1 hfail).2 not_fails_skipStr
    · rintro ⟨n, s₂, hread, hn, hbad⟩
      refine ⟨hread, n, s₂, hn, ?_⟩
      have ht : t < 2 ^ 32 := readUint_lt hread
      by_cases hneg : 2 ^ 63 ≤ n
      · rw [if_pos hneg]
        exact (fails_fail _).2 trivial
      · rw [if_neg hneg]
        rcases hbad with ⟨_, hneg'⟩ | ⟨hcollect, hmakes⟩ | ⟨hv', _⟩ | ⟨h8, hcollect, hbad⟩
        · exact absurd hneg' hneg
        · rw [if_pos hcollect, fails_make_bind]
          exact .inl hmakes
        · exact absurd hv' hv
        · rw [if_pos (hcollect.resolve_left hv), fails_make_bind, fails_map, fails_elements ht]
          exact .inr ⟨h8, hbad⟩

/-- Reading a value that is no array panics only where it is a string that does. -/
theorem fails_readValue {t : UInt32} :
    Fails Err.Panics ((readScalar c (readStr c) t).getD (fail (.invalidType t))) s ↔ t.toNat = 8 ∧ BadString c s := by
  have he : ¬(Err.invalidType t).Panics := fun h => h
  rw [fails_getD_readScalar he, fails_readStr]

/-- Reading a key and its value panics exactly in the cases of `BadKV`. -/
theorem fails_readKV : Fails Err.Panics (readKV c) s ↔ BadKV c s := by
  unfold readKV BadKV
  rw [fails_bind, fails_readGGUFString]
  refine or_congr_right (exists_congr fun k => exists_congr fun s₁ => ?_)
  rw [fails_readUint_bind]
  constructor
  · rintro ⟨hk, t, s₂, hread, hfail⟩
    refine ⟨t, s₂, hk, hread, ?_⟩
    have htype : (UInt32.ofNat t).toNat = t := UInt32.toNat_ofNat_of_lt' (readUint_lt hread)
    split_ifs at hfail with h9
    · rw [fails_map, fails_readGGUFArray] at hfail
      exact .inr ⟨h9, hfail⟩
    · rw [fails_map, fails_readValue, htype] at hfail
      exact .inl hfail
  · rintro ⟨t, s₂, hk, hread, hbad⟩
    refine ⟨hk, t, s₂, hread, ?_⟩
    have htype : (UInt32.ofNat t).toNat = t := UInt32.toNat_ofNat_of_lt' (readUint_lt hread)
    rcases hbad with ⟨h8, hbad⟩ | ⟨h9, hbad⟩
    · rw [if_neg (by omega), fails_map, fails_readValue, htype]
      exact ⟨h8, hbad⟩
    · rw [if_pos h9, fails_map, fails_readGGUFArray]
      exact hbad

/-- A number that is read with another error does not panic. -/
theorem not_fails_wrapped (text : String) (order : ByteOrder) (n : Nat) :
    ¬Fails Err.Panics ((readUint order n).mapError (.wrapped text)) s := by
  rw [fails_mapError]
  exact not_fails_readUint order n

/-- Reading a tensor panics exactly in the cases of `BadTensor`. -/
theorem fails_readTensor : Fails Err.Panics (readTensor c) s ↔ BadTensor c s := by
  unfold readTensor BadTensor
  rw [fails_bind]
  refine or_congr (fails_mapError.trans fails_readGGUFString) (exists_congr fun name => exists_congr fun s₁ => ?_)
  rw [mapError_eq_ok, fails_bind, or_iff_right (not_fails_wrapped _ _ _)]
  constructor
  · rintro ⟨hname, dims, s₂, hdims, hfail⟩
    rw [mapError_eq_ok] at hdims
    refine ⟨dims, s₂, hname, hdims, ?_⟩
    rw [fails_make_bind] at hfail
    refine hfail.resolve_right fun hfail => ?_
    rw [fails_bind, fails_times] at hfail
    rcases hfail with ⟨_, _, _, _, _, hfail⟩ | ⟨shape, s₃, _, hfail⟩
    · exact not_fails_wrapped _ _ _ hfail
    · rw [fails_bind] at hfail
      rcases hfail with hfail | ⟨kind, s₄, _, hfail⟩
      · exact not_fails_wrapped _ _ _ hfail
      · rw [fails_map] at hfail
        exact not_fails_wrapped _ _ _ hfail
  · rintro ⟨dims, s₂, hname, hdims, hmakes⟩
    exact ⟨hname, dims, s₂, mapError_eq_ok.2 hdims, fails_make_bind.2 (.inl hmakes)⟩

/-- Reading the start of a file does not panic. -/
theorem not_fails_readContainer (maxAlloc : Option Nat) (maxArraySize : Int) :
    ¬Fails Err.Panics (readContainer maxAlloc maxArraySize) s := by
  unfold readContainer
  rw [fails_readUint_bind]
  rintro ⟨magic, s₁, _, hfail⟩
  split at hfail
  · exact (fails_fail _).1 hfail
  · obtain ⟨version, s₂, _, hfail⟩ := fails_readUint_bind.1 hfail
    exact not_fails_readFull _ (fails_map.1 hfail)

/-! ## Decode -/

/-- Seeking does not panic. -/
theorem seek_not_panics {pos : Nat} {offset : Int} {text : String} {e : Err}
    (h : (seek pos offset).mapError (Err.wrapped text) = .error e) : ¬e.Panics := by
  unfold seek at h
  split at h
  · nomatch h
  · rw [← Except.error.inj h]
    exact fun h => h

/-- Passing the tensors does not panic. -/
theorem seekTensors_not_panics {alignment pos : Nat} {ts : List Tensor} {e : Err}
    (h : seekTensors alignment ts pos = .error e) :
    ¬e.Panics := by
  induction ts generalizing pos with
  | nil => nomatch h
  | cons t ts ih =>
    have hbind : ((seek pos (ggufPadding pos alignment)).mapError
      (Err.wrapped "failed to seek to init padding")).bind (fun p =>
        ((seek p t.size.toInt64.toInt).mapError (Err.wrapped "failed to seek to tensor")).bind
          (seekTensors alignment ts)) = .error e := h
    rcases h₁ : (seek pos (ggufPadding pos alignment)).mapError
      (Err.wrapped "failed to seek to init padding") with e₁ | p
    · rw [h₁] at hbind
      rw [← Except.error.inj hbind]
      exact seek_not_panics h₁
    · rw [h₁, Except.bind] at hbind
      rcases h₂ : (seek p t.size.toInt64.toInt).mapError (Err.wrapped "failed to seek to tensor") with e₂ | p'
      · rw [h₂] at hbind
        rw [← Except.error.inj hbind]
        exact seek_not_panics h₂
      · rw [h₂] at hbind
        exact ih hbind

/-- The alignment is 0 when the last value of its key is. -/
theorem alignmentOf_eq_zero_iff (kvs : List (Bytes × Value)) (parameters : UInt64) :
    alignmentOf (Assoc.set (kvs.foldl (fun kv e => Assoc.set kv e.1 e.2) []) (ascii "general.parameter_count")
      (.scalar (.uint64 parameters))) = 0 ↔ ZeroAlignment kvs := by
  have hne : ascii "general.alignment" ≠ ascii "general.parameter_count" := by decide
  unfold alignmentOf ZeroAlignment
  rw [Assoc.lookup_set, if_neg hne]
  split
  · rename_i a ha
    rw [ha]
    constructor
    · intro hzero
      rw [UInt32.toNat_inj.1 (hzero.trans UInt32.toNat_zero.symm)]
    · intro hzero
      cases hzero
      rfl
  · rename_i hother
    refine iff_of_false (by decide) ?_
    intro hzero
    exact hother 0 hzero

/-- What follows the header panics only where the alignment is 0. -/
theorem finish_panics_iff (kvs : List (Bytes × Value)) (ts : List Tensor) (pos : Nat) :
    (∃ e, finish kvs ts pos = .error e ∧ e.Panics) ↔ ZeroAlignment kvs := by
  unfold finish
  dsimp only
  split
  · rename_i hzero
    exact iff_of_true ⟨.panic, rfl, trivial⟩ ((alignmentOf_eq_zero_iff ..).1 hzero)
  · rename_i hpos
    refine iff_of_false ?_ (fun hzero => hpos ((alignmentOf_eq_zero_iff ..).2 hzero))
    rintro ⟨e, he, h⟩
    have hbind : (seekTensors (alignmentOf (Assoc.set (kvs.foldl (fun kv e => Assoc.set kv e.1 e.2) [])
        (ascii "general.parameter_count") (.scalar (.uint64 (ts.foldl (fun n t => n + t.parameters) 0))))) ts pos).bind
        (fun stop => .ok (_, stop)) = .error e := he
    rcases hs : seekTensors _ ts pos with e₁ | stop
    · rw [hs] at hbind
      rw [← Except.error.inj hbind] at h
      exact seekTensors_not_panics hs h
    · rw [hs] at hbind
      nomatch hbind

/-- The header panics at a field of a key or of a tensor that cannot be taken. -/
theorem fails_readHeader {maxAlloc : Option Nat} {maxArraySize : Int} {file : Bytes} :
    Fails Err.Panics (readHeader maxAlloc maxArraySize) file ↔
      ∃ c s, readContainer maxAlloc maxArraySize file = .ok (c, s) ∧
        ((∃ i < c.numKV.toNat, ∃ kvs s₁, (readKV c).times i s = .ok (kvs, s₁) ∧ BadKV c s₁) ∨
          ∃ kvs s₁, (readKV c).times c.numKV.toNat s = .ok (kvs, s₁) ∧
            ∃ j < c.numTensor.toNat, ∃ ts s₂, (readTensor c).times j s₁ = .ok (ts, s₂) ∧ BadTensor c s₂) := by
  unfold readHeader
  rw [fails_bind, or_iff_right (not_fails_readContainer maxAlloc maxArraySize)]
  refine exists_congr fun c => exists_congr fun s => and_congr_right fun _ => ?_
  simp only [fails_bind, fails_times, fails_readKV, fails_readTensor, not_fails_pure, and_false, exists_false, or_false]

/-- A header is read when its start, its keys and its tensors are read one after the other. -/
theorem readHeader_eq_ok {maxAlloc : Option Nat} {maxArraySize : Int} {file s₂ : Bytes} {kvs : List (Bytes × Value)}
    {ts : List Tensor} :
    readHeader maxAlloc maxArraySize file = .ok ((kvs, ts), s₂) ↔
      ∃ c s, readContainer maxAlloc maxArraySize file = .ok (c, s) ∧ ∃ s₁, (readKV c).times c.numKV.toNat s =
        .ok (kvs, s₁) ∧ (readTensor c).times c.numTensor.toNat s₁ = .ok (ts, s₂) := by
  unfold readHeader
  constructor
  · intro h
    obtain ⟨c, s, hc, h⟩ := bind_eq_ok.1 h
    obtain ⟨kvs', s₁, hkvs, h⟩ := bind_eq_ok.1 h
    obtain ⟨ts', s₂', hts, h⟩ := bind_eq_ok.1 h
    obtain ⟨heq, rfl⟩ := pure_eq_ok.1 h
    obtain ⟨rfl, rfl⟩ := Prod.mk.inj heq
    exact ⟨c, s, hc, s₁, hkvs, hts⟩
  · rintro ⟨c, s, hc, s₁, hkvs, hts⟩
    exact bind_eq_ok.2 ⟨c, s, hc, bind_eq_ok.2 ⟨kvs, s₁, hkvs, bind_eq_ok.2 ⟨ts, s₂, hts, rfl⟩⟩⟩

/-- A file is bad when its header cannot be taken, or when it is read and the alignment is 0. -/
theorem badFile_iff {maxAlloc : Option Nat} {maxArraySize : Int} {file : Bytes} :
    BadFile maxAlloc maxArraySize file ↔
      Fails Err.Panics (readHeader maxAlloc (if maxArraySize = 0 then 1024 else maxArraySize)) file ∨
      ∃ kvs ts s₂, readHeader maxAlloc (if maxArraySize = 0 then 1024 else maxArraySize) file =
        .ok ((kvs, ts), s₂) ∧ ZeroAlignment kvs := by
  rw [fails_readHeader]
  constructor
  · rintro ⟨c, s, hc, hkv | ⟨kvs, s₁, hkvs, hname | ⟨ts, s₂, hts, hzero⟩⟩⟩
    · exact .inl ⟨c, s, hc, .inl hkv⟩
    · exact .inl ⟨c, s, hc, .inr ⟨kvs, s₁, hkvs, hname⟩⟩
    · exact .inr ⟨kvs, ts, s₂, readHeader_eq_ok.2 ⟨c, s, hc, s₁, hkvs, hts⟩, hzero⟩
  · rintro (⟨c, s, hc, hkv | ⟨kvs, s₁, hkvs, hname⟩⟩ | ⟨kvs, ts, s₂, hok, hzero⟩)
    · exact ⟨c, s, hc, .inl hkv⟩
    · exact ⟨c, s, hc, .inr ⟨kvs, s₁, hkvs, .inl hname⟩⟩
    · obtain ⟨c, s, hc, s₁, hkvs, hts⟩ := readHeader_eq_ok.1 hok
      exact ⟨c, s, hc, .inr ⟨kvs, s₁, hkvs, .inr ⟨ts, s₂, hts, hzero⟩⟩⟩

/-- Decoding at a position panics exactly when a field it gets to is bad, wherever the position is. -/
theorem decodeAt_returns_iff (maxAlloc : Option Nat) (maxArraySize : Int) (start : Nat) (file : Bytes) :
    (∀ e, decodeAt maxAlloc maxArraySize start file = .error e → ¬e.Panics) ↔ ¬BadFile maxAlloc maxArraySize file := by
  rw [badFile_iff, decodeAt]
  rcases hh : readHeader maxAlloc (if maxArraySize = 0 then 1024 else maxArraySize) file with e | ⟨⟨kvs, ts⟩, rest⟩
  · constructor
    · rintro hreturns (⟨e', he', h⟩ | ⟨kvs, ts, s₂, hok, _⟩)
      · cases hh.symm.trans he'
        exact hreturns e rfl h
      · nomatch hok
    · intro hgood e' he' h
      cases he'
      exact hgood (.inl ⟨e, hh, h⟩)
  · have hfinish := finish_panics_iff kvs ts (start + (file.length - rest.length))
    constructor
    · rintro hreturns (⟨e', he', _⟩ | ⟨kvs', ts', s₂, hok, hzero⟩)
      · nomatch hh.symm.trans he'
      · cases hok
        obtain ⟨e, he, h⟩ := hfinish.2 hzero
        exact hreturns e he h
    · intro hgood e he h
      exact hgood (.inr ⟨kvs, ts, rest, rfl, hfinish.1 ⟨e, he, h⟩⟩)

/-- Decoding a file, with any limit on the arrays to collect, returns a model or an error exactly when no field it
gets to is bad, if every allocation succeeds. -/
theorem decode_returns_iff (maxArraySize : Int) (file : Bytes) :
    (∀ e, decode maxArraySize file = .error e → ¬e.Panics) ↔ ¬BadFile none maxArraySize file :=
  decodeAt_returns_iff none maxArraySize 0 file

/-! ## Where an allocation may fail -/

/-- What is read before the model, where every allocation succeeds. -/
def ContainerGGUF.unlimited (c : ContainerGGUF) : ContainerGGUF := { c with maxAlloc := none }

/-- `make` with a limit makes the same, or panics. -/
theorem refines_make (width n : Nat) : Refines Err.Panics (make c width n) (make c.unlimited width n) := by
  intro s
  by_cases hmakes : makes c.maxAlloc width n = true
  · exact .inr (by rw [make, make, if_pos hmakes, ContainerGGUF.unlimited, if_pos (makes_none width n)])
  · exact .inl (fails_make.2 (Bool.not_eq_true _ ▸ hmakes))

/-- With a limit the same string is read, or reading panics. -/
theorem refines_readGGUFString : Refines Err.Panics (readGGUFString c) (readGGUFString c.unlimited) := by
  unfold readGGUFString
  have hversion : c.unlimited.version = c.version := rfl
  rw [hversion]
  split
  · exact refines_self _
  · refine (refines_self _).bind (fun length => Refines.bind ?_ (fun _ => refines_self _))
    unfold stringBuffer
    split_ifs
    · exact refines_self _
    · exact refines_make 1 length
    · exact refines_self _

/-- With a limit the same string is read as a value, or reading panics. -/
theorem refines_readStr : Refines Err.Panics (readStr c) (readStr c.unlimited) :=
  refines_readGGUFString.bind (fun _ => refines_self _)

/-- A value of a type is read by the same reader, but for strings. -/
theorem refines_readScalar (t : UInt32) (e : Err) :
    Refines Err.Panics ((readScalar c (readStr c) t).getD (fail e))
      ((readScalar c.unlimited (readStr c.unlimited) t).getD (fail e)) := by
  by_cases ht : t.toNat = 8
  · rw [readScalar_string _ ht, readScalar_string _ ht]
    exact refines_readStr
  · rw [readScalar_of_ne (c := c) (readStr c) (readStr c.unlimited) ht]
    exact refines_self _

/-- With a limit the same element is read, or reading panics. -/
theorem refines_readElement (t : UInt32) :
    Refines Err.Panics (readElement c (readStr c) t) (readElement c.unlimited (readStr c.unlimited) t) :=
  refines_readScalar t (.invalidArrayType t)

/-- With a limit the same array is read, or reading panics. -/
theorem refines_readGGUFArray : Refines Err.Panics (readGGUFArray c) (readGGUFArray c.unlimited) := by
  have hversion : c.unlimited.version = c.version := rfl
  have hcollect : ∀ n, c.unlimited.canCollectArray n = c.canCollectArray n := fun _ => rfl
  have hskip : ∀ t, readElement c.unlimited (skipStr c.unlimited) t = readElement c (skipStr c) t := fun _ => rfl
  unfold readGGUFArray
  rw [hversion]
  split
  · unfold readGGUFV1Array
    refine (refines_self _).bind (fun t => (refines_self _).bind (fun n => ?_))
    dsimp only
    rw [hcollect]
    split
    · exact (refines_make 16 n).bind (fun _ => refines_self _)
    · exact refines_self _
  · refine (refines_self _).bind (fun t => (refines_self _).bind (fun n => ?_))
    rw [hcollect, hskip]
    split_ifs
    · exact refines_self _
    · exact (refines_make 16 n).bind (fun _ => ((refines_readElement _).times n).bind (fun _ => refines_self _))
    · exact refines_self _

/-- With a limit the same key and value are read, or reading panics. -/
theorem refines_readKV : Refines Err.Panics (readKV c) (readKV c.unlimited) := by
  unfold readKV
  refine refines_readGGUFString.bind (fun k => (refines_self _).bind (fun t => ?_))
  split
  · exact refines_readGGUFArray.bind (fun _ => refines_self _)
  · exact (refines_readScalar (UInt32.ofNat t) (.invalidType (UInt32.ofNat t))).bind (fun _ => refines_self _)

/-- With a limit the same tensor is read, or reading panics. -/
theorem refines_readTensor : Refines Err.Panics (readTensor c) (readTensor c.unlimited) := by
  have hname : Refines Err.Panics ((readGGUFString c).mapError (.wrapped "failed to read tensor name"))
      ((readGGUFString c.unlimited).mapError (.wrapped "failed to read tensor name")) :=
    refines_readGGUFString.mapError (fun _ h => h)
  unfold readTensor
  refine hname.bind (fun name => (refines_self _).bind (fun dims => ?_))
  exact (refines_make 8 dims).bind (fun _ => refines_self _)

/-- The start of a file is read the same without a limit. -/
theorem readContainer_unlimited (maxAlloc : Option Nat) (maxArraySize : Int) :
    readContainer none maxArraySize = (do pure (← readContainer maxAlloc maxArraySize).unlimited) := by
  unfold readContainer
  simp only [bind_assoc]
  refine bind_congr (fun magic => ?_)
  split
  · rfl
  · simp only [bind_assoc, pure_bind]
    rfl

/-- With a limit the same header is read, or reading panics. -/
theorem refines_readHeader (maxAlloc : Option Nat) (maxArraySize : Int) :
    Refines Err.Panics (readHeader maxAlloc maxArraySize) (readHeader none maxArraySize) := by
  unfold readHeader
  rw [readContainer_unlimited maxAlloc, bind_assoc]
  refine (refines_self _).bind (fun c => ?_)
  rw [pure_bind]
  exact (refines_readKV.times c.numKV.toNat).bind
    (fun kv => (refines_readTensor.times c.numTensor.toNat).bind (fun _ => refines_self _))

/-- A limit on allocations makes decoding panic at a bad field, and changes nothing else. -/
theorem decodeAt_of_not_bad {maxAlloc : Option Nat} {maxArraySize : Int} {file : Bytes} (start : Nat)
    (hgood : ¬BadFile maxAlloc maxArraySize file) :
    decodeAt maxAlloc maxArraySize start file = decodeAt none maxArraySize start file := by
  rw [badFile_iff, not_or] at hgood
  rw [decodeAt, decodeAt, (refines_readHeader maxAlloc _ file).resolve_left hgood.1]

/-- A file of version `version` with one key and no tensors, from the key on. -/
def oneKey (version : Nat) (kv : Bytes) : Bytes :=
  ascii "GGUF" ++ le 4 version ++ (if version = 1 then le 4 0 ++ le 4 1 else le 8 0 ++ le 8 1) ++ kv

/-- Some of these files panic: a key of length -1, a key of version 1 with no terminator, an array of -1 elements, an
array of version 1 with one element, and an alignment of 0. -/
theorem decode_panics :
    decode 0 (oneKey 3 (le 8 (2 ^ 64 - 1))) = .error .panic ∧
    decode 0 (oneKey 1 (le 8 0)) = .error .panic ∧
    decode 0 (oneKey 3 (writeString (ascii "a") ++ le 4 9 ++ le 4 0 ++ le 8 (2 ^ 64 - 1))) = .error .panic ∧
    decode 0 (oneKey 1 (writeString (ascii "a\x00") ++ le 4 9 ++ le 4 0 ++ le 4 1 ++ le 1 7)) = .error .panic ∧
    decode 0 (oneKey 3 (writeString (ascii "general.alignment") ++ le 4 4 ++ le 4 0)) = .error .panic ∧
      Err.panic.Panics := by
  refine ⟨?_, ?_, ?_, ?_, ?_, trivial⟩ <;> decide +kernel

end Ollama.Ggml
