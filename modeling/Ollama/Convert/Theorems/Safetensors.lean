import Ollama.Convert.Lemmas.Safetensors
import Mathlib.Algebra.Order.Ring.Int

/-!
# What is accepted converts consistently

A tensor is laid out in the file that is written by its kind and shape, while what is written of it is what its data
offsets and data type say. `parse_consistent_iff` says of which files the reader makes tensors for which both are the
same, or refuses them without a panic.
-/

namespace Ollama.Convert

open Lib Json

/-- An error that is not a panic, or a result with a property. -/
def Safe {α : Type} (Q : α → Prop) : Except Failure α → Prop
  | .error err => err ≠ .panicked
  | .ok x => Q x

/-- The tensor as it is laid out. -/
def Safetensor.tensor (st : Safetensor) : Ggml.Tensor := { name := st.name, kind := st.kind, shape := st.shape }

section

variable (floats : Floats) (maxAlloc : Nat) (fsys : FS)

/-- Writing a tensor fails, or writes as many bytes as it is laid out with. -/
def Safetensor.Consistent (st : Safetensor) : Prop :=
  Safe (fun bytes => bytes.length = st.tensor.size.toNat) (st.writeTo floats maxAlloc fsys)

/-- The reader fails, or returns tensors with names of their own that are written consistently. -/
def Consistent (r : Except Failure (List Safetensor)) : Prop :=
  Safe (fun ts => (ts.map Safetensor.name).Nodup ∧ ∀ st ∈ ts, st.Consistent floats maxAlloc fsys) r

/-- How many bytes of a tensor are written for a number. -/
def Safetensor.width (st : Safetensor) : Nat := if st.kind = 0 then 4 else 2

/-- As many numbers can be allocated as the data offsets say, and if the file has that many, they are as many as the
tensor is laid out for: unless there is no such file, its offset cannot be reached, or its data type is another one.
-/
def Safetensor.Fits (st : Safetensor) : Prop :=
  ∀ f, fsys.open st.path = some f → ∀ rest, f.seekStart st.offset = .ok rest →
    (st.dtype = ascii "F32" → 0 ≤ st.size.tdiv 4 ∧ st.size.tdiv 4 * 4 ≤ maxAlloc ∧
      (4 * (st.size.tdiv 4).toNat ≤ rest.length → (st.size.tdiv 4).toNat * st.width = st.tensor.size.toNat)) ∧
    (st.dtype = ascii "F16" → 0 ≤ st.size.tdiv 2 ∧ st.size.tdiv 2 * 2 ≤ maxAlloc ∧
      (2 * (st.size.tdiv 2).toNat ≤ rest.length →
        st.size.tdiv 2 * 4 ≤ maxAlloc ∧ (st.size.tdiv 2).toNat * st.width = st.tensor.size.toNat)) ∧
    (st.dtype = ascii "BF16" → 0 ≤ st.size ∧ st.size ≤ maxAlloc ∧
      (st.size.toNat ≤ rest.length → ∃ f32s, floats.decodeFloat32 (rest.take st.size.toNat) = some f32s ∧
        f32s.length * st.width = st.tensor.size.toNat))

/-- No file panics before one that is refused; and if none is refused, the typed entries of all of them have names of
their own, and each is of a tensor that fits. -/
structure Sound (u : Unmarshal Headers) (replacer : Replacer) (ps : List Bytes) : Prop where
  panics : ∀ before p after, ps = before ++ p :: after → (∀ q ∈ before, fsys.Valid u maxAlloc replacer q) →
    ¬fsys.Panics u maxAlloc replacer p
  names : (∀ p ∈ ps, fsys.Valid u maxAlloc replacer p) → (ps.flatMap (fsys.names u maxAlloc replacer)).Nodup
  fits : (∀ p ∈ ps, fsys.Valid u maxAlloc replacer p) →
    ∀ p ∈ ps, ∀ n headers, fsys.headers u maxAlloc p = some (n, headers) →
    ∀ e ∈ headers.typed, ∀ st, IsTensor replacer p n e st → st.Fits floats maxAlloc fsys

end

namespace SafetensorsAux

/-! ## Errors that are no panic -/

section

variable {α β : Type} {Q : α → Prop}

/-- To return is safe if the result is as it should be. -/
theorem safe_pure (x : α) : Safe Q (pure x : Except Failure α) ↔ Q x := Iff.rfl

/-- A result is safe if it is as it should be. -/
theorem safe_ok (x : α) : Safe Q (.ok x) ↔ Q x := Iff.rfl

/-- An error is safe unless it is a panic. -/
theorem safe_error (err : Failure) : Safe Q (.error err) ↔ err ≠ .panicked := Iff.rfl

/-- Two steps are safe if the first is, and leaves what makes the second so. -/
theorem safe_bind {r : Except Failure β} {f : β → Except Failure α} :
    Safe Q (r >>= f) ↔ Safe (fun x => Safe Q (f x)) r := by
  cases r <;> rfl

/-- A result that is mapped is safe if the image is as it should be. -/
theorem safe_map {r : Except Failure β} {f : β → α} : Safe Q (f <$> r) ↔ Safe (fun x => Q (f x)) r := by
  cases r <;> rfl

/-- `make` is safe for a length that is not negative, and fits into memory. -/
theorem safe_make {maxAlloc width : Nat} {n : Int} {Q : Nat → Prop} :
    Safe Q (make maxAlloc width n) ↔ 0 ≤ n ∧ n * width ≤ maxAlloc ∧ Q n.toNat := by
  rw [make]
  split
  · rename_i hmakes
    rw [makes_some] at hmakes
    simp only [safe_ok, hmakes, true_and]
  · rename_i hmakes
    rw [makes_some] at hmakes
    simp only [safe_error, ne_eq, not_true_eq_false, false_iff]
    exact fun h => hmakes ⟨h.1, h.2.1⟩

/-- Reading bytes is safe. -/
theorem safe_readFull {n : Nat} {bytes : Bytes} {Q : Bytes → Prop} :
    Safe Q (readFull n bytes) ↔ (n ≤ bytes.length → Q (bytes.take n)) := by
  rw [readFull]
  split
  · rename_i hshort
    simp [safe_error, Nat.not_le.2 hshort]
  · rename_i hlong
    simp [safe_ok, Nat.not_lt.1 hlong]

/-- Seeking is safe. -/
theorem safe_seekStart {f : File} {offset : Int} {Q : Bytes → Prop} :
    Safe Q (f.seekStart offset) ↔ ∀ rest, f.seekStart offset = .ok rest → Q rest := by
  rcases h : f.seekStart offset with err | rest
  · have hne : err ≠ .panicked := by
      rintro rfl
      unfold File.seekStart at h
      repeat' split at h
      all_goals nomatch h
    simp [safe_error, hne]
  · simp [safe_ok]

end

/-! ## Writing -/

variable {floats : Floats} {maxAlloc : Nat} {fsys : FS} {st : Safetensor}

/-- So many numbers are read. -/
theorem length_numbers (width n : Nat) (bytes : Bytes) : (numbers width n bytes).length = n := by simp [numbers]

/-- What is read, if it does not panic. -/
theorem safe_read (Q : Nat → Prop) (rest : Bytes) : Safe (fun f32s => Q f32s.length) (st.read floats maxAlloc rest) ↔
    (st.dtype = ascii "F32" → 0 ≤ st.size.tdiv 4 ∧ st.size.tdiv 4 * 4 ≤ maxAlloc ∧
      (4 * (st.size.tdiv 4).toNat ≤ rest.length → Q (st.size.tdiv 4).toNat)) ∧
    (st.dtype = ascii "F16" → 0 ≤ st.size.tdiv 2 ∧ st.size.tdiv 2 * 2 ≤ maxAlloc ∧
      (2 * (st.size.tdiv 2).toNat ≤ rest.length → st.size.tdiv 2 * 4 ≤ maxAlloc ∧ Q (st.size.tdiv 2).toNat)) ∧
    (st.dtype = ascii "BF16" → 0 ≤ st.size ∧ st.size ≤ maxAlloc ∧
      (st.size.toNat ≤ rest.length → ∃ f32s, floats.decodeFloat32 (rest.take st.size.toNat) = some f32s ∧
        Q f32s.length)) := by
  rw [Safetensor.read]
  by_cases h32 : st.dtype = ascii "F32"
  · have h16 : ascii "F32" ≠ ascii "F16" := by decide
    have hb16 : ascii "F32" ≠ ascii "BF16" := by decide
    simp [h32, h16, hb16, safe_bind, safe_make, safe_readFull, safe_map, length_numbers]
  by_cases h16 : st.dtype = ascii "F16"
  · have hb16 : ascii "F16" ≠ ascii "BF16" := by decide
    have hf32 : ascii "F16" ≠ ascii "F32" := by decide
    simp only [h16, hb16, hf32, if_false, if_true, safe_bind, safe_make, safe_readFull, safe_pure, List.length_map,
      length_numbers, forall_const, IsEmpty.forall_iff, true_and, and_true, Nat.cast_ofNat]
    refine and_congr_right (fun hpos => and_congr_right (fun _ => imp_congr_right (fun _ => ?_)))
    rw [Int.toNat_of_nonneg hpos]
    exact ⟨fun h => h.2, fun h => ⟨hpos, h⟩⟩
  by_cases hb16 : st.dtype = ascii "BF16"
  · have hf32 : ascii "BF16" ≠ ascii "F32" := by decide
    have hf16 : ascii "BF16" ≠ ascii "F16" := by decide
    simp only [hb16, hf32, hf16, if_false, if_true, safe_bind, safe_make, safe_readFull, forall_const,
      IsEmpty.forall_iff, true_and, Nat.cast_one, mul_one]
    refine and_congr_right (fun _ => and_congr_right (fun _ => imp_congr_right (fun _ => ?_)))
    rcases floats.decodeFloat32 (rest.take st.size.toNat) with _ | f32s
    · simp [safe_error]
    · simp [safe_pure]
  · simp [h32, h16, hb16, safe_error]

/-- A tensor fits when writing it is consistent. -/
theorem consistent_iff (hrepacker : st.repacker = none) :
    st.Consistent floats maxAlloc fsys ↔ st.Fits floats maxAlloc fsys := by
  have hkind : st.kind = 0 ∨ st.kind = 1 := by
    unfold Safetensor.kind
    split
    · exact Or.inl rfl
    · split
      · exact Or.inl rfl
      · exact Or.inr rfl
  have hwrite : ∀ f32s : List UInt32, Safe (fun bytes => bytes.length = st.tensor.size.toNat)
      (if st.kind = 0 then pure (f32s.flatMap (fun bits => le 4 bits.toNat))
        else if st.kind = 1 then pure (f32s.flatMap (fun bits => le 2 (floats.fromfloat32 bits).toNat))
        else .error (.unknownStorageType st.kind)) ↔ f32s.length * st.width = st.tensor.size.toNat := by
    intro f32s
    rcases hkind with h | h <;> simp [h, Safetensor.width, safe_pure]
  rw [Safetensor.Consistent, Safetensor.writeTo, Safetensor.Fits]
  rcases hopen : fsys.open st.path with _ | f
  · simp [safe_bind, safe_error]
  · simp only [Option.elim_some, safe_bind, hrepacker, safe_ok, safe_seekStart, safe_pure, hwrite,
      safe_read (fun count => count * st.width = st.tensor.size.toNat), Option.some.injEq, forall_eq']

/-- Every tensor of a file is that of an entry, and every entry has one. -/
theorem forall_tensors_iff {u : Unmarshal Headers} {replacer : Replacer} {ps : List Bytes}
    {tss : List (List Safetensor)} (h : List.Forall₂ (fsys.HasTensors u maxAlloc replacer) ps tss)
    (Q : Safetensor → Prop) :
    (∀ st ∈ tss.flatten, Q st) ↔ ∀ p ∈ ps, ∀ n headers, fsys.headers u maxAlloc p = some (n, headers) →
      ∀ e ∈ headers.typed, ∀ st, IsTensor replacer p n e st → Q st := by
  induction h with
  | nil => simp
  | @cons p ts ps tss hts _ ih =>
    obtain ⟨n, headers, hheaders, hts⟩ := hts
    have hone : (∀ st ∈ ts, Q st) ↔ ∀ e ∈ headers.typed, ∀ st, IsTensor replacer p n e st → Q st := by
      generalize headers.typed = es at hts
      induction hts with
      | nil => simp
      | cons hst _ ih =>
        rw [List.forall_mem_cons, List.forall_mem_cons, ih]
        exact and_congr_left (fun _ => ⟨fun hQ st' hst' => hst.unique hst' ▸ hQ, fun hQ => hQ _ hst⟩)
    rw [List.flatten_cons, List.forall_mem_append, ih, List.forall_mem_cons, hone]
    refine and_congr_left (fun _ => ⟨fun hQ n' headers' h' => ?_, fun hQ => hQ n headers hheaders⟩)
    rw [hheaders] at h'
    obtain ⟨rfl, rfl⟩ : n = n' ∧ headers = headers' := by simpa using h'
    exact hQ

end SafetensorsAux

open SafetensorsAux

/-- The reader of safetensors refuses them or makes tensors of them that convert consistently exactly if the files are
sound. -/
theorem parse_consistent_iff (u : Unmarshal Headers) (floats : Floats) (maxAlloc : Nat) (fsys : FS)
    (replacer : Replacer) (ps : List Bytes) :
    Consistent floats maxAlloc fsys (parseSafetensors u maxAlloc fsys replacer ps) ↔
      Sound floats maxAlloc fsys u replacer ps := by
  rcases parseSafetensors_cases u maxAlloc fsys replacer ps with
    ⟨tss, hok, hvalid, htss⟩ | ⟨err, before, p, after, herr, hps, hbefore, hnot, hpanic⟩
  · -- No file is refused.
    have hpanics : ∀ before p after, ps = before ++ p :: after → (∀ q ∈ before, fsys.Valid u maxAlloc replacer q) →
        ¬fsys.Panics u maxAlloc replacer p :=
      fun before p after hps _ => (hvalid p (by rw [hps]; simp)).not_panics
    have hall := forall_tensors_iff htss (fun st => st.Fits floats maxAlloc fsys)
    have hfits : (∀ st ∈ tss.flatten, st.Consistent floats maxAlloc fsys) ↔
      ∀ st ∈ tss.flatten, st.Fits floats maxAlloc fsys :=
      forall₂_congr (fun st hst => consistent_iff ((forall_tensors_iff htss (fun st => st.repacker = none)).2
        (fun _ _ _ _ _ _ _ _ h => h.repacker) st hst))
    rw [hok, Consistent, safe_ok, map_name_flatten htss, hfits, hall]
    exact ⟨fun h => ⟨hpanics, fun _ => h.1, fun _ => h.2⟩, fun h => ⟨h.names hvalid, h.fits hvalid⟩⟩
  · have hrefused : ¬∀ p ∈ ps, fsys.Valid u maxAlloc replacer p := fun h => hnot (h p (by rw [hps]; simp))
    rw [herr, Consistent, safe_error, ne_eq, hpanic]
    constructor
    · intro hno
      refine ⟨fun before' q after' hps' hbefore' => ?_, fun h => (hrefused h).elim, fun h => (hrefused h).elim⟩
      -- The file is before the refused one, or it is that, or the refused one would be valid.
      obtain ⟨w, hw, hrest⟩ | ⟨w, hw, hrest⟩ := List.append_eq_append_iff.1 (hps.symm.trans hps')
      · cases w with
        | nil =>
          obtain ⟨rfl, _⟩ := List.cons.inj hrest
          exact hno
        | cons r w =>
          obtain ⟨rfl, _⟩ := List.cons.inj hrest
          exact (hnot (hbefore' p (by rw [hw]; simp))).elim
      · cases w with
        | nil =>
          obtain ⟨rfl, _⟩ := List.cons.inj hrest
          exact hno
        | cons r w =>
          obtain ⟨rfl, _⟩ := List.cons.inj hrest
          exact (hbefore q (by rw [hw]; simp)).not_panics
    · exact fun h => h.panics before p after hps hbefore

/-- A file whose header would have a negative length. -/
def negativeLength : FS :=
  ⟨[(ascii "model.safetensors", { bytes := List.replicate 8 0xFF })], List.pairwise_singleton _ _⟩

/-- The decoder of a header that is an empty object. -/
def emptyHeader : Unmarshal Headers where
  run _ := .ok ⟨[], List.nodup_nil⟩
  offset_pos _ _ := nofun
  offset_le _ _ := nofun
  space _ _ _ := rfl

/-- Two bytes are the upper ones of a number; a single one panics. -/
def upperBytes : Bytes → Option (List UInt32)
  | [] => some []
  | [_] => none
  | low :: high :: bytes => (upperBytes bytes).map (fun f32s => UInt32.ofNat (2 ^ 16 * ofLe [low, high]) :: f32s)

/-- The reader panics when it allocates a buffer for the header. -/
theorem parse_negativeLength :
    ¬∀ (u : Unmarshal Headers) (floats : Floats) (maxAlloc : Nat) (fsys : FS) (replacer : Replacer)
    (ps : List Bytes), Consistent floats maxAlloc fsys (parseSafetensors u maxAlloc fsys replacer ps) := by
  intro h
  have := h emptyHeader ⟨UInt16.toUInt32, UInt32.toUInt16,
    upperBytes⟩ (2 ^ 48) negativeLength [] [ascii "model.safetensors"]
  have hpanic : parseSafetensors emptyHeader (2 ^ 48) negativeLength [] [ascii "model.safetensors"] =
    .error .panicked := by
    rfl
  rw [hpanic] at this
  exact this rfl

end Ollama.Convert
