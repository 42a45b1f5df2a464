import Ollama.Ggml.Gguf

/-!
# Collecting arrays

How large an array may be and still be collected says nothing about the rest of a file. Strings that are collected and
strings that are skipped are read by different functions, which take the same bytes where both succeed, and what
follows is read from there (`decode_agree`).
-/

namespace Ollama.Ggml

open Lib Reader

/-- Two decoded values: the same value, or arrays of the same size with the same elements if both have been collected. -/
def Value.Agrees : Value → Value → Prop
  | .scalar v, .scalar v' => v = v'
  | .array n vs, .array n' vs' => n = n' ∧ ∀ xs xs', vs = some xs → vs' = some xs' → xs = xs'
  | _, _ => False

/-- Two decoded models: the same keys with values that agree, and everything else the same. -/
structure Gguf.Agrees (m m' : Gguf) : Prop where
  kv : Assoc.Related Value.Agrees m.kv m'.kv
  tensors : m.tensors = m'.tensors
  parameters : m.parameters = m'.parameters
  tensorOffset : m.tensorOffset = m'.tensorOffset

/-- What is read before the model, with another limit. -/
def ContainerGGUF.limit (c : ContainerGGUF) (maxArraySize : Int) : ContainerGGUF :=
  { c with maxArraySize := maxArraySize }

namespace CollectionAux

variable (c : ContainerGGUF) (maxAlloc : Option Nat) (max max' : Int)

/-- A value agrees with itself. -/
theorem Value.agrees_self (v : Value) : v.Agrees v := by
  cases v with
  | scalar v => exact rfl
  | array n vs => exact ⟨rfl, fun xs xs' h h' => Option.some.inj (h.symm.trans h')⟩

/-- Arrays of which one was not collected. -/
theorem agrees_array_none {n : Nat} {vs vs' : Option (List Scalar)} (h : vs = none ∨ vs' = none) :
    (Value.array n vs).Agrees (.array n vs') := by
  refine ⟨rfl, ?_⟩
  rintro xs xs' rfl rfl
  rcases h with h | h <;> nomatch h

/-! ## Allocations -/

/-- Nothing is read where a slice is made. -/
theorem make_eq_ok {c : ContainerGGUF} {width n : Nat} {x : Unit} {s s' : Bytes}
    (h : make c width n s = .ok (x, s')) : s = s' := by
  unfold make at h
  split at h
  · exact (pure_eq_ok.1 h).2
  · nomatch h

/-- Nothing is read where a buffer is made, and its length is no negative one. -/
theorem stringBuffer_eq_ok {c : ContainerGGUF} {length : Nat} {x : Unit} {s s' : Bytes}
    (h : stringBuffer c length s = .ok (x, s')) : length < 2 ^ 63 ∧ s = s' := by
  unfold stringBuffer at h
  split_ifs at h with hneg hlong
  · nomatch h
  · exact ⟨Nat.not_le.1 hneg, make_eq_ok h⟩
  · exact ⟨Nat.not_le.1 hneg, (pure_eq_ok.1 h).2⟩

/-- Making a slice first changes nothing for two readers. -/
theorem agree_make_left {c : ContainerGGUF} {α β : Type} {R : α → β → Prop} {width n : Nat} {p : Reader Err α}
    {q : Reader Err β} (h : Agree R p q) : Agree R (make c width n >>= fun _ => p) q := by
  intro s x s' y s'' hx hy
  obtain ⟨_, s₁, hmake, hx⟩ := bind_eq_ok.1 hx
  obtain rfl := make_eq_ok hmake
  exact h s x s' y s'' hx hy

/-- Memory that is made changes nothing of what is read. -/
theorem agree_make_right {c : ContainerGGUF} {α β : Type} {R : α → β → Prop} {width n : Nat} {p : Reader Err α}
    {q : Reader Err β} (h : Agree R p q) : Agree R p (make c width n >>= fun _ => q) := by
  intro s x s' y s'' hx hy
  obtain ⟨_, s₁, hmake, hy⟩ := bind_eq_ok.1 hy
  obtain rfl := make_eq_ok hmake
  exact h s x s' y s'' hx hy

/-! ## Strings -/

/-- A string takes the bytes of its length, whether it is collected or skipped. -/
theorem agree_strings (hv : c.version ≠ 1) :
    Agree (fun _ _ => True) (readStr (c.limit max)) (skipStr (c.limit max')) := by
  refine Agree.bind (R := fun _ _ => True) ?_ (fun _ _ _ => agree_pure trivial)
  have hv' : (c.limit max).version ≠ 1 := hv
  unfold readGGUFString discardGGUFString
  rw [if_neg hv']
  refine agree_bind_self (fun length => ?_)
  intro s x s' y s'' hx hy
  obtain ⟨_, s₁, hbuffer, hx⟩ := bind_eq_ok.1 hx
  obtain ⟨hlength, rfl⟩ := stringBuffer_eq_ok hbuffer
  dsimp only at hy
  rw [if_neg (Nat.not_le.2 hlength)] at hy
  unfold readFull at hx
  split at hx
  · rename_i hle
    rw [if_pos hle, Except.ok.injEq, Prod.mk.injEq] at hy
    rw [Except.ok.injEq, Prod.mk.injEq] at hx
    exact ⟨trivial, hx.2.symm.trans hy.2⟩
  · nomatch hx

/-- Readers that take the same bytes do so the other way round. -/
theorem Agree.swap {α β : Type} {p : Reader Err α} {q : Reader Err β} (h : Agree (fun _ _ => True) p q) :
    Agree (fun _ _ => True) q p := by
  intro s x s' y s'' hx hy
  exact ⟨trivial, (h s y s'' x s' hy hx).2.symm⟩

/-- An element takes the same bytes, whether it is collected or not. -/
theorem agree_readElement {str str' : Reader Err Scalar} (h : Agree (fun _ _ => True) str str') (t : UInt32) :
    Agree (fun _ _ => True) (readElement (c.limit max) str t) (readElement (c.limit max') str' t) := by
  unfold readElement
  by_cases ht : t.toNat = 8
  · rw [readScalar_string str ht, readScalar_string str' ht]
    exact h
  · rw [readScalar_of_ne str str' ht]
    exact (agree_self _).mono (fun _ _ _ => trivial)

/-! ## Arrays -/

/-- An array of version 1 takes the same bytes, whether it is collected or not. -/
theorem agree_readGGUFV1Array :
    Agree Value.Agrees (readGGUFV1Array (c.limit max)) (readGGUFV1Array (c.limit max')) := by
  unfold readGGUFV1Array
  refine agree_bind_self (fun t => agree_bind_self (fun n => ?_))
  dsimp only
  by_cases h0 : n = 0
  · -- Without elements nothing more is read.
    subst h0
    rw [if_pos rfl, if_pos rfl]
    split <;> split
    · exact agree_make_left (agree_make_right (agree_pure (Value.agrees_self _)))
    · exact agree_make_left (agree_pure (agrees_array_none (Or.inr rfl)))
    · exact agree_make_right (agree_pure (agrees_array_none (Or.inl rfl)))
    · exact agree_pure (Value.agrees_self _)
  · have hpanics : ∀ {α β : Type} {R : α → β → Prop} {p : Reader Err Scalar} (q : Reader Err β),
        Agree R (p >>= fun _ => (fail .panic : Reader Err α)) q := by
      intro α β R p q s x s' y s'' hx
      obtain ⟨_, _, _, hx⟩ := bind_eq_ok.1 hx
      nomatch hx
    have hpanics' : ∀ {α β : Type} {R : α → β → Prop} {p : Reader Err Scalar} (q : Reader Err α),
        Agree R q (p >>= fun _ => (fail .panic : Reader Err β)) := by
      intro α β R p q s x s' y s'' _ hy
      obtain ⟨_, _, _, hy⟩ := bind_eq_ok.1 hy
      nomatch hy
    rw [if_neg h0, if_neg h0]
    split
    · exact agree_make_left (hpanics _)
    · split
      · exact agree_make_right (hpanics' _)
      · exact agree_bind_self (fun _ => agree_pure (Value.agrees_self _))

/-- An array takes the same bytes, whether it is collected or not. -/
theorem agree_readGGUFArray : Agree Value.Agrees (readGGUFArray (c.limit max)) (readGGUFArray (c.limit max')) := by
  unfold readGGUFArray
  have hversion : ∀ limit, (c.limit limit).version = c.version := fun _ => rfl
  rw [hversion, hversion]
  by_cases hv : c.version = 1
  · rw [if_pos hv, if_pos hv]
    exact agree_readGGUFV1Array c max max'
  · rw [if_neg hv, if_neg hv]
    have hstrings := agree_strings c max max' hv
    have hstrings' := Agree.swap (agree_strings c max' max hv)
    refine agree_bind_self (fun t => agree_bind_self (fun n => ?_))
    split
    · exact agree_fail_left _ _
    · split <;> split
      · exact agree_make_left (agree_make_right (agree_bind_self (fun _ => agree_pure (Value.agrees_self _))))
      · exact agree_make_left (((agree_readElement c max max' hstrings _).times n).bind
          (fun _ _ _ => agree_pure (agrees_array_none (Or.inr rfl))))
      · exact agree_make_right (((agree_readElement c max max' hstrings' _).times n).bind
          (fun _ _ _ => agree_pure (agrees_array_none (Or.inl rfl))))
      · exact agree_bind_self (fun _ => agree_pure (Value.agrees_self _))

/-! ## The header -/

/-- A key and its value take the same bytes, whether arrays are collected or not. -/
theorem agree_readKV :
    Agree (fun e e' => e.1 = e'.1 ∧ Value.Agrees e.2 e'.2) (readKV (c.limit max)) (readKV (c.limit max')) := by
  unfold readKV
  refine agree_bind_self (p := readGGUFString c) (fun k => agree_bind_self (p := readUint c.byteOrder 4) (fun t => ?_))
  split
  · exact (agree_readGGUFArray c max max').bind (fun v v' hvv => agree_pure ⟨rfl, hvv⟩)
  · exact agree_bind_self (p := (readScalar c (readStr c) (UInt32.ofNat t)).getD (fail (.invalidType (UInt32.ofNat t))))
      (fun v => agree_pure ⟨rfl, rfl⟩)

/-- The start of a file is read the same, whether arrays are collected or not. -/
theorem agree_readContainer :
    Agree (fun c₁ c₂ => ∃ c : ContainerGGUF, c₁ = c.limit max ∧ c₂ = c.limit max')
      (readContainer maxAlloc max) (readContainer maxAlloc max') := by
  unfold readContainer
  refine agree_bind_self (fun magic => ?_)
  split
  · exact agree_fail_left _ _
  · refine agree_bind_self (fun version => agree_bind_self (fun b => agree_pure ⟨⟨_, _, _, _, 0, _⟩, rfl, rfl⟩))

/-- The header takes the same bytes, whether arrays are collected or not. -/
theorem agree_readHeader :
    Agree (fun h h' => Assoc.Related Value.Agrees h.1 h'.1 ∧ h.2 = h'.2) (readHeader maxAlloc max)
      (readHeader maxAlloc max') := by
  unfold readHeader
  refine (agree_readContainer maxAlloc max max').bind ?_
  rintro _ _ ⟨c, rfl, rfl⟩
  refine ((agree_readKV c max max').times c.numKV.toNat).bind (fun kv kv' hkv => ?_)
  exact agree_bind_self (p := (readTensor c).times c.numTensor.toNat) (fun ts => agree_pure ⟨hkv, rfl⟩)

/-! ## The model -/

/-- The alignment is not an array. -/
theorem alignmentOf_related {kv kv' : List (Bytes × Value)} (h : Assoc.Related Value.Agrees kv kv') :
    alignmentOf kv = alignmentOf kv' := by
  unfold alignmentOf
  have hlookup := h.lookup (ascii "general.alignment")
  generalize kv.lookup (ascii "general.alignment") = o at hlookup ⊢
  generalize kv'.lookup (ascii "general.alignment") = o' at hlookup ⊢
  cases hlookup with
  | none => rfl
  | @some v v' hagrees =>
    cases v with
    | scalar v =>
      cases v' with
      | scalar v' => rw [show v = v' from hagrees]
      | array n vs => exact hagrees.elim
    | array n vs =>
      cases v' with
      | scalar v' => exact hagrees.elim
      | array n' vs' => rfl

/-- What follows the header depends on no array. -/
theorem finish_related {kv kv' : List (Bytes × Value)} {ts : List Tensor} {pos : Nat}
    (h : Assoc.Related Value.Agrees kv kv') {m m' : Gguf} {stop stop' : Nat} (hm : finish kv ts pos = .ok (m, stop))
    (hm' : finish kv' ts pos = .ok (m', stop')) :
    m.Agrees m' ∧ stop = stop' := by
  have hempty : Assoc.Related (α := Bytes) Value.Agrees [] [] := .nil
  have hset := (h.foldl_set hempty).set (ascii "general.parameter_count")
    (Value.agrees_self (.scalar (.uint64 (ts.foldl (fun n t => n + t.parameters) 0))))
  unfold finish at hm hm'
  dsimp only at hm hm'
  rw [← alignmentOf_related hset] at hm'
  split at hm
  · nomatch hm
  · rename_i halign
    rw [if_neg halign] at hm'
    rcases hseek : seekTensors (alignmentOf _) ts pos with e | pos' <;> rw [hseek] at hm hm'
    · nomatch hm
    · obtain ⟨rfl, rfl⟩ := Prod.mk.inj (Except.ok.inj hm)
      obtain ⟨rfl, rfl⟩ := Prod.mk.inj (Except.ok.inj hm')
      exact ⟨⟨hset, rfl, rfl, rfl⟩, rfl⟩

end CollectionAux

open CollectionAux

/-- A file that is decoded with two limits on the arrays to collect has the same keys both times, the same values but
for the elements of arrays that were not collected, and the same tensors, offsets and end. -/
theorem decode_agree {maxAlloc : Option Nat} {max max' : Int} {start : Nat} {file : Bytes} {m m' : Gguf}
    {stop stop' : Nat} (h : decodeAt maxAlloc max start file = .ok (m, stop))
    (h' : decodeAt maxAlloc max' start file = .ok (m', stop')) :
    m.Agrees m' ∧ stop = stop' := by
  unfold decodeAt at h h'
  split at h
  · nomatch h
  · rename_i kv ts rest hheader
    split at h'
    · nomatch h'
    · rename_i kv' ts' rest' hheader'
      obtain ⟨⟨hkv, hts⟩, rfl⟩ := agree_readHeader _ _ _ file _ _ _ _ hheader hheader'
      dsimp only at hkv hts
      subst hts
      exact finish_related hkv h h'

/-- A file of version 3 with an array of two strings and a number, without tensors. -/
def twoStrings : Bytes :=
  ascii "GGUF" ++ le 4 3 ++ le 8 0 ++ le 8 2 ++
    (writeString (ascii "a") ++ le 4 9 ++ le 4 8 ++ le 8 2 ++ writeString (ascii "b") ++ writeString (ascii "cd")) ++
    (writeString (ascii "e") ++ le 4 4 ++ le 4 7)

/-- The array is collected without a limit, and skipped with the limit 1. -/
theorem decode_agree_strings :
    ∃ m m' stop stop', decode (-1) twoStrings = .ok (m, stop) ∧ decode 1 twoStrings = .ok (m', stop') ∧
    m.kv.lookup (ascii "a") = some (.array 2 (some [.string (ascii "b"), .string (ascii "cd")])) ∧
    m'.kv.lookup (ascii "a") = some (.array 2 none) ∧ m.Agrees m' ∧ stop = stop' := by
  have hsome : ((decode (-1) twoStrings).toOption.bind (fun out => out.1.kv.lookup (ascii "a"))) =
      some (.array 2 (some [.string (ascii "b"), .string (ascii "cd")])) := by decide +kernel
  have hsome' : ((decode 1 twoStrings).toOption.bind (fun out => out.1.kv.lookup (ascii "a"))) =
    some (.array 2 none) := by
    decide +kernel
  rcases h : decode (-1) twoStrings with e | ⟨m, stop⟩ <;> rw [h] at hsome
  · nomatch hsome
  · rcases h' : decode 1 twoStrings with e | ⟨m', stop'⟩ <;> rw [h'] at hsome'
    · nomatch hsome'
    · exact ⟨m, m', stop, stop', rfl, rfl, hsome, hsome', decode_agree h h'⟩

end Ollama.Ggml
