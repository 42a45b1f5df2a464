import Ollama.Ggml.Gguf

/-!
# The keys of a model

`keyValue` of `fs/ggml/ggml.go`, and the methods of `KV` that go through it. A value of a type that was not asked for
makes the assertion in it panic: then there is no outcome. So does a division by 0.
-/

namespace Ollama.Ggml

open Lib

/-- The value of a key in a map, asserted to be of a type; the default if there is none. -/
def asserted {α : Type} (as : Value → Option α) (kv : List (Bytes × Value)) (key : Bytes) (default : α) : Option α :=
  match kv.lookup key with
  | none => some default
  | some v => as v

/-- `v.(string)`. -/
def Value.string? : Value → Option Bytes
  | .scalar (.string s) => some s
  | _ => none

/-- `v.(uint32)`. -/
def Value.uint32? : Value → Option UInt32
  | .scalar (.uint32 v) => some v
  | _ => none

/-- The size, in `v.(*array)`. -/
def Value.arraySize? : Value → Option Nat
  | .array size _ => some size
  | .scalar _ => none

/-- `Architecture`. -/
def architecture (kv : List (Bytes × Value)) : Option Bytes :=
  asserted Value.string? kv (ascii "general.architecture") (ascii "unknown")

/-- `keyValue`. The architecture goes before a key that has no prefix of its own. -/
def keyValue {α : Type} (as : Value → Option α) (kv : List (Bytes × Value)) (key : Bytes) (default : α) : Option α :=
  if (ascii "tokenizer.").isPrefixOf key ∨ (ascii "general.").isPrefixOf key then asserted as kv key default
  else (architecture kv).bind (fun architecture => asserted as kv (architecture ++ ascii "." ++ key) default)

/-- `KV.String`. -/
def kvString (kv : List (Bytes × Value)) (key default : Bytes) : Option Bytes := keyValue Value.string? kv key default

/-- `KV.Uint`, as a number of 64 bits. -/
def kvUint (kv : List (Bytes × Value)) (key : Bytes) (default : UInt32) : Option UInt64 :=
  (keyValue Value.uint32? kv key default).map UInt32.toUInt64

/-- `a / b`. -/
def divide (a b : UInt64) : Option UInt64 := if b = 0 then none else some (a / b)

/-- `Kind`. -/
def kind (kv : List (Bytes × Value)) : Option Bytes := kvString kv (ascii "general.type") (ascii "unknown")

/-- `ChatTemplate`. -/
def chatTemplate (kv : List (Bytes × Value)) : Option Bytes := kvString kv (ascii "tokenizer.chat_template") []

/-- `BlockCount`. -/
def blockCount (kv : List (Bytes × Value)) : Option UInt64 := kvUint kv (ascii "block_count") 0

/-- `EmbeddingLength`. -/
def embeddingLength (kv : List (Bytes × Value)) : Option UInt64 := kvUint kv (ascii "embedding_length") 0

/-- `HeadCount`. -/
def headCount (kv : List (Bytes × Value)) : Option UInt64 := kvUint kv (ascii "attention.head_count") 0

/-- `HeadCountKV`. -/
def headCountKV (kv : List (Bytes × Value)) : Option UInt64 := kvUint kv (ascii "attention.head_count_kv") 1

/-- `EmbeddingHeadCount`. -/
def embeddingHeadCount (kv : List (Bytes × Value)) : Option UInt64 := do
  let heads ← headCount kv
  if heads > 0 then divide (← embeddingLength kv) heads else some 0

/-- `EmbeddingHeadCountK`. -/
def embeddingHeadCountK (kv : List (Bytes × Value)) : Option UInt64 := do
  kvUint kv (ascii "attention.key_length") (← embeddingHeadCount kv).toUInt32

/-- `EmbeddingHeadCountV`. -/
def embeddingHeadCountV (kv : List (Bytes × Value)) : Option UInt64 := do
  kvUint kv (ascii "attention.value_length") (← embeddingHeadCount kv).toUInt32

/-- `GQA`. -/
def gqa (kv : List (Bytes × Value)) : Option UInt64 := do
  divide (← headCount kv) (← headCountKV kv)

/-! ## Types of values -/

/-- A value of a key has a type, if there is one. -/
def HasType {α : Type} (as : Value → Option α) (kv : List (Bytes × Value)) (key : Bytes) : Prop :=
  ∀ v, kv.lookup key = some v → (as v).isSome

variable {α : Type} {as : Value → Option α} {kv : List (Bytes × Value)} {key : Bytes} {default : α}

/-- An assertion holds if the value has the type. -/
theorem asserted_isSome_iff : (asserted as kv key default).isSome ↔ HasType as kv key := by
  rw [asserted, HasType]
  cases hlookup : kv.lookup key with
  | none => simp
  | some v => simp

/-- A value is the default, or that of the key. -/
theorem asserted_eq_some {a : α} (h : asserted as kv key default = some a) :
    a = default ∨ ∃ v, kv.lookup key = some v ∧ as v = some a := by
  rw [asserted] at h
  split at h
  · exact .inl (Option.some.inj h).symm
  · rename_i v hlookup
    exact .inr ⟨v, hlookup, h⟩

/-- A key with a prefix of its own. -/
theorem keyValue_own (hown : (ascii "tokenizer.").isPrefixOf key ∨ (ascii "general.").isPrefixOf key) :
    keyValue as kv key default = asserted as kv key default := if_pos hown

/-- A key of the architecture. -/
theorem keyValue_architecture (hother : ¬((ascii "tokenizer.").isPrefixOf key ∨ (ascii "general.").isPrefixOf key))
    {arch : Bytes} (harch : architecture kv = some arch) :
    keyValue as kv key default = asserted as kv (arch ++ ascii "." ++ key) default := by
  rw [keyValue, if_neg hother, harch, Option.bind_some]

theorem kind_eq (kv : List (Bytes × Value)) :
    kind kv = asserted Value.string? kv (ascii "general.type") (ascii "unknown") := by
  rw [kind, kvString, keyValue_own (.inr (by decide))]

theorem chatTemplate_eq (kv : List (Bytes × Value)) :
    chatTemplate kv = asserted Value.string? kv (ascii "tokenizer.chat_template") [] := by
  rw [chatTemplate, kvString, keyValue_own (.inl (by decide))]

theorem architecture_isSome_iff (kv : List (Bytes × Value)) :
    (architecture kv).isSome ↔ HasType Value.string? kv (ascii "general.architecture") := asserted_isSome_iff

theorem Value.string?_eq_some {v : Value} {s : Bytes} (h : v.string? = some s) : v = .scalar (.string s) := by
  unfold Value.string? at h
  split at h
  · rw [Option.some.inj h]
  · nomatch h

theorem Value.uint32?_eq_some {v : Value} {n : UInt32} (h : v.uint32? = some n) : v = .scalar (.uint32 n) := by
  unfold Value.uint32? at h
  split at h
  · rw [Option.some.inj h]
  · nomatch h

end Ollama.Ggml
