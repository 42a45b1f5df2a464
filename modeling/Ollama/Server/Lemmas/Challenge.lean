import Ollama.Server.UploadParts

/-!
# Challenges

What `getValue` reads of a text: nothing without the key, and past the end of the text if the key ends it
(`getValue_eq_none_iff`). A text in which the key is not is skipped (`getValue_skip`), and a value is read up to the
quote behind it (`quoted_quote`).
-/

namespace Ollama.Server

open Lib

namespace ChallengeAux

/-- A value is out of range if the text ends with the key and the sign after it. -/
theorem getValue_eq_none_iff {header key : Bytes} :
    getValue header key = none ↔ ∃ i, index (key ++ ascii "=") header = some i ∧
      header.length = i + key.length + 1 := by
  rw [getValue]
  cases hindex : index (key ++ ascii "=") header with
  | none => simp
  | some i =>
    obtain ⟨-, hprefix, -⟩ := index_eq_some_iff.1 hindex
    have hlen : (key ++ ascii "=").length ≤ (header.drop i).length := hprefix.length_le
    rw [List.length_append, List.length_drop] at hlen
    have hone : (ascii "=").length = 1 := rfl
    simp only [Option.some.injEq, exists_eq_left', ite_eq_left_iff, reduceCtorEq, imp_false, not_not]
    omega

/-- A challenge cannot be parsed if it ends with the first of one of its keys. -/
theorem parseRegistryChallenge_eq_none_iff {challenge : Bytes} : parseRegistryChallenge challenge = none ↔
    ∃ header key i, header = (if (ascii "Bearer ").isPrefixOf challenge then challenge.drop 7 else challenge) ∧
      key ∈ [ascii "realm", ascii "service", ascii "scope"] ∧ index (key ++ ascii "=") header = some i ∧
      header.length = i + key.length + 1 := by
  simp only [exists_eq_left, exists_and_left, ← getValue_eq_none_iff, List.mem_cons, List.not_mem_nil, or_false,
    or_and_right, exists_or]
  unfold parseRegistryChallenge
  generalize (if (ascii "Bearer ").isPrefixOf challenge then challenge.drop 7 else challenge) = header
  cases hrealm : getValue header (ascii "realm") with
  | none => simp [hrealm]
  | some realm =>
    cases hservice : getValue header (ascii "service") with
    | none => simp [hrealm, hservice]
    | some service => simp [hrealm, hservice]

/-! ## What is read -/

variable {s t v key : Bytes} {c : UInt8} {i : Nat}

/-- What is read from some place on. -/
def quoted (s : Bytes) : Bytes := s.take (valueEnd s)

theorem key_ne_nil : key ++ ascii "=" ≠ [] := List.append_ne_nil_of_right_ne_nil _ (List.cons_ne_nil _ _)

theorem valueEnd_cons {b : UInt8} (hb : b ≠ 0x22) : valueEnd (b :: s) = valueEnd s + 1 := by
  cases s <;> simp [valueEnd, hb]

theorem valueEnd_quote (s : Bytes) : valueEnd (0x22 :: s) = if s.head?.getD 0x2c = 0x2c then 0 else valueEnd s + 1 := by
  cases s <;> simp [valueEnd]

theorem valueEnd_append (hv : (0x22 : UInt8) ∉ v) : valueEnd (v ++ s) = v.length + valueEnd s := by
  induction v with
  | nil => simp
  | cons b v ih =>
    rw [List.mem_cons, not_or] at hv
    rw [List.cons_append, valueEnd_cons (Ne.symm hv.1), ih hv.2, List.length_cons]
    omega

theorem quoted_append (hv : (0x22 : UInt8) ∉ v) : quoted (v ++ s) = v ++ quoted s := by
  rw [quoted, valueEnd_append hv, List.take_append, List.take_of_length_le (Nat.le_add_right _ _),
    Nat.add_sub_cancel_left]
  rfl

/-- A quote at the end or before a comma ends what is read, and any other one is read. -/
theorem quoted_quote (s : Bytes) : quoted (0x22 :: s) = if s.head?.getD 0x2c = 0x2c then [] else 0x22 :: quoted s := by
  rw [quoted, valueEnd_quote]
  split
  · rfl
  · rw [List.take_succ_cons, quoted]

/-- What the value of a key is read from: the text after the sign, without the quote. -/
theorem getValue_eq (header key : Bytes) :
    getValue header key = (index (key ++ ascii "=") header).elim (some []) (fun i =>
    if header.drop (i + key.length + 1) = [] then none else some (quoted (header.drop (i + key.length + 1)).tail)) := by
  rw [getValue]
  cases index (key ++ ascii "=") header with
  | none => rfl
  | some i =>
    simp only [Option.elim_some, List.drop_eq_nil_iff, List.tail_drop, quoted]
    by_cases h : header.length < i + key.length + 2
    · rw [if_pos h, if_pos (by omega)]
    · rw [if_neg h, if_neg (by omega)]

/-- The key is not in a text before some entry. -/
theorem getValue_skip (hc : c ∉ key ++ ascii "=") (hs : index (key ++ ascii "=") s = none) :
    getValue (s ++ c :: t) key = getValue t key := by
  have hdrop : ∀ n, (s ++ c :: t).drop (s.length + 1 + n) = t.drop n := by
    intro n
    rw [Nat.add_assoc, ← List.drop_drop, List.drop_left, Nat.add_comm, List.drop_succ_cons]
  rw [getValue_eq, getValue_eq, index_append_cons key_ne_nil hc, hs, Option.none_or]
  cases index (key ++ ascii "=") t with
  | none => rfl
  | some i =>
    simp only [Option.map_some, Option.elim_some, ← hdrop, Nat.add_assoc]

/-- The first of a key is in a text before some entry. -/
theorem getValue_found (hc : c ∉ key ++ ascii "=") (hs : index (key ++ ascii "=") s = some i) :
    getValue (s ++ c :: t) key = some (quoted ((s.drop (i + key.length + 1) ++ c :: t).tail)) := by
  have hlen : i + key.length + 1 ≤ s.length := by
    obtain ⟨hi, hpre, _⟩ := index_eq_some_iff.1 hs
    have hle := hpre.length_le
    rw [List.length_append, List.length_drop] at hle
    have hone : (ascii "=").length = 1 := rfl
    omega
  rw [getValue_eq, index_append_cons key_ne_nil hc, hs, Option.some_or, Option.elim_some,
    List.drop_append_of_le_length hlen, if_neg (List.append_ne_nil_of_right_ne_nil _ (List.cons_ne_nil _ _))]

end ChallengeAux

end Ollama.Server
