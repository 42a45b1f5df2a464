import Ollama.Model.Lemmas.Encode
import Mathlib.Data.List.Sort

/-!
# Encode, then Decode

A text that is encoded and decoded is the text again, but for the byte of `~`, which is written as the rune of a
space: the range of bytes that are moved starts one too low, at `0x7e`, and its image meets that of the bytes up to
`0x20`.
-/

namespace Ollama.Model

open Lib Utf8

variable {σ : Type} {Q : Queue σ}

/-- What is decoded from the runes of a text without NUL bytes. -/
theorem decoded_bytes {s : Bytes} (hnul : 0 ∉ s) :
    (s.map byteRune).flatMap runeBytes = s.map (fun b => if b = 0x7e then 0x20 else b) := by
  induction s with
  | nil => rfl
  | cons b s ih =>
    rw [List.mem_cons, not_or] at hnul
    rw [List.map_cons, List.flatMap_cons, runeBytes_byteRune (Ne.symm hnul.1), ih hnul.2]
    rfl

/-- A text is what is decoded from it if it has no `~`. -/
theorem decoded_eq_iff (s : Bytes) : s.map (fun b => if b = 0x7e then 0x20 else b) = s ↔ 0x7e ∉ s := by
  induction s with
  | nil => simp
  | cons b s ih =>
    rw [List.map_cons, List.cons.injEq, ih, List.mem_cons, not_or]
    refine and_congr_left (fun _ => ?_)
    by_cases hb : b = 0x7e
    · subst hb
      simp
    · simp [hb, Ne.symm hb]

/-- A text without NUL bytes and special tokens is decoded from its ids if and only if every value of the vocabulary
has a type and there is no `~` in the text. -/
theorem decode_encode_iff {bpe : BytePairEncoding} (hpre : ∀ s, (bpe.pre s).flatten = s)
    (hbytes : ∀ b, encodeRune (byteRune b) ∈ bpe.vocab.values) (hmerges : MergesKnown bpe.vocab) {s : Bytes}
    (hnul : 0 ∉ s) (hspecial : ∀ t, IsSpecial bpe.vocab t → ¬t <:+: s) :
    (bpe.encode Q s false).bind bpe.decode = some s ↔
      bpe.vocab.values.length ≤ bpe.vocab.types.length ∧ 0x7e ∉ s := by
  by_cases htypes : bpe.vocab.values.length ≤ bpe.vocab.types.length
  · obtain ⟨ids, hids, hspells⟩ := encode_spec (Q := Q) hmerges hbytes (hpre s) hspecial htypes
    rw [hids, Option.bind_some, hspells.decode, decoded_bytes hnul, Option.some.injEq, decoded_eq_iff]
    exact (and_iff_right htypes).symm
  · rw [encode_eq_none htypes, Option.bind_none]
    exact iff_of_false (fun h => nomatch h) (fun h => htypes h.1)

/-! ## A vocabulary -/

/-- The queue as a list that is kept in the order of ranks. -/
def rankQueue : Queue (List Pair) where
  empty := []
  push p q := q.orderedInsert (fun x y => x.rank ≤ y.rank) p
  pop q := match q with
    | [] => none
    | p :: q => some (p, q)
  items q := q
  items_empty := rfl
  items_push p q := Multiset.coe_eq_coe.2 (List.perm_orderedInsert _ p q)
  pop_none q := by cases q <;> simp
  pop_some q p q' h := by
    cases q with
    | nil => nomatch h
    | cons x q =>
      obtain ⟨rfl, rfl⟩ := Prod.mk.inj (Option.some.inj h)
      rfl

/-- The runes of all bytes, once each: that of `~` is the one of a space. -/
def byteRunes : List Nat := ((List.range 256).filter (· ≠ 0x7e)).map (fun n => byteRune (UInt8.ofNat n))

/-- The runes of all bytes, and one string of two that the only merge gives. -/
def smallVocabulary : Vocabulary where
  values := byteRunes.map encodeRune ++ [[0x61, 0x62]]
  types := List.replicate 256 1
  merges := [[0x61, 0x20, 0x62]]
  values_le := by decide +kernel
  merges_le := by decide

/-- An encoder whose pre-tokenizer leaves a text whole. -/
def smallEncoder : BytePairEncoding := ⟨fun s => [s], smallVocabulary⟩

theorem smallVocabulary_bytes (b : UInt8) : encodeRune (byteRune b) ∈ smallVocabulary.values := by
  refine List.mem_append_left _ (List.mem_map_of_mem (List.mem_map.2 ?_))
  by_cases hb : b = 0x7e
  · exact ⟨0x20, by decide, by rw [hb]; rfl⟩
  · have hne : b.toNat ≠ 0x7e := fun h => hb (UInt8.toNat_inj.1 h)
    refine ⟨b.toNat, ?_, by rw [UInt8.ofNat_toNat]⟩
    rw [List.mem_filter, List.mem_range]
    exact ⟨b.toNat_lt, decide_eq_true hne⟩

/-- Two bytes other than `~` have two runes. -/
theorem byteRune_inj {n m : Nat} (hn : n < 256) (hm : m < 256) (hn' : n ≠ 0x7e) (hm' : m ≠ 0x7e)
    (h : byteRune (UInt8.ofNat n) = byteRune (UInt8.ofNat m)) : n = m := by
  unfold byteRune at h
  rw [toNat_ofNat hn, toNat_ofNat hm] at h
  dsimp only at h
  split_ifs at h <;> omega

theorem byteRunes_nodup : byteRunes.Nodup := by
  refine (List.nodup_range.filter _).map_on ?_
  intro n hn m hm h
  rw [List.mem_filter, List.mem_range, decide_eq_true_iff] at hn hm
  exact byteRune_inj hn.1 hm.1 hn.2 hm.2 h

theorem smallVocabulary_nodup : smallVocabulary.values.Nodup := by
  have hone : ∀ r ∈ byteRunes, runes (encodeRune r) = [r] := by
    intro r hr
    obtain ⟨n, _, rfl⟩ := List.mem_map.1 hr
    have hr := runes_encodeRune (validRune_byteRune (UInt8.ofNat n)) []
    rwa [List.append_nil] at hr
  refine List.Nodup.append (byteRunes_nodup.map_on ?_) (List.nodup_singleton _) ?_
  · intro r hr r' hr' h
    have h := congrArg runes h
    rw [hone r hr, hone r' hr'] at h
    exact List.head_eq_of_cons_eq h
  · rw [List.disjoint_singleton]
    intro hmem
    obtain ⟨r, hr, h⟩ := List.mem_map.1 hmem
    have h := congrArg runes h
    have hab : runes [0x61, 0x62] = [0x61, 0x62] := by decide +kernel
    rw [hone r hr, hab] at h
    nomatch h

theorem smallVocabulary_merges : MergesKnown smallVocabulary := by
  intro l r h
  have h : l ++ [0x20] ++ r = [0x61, 0x20, 0x62] := List.mem_singleton.1 h
  have hsplit : l = [0x61] ∧ r = [0x62] := by
    rcases l with _ | ⟨x, _ | ⟨y, _ | ⟨z, l⟩⟩⟩ <;> simp_all
  rw [hsplit.1, hsplit.2]
  decide +kernel

theorem smallVocabulary_special (t : Bytes) : ¬IsSpecial smallVocabulary t := by
  rintro ⟨i, _, hi⟩
  have hmem : (3 : UInt32) ∈ List.replicate 256 1 := List.mem_of_getElem? hi
  exact absurd (List.eq_of_mem_replicate hmem) (by decide)

theorem smallEncoder_pre (s : Bytes) : (smallEncoder.pre s).flatten = s := by simp [smallEncoder]

/-- The text `abc` in this vocabulary: two of its runes are merged. -/
theorem decode_encode_abc :
    (smallEncoder.encode rankQueue [0x61, 0x62, 0x63] false).bind smallEncoder.decode = some [0x61, 0x62, 0x63] :=
  (decode_encode_iff smallEncoder_pre smallVocabulary_bytes smallVocabulary_merges (by decide)
    (fun t ht => absurd ht (smallVocabulary_special t))).2 ⟨by decide +kernel, by decide⟩

/-- The text `~` is decoded as a space: distinct values, one for every byte, and a text without NUL bytes and special
tokens. -/
theorem tilde_decoded_as_space :
    smallVocabulary.values.Nodup ∧ (∀ b, encodeRune (byteRune b) ∈ smallVocabulary.values) ∧
      MergesKnown smallVocabulary ∧
      (∀ s, (smallEncoder.pre s).flatten = s) ∧ 0 ∉ ([0x7e] : Bytes) ∧
        (∀ t, IsSpecial smallVocabulary t → ¬t <:+: [0x7e]) ∧
      (smallEncoder.encode rankQueue [0x7e] false).bind smallEncoder.decode = some [0x20] ∧
      (some [0x20] : Option Bytes) ≠ some [0x7e] :=
  ⟨smallVocabulary_nodup, smallVocabulary_bytes, smallVocabulary_merges, smallEncoder_pre, by decide,
    fun t ht => absurd ht (smallVocabulary_special t), by decide +kernel, by decide⟩

end Ollama.Model
