import Ollama.Names.Lemmas.Parse
import Ollama.Types.Name

/-!
# How a model name is parsed

`ParseNameBare` takes the tag from behind the last colon, where no slash follows it, and the model and the namespace
from behind the last two slashes (`parseNameBare_cases`, `parseParts_cases`). What it makes of a text without the
parts that it promises is not valid.
-/

namespace Ollama.Types

open Lib Names

/-! ## Valid parts -/

/-- A part is valid when it is in the grammar. -/
theorem isValidPart_iff {kind : Part} {s : Bytes} : isValidPart kind s = true ↔ kind.Matches s := by
  have hlen : isValidLen kind s = true ↔ s ≠ [] ∧ s.length ≤ kind.maxLength := by
    rw [← List.length_pos_iff]
    cases kind <;> simp [isValidLen, Part.maxLength, Nat.one_le_iff_ne_zero, Nat.pos_iff_ne_zero]
  have hmax : (if kind = .host then 350 else 80) = kind.maxLength := by cases kind <;> rfl
  rw [← Names.isValidPart_iff]
  unfold isValidPart Names.isValidPart
  rw [hmax]
  by_cases hvalid : isValidLen kind s = true
  · obtain ⟨hne, hle⟩ := hlen.1 hvalid
    rw [if_neg (not_not.2 hvalid), if_neg (Nat.not_lt.2 hle)]
    exact (and_iff_right hne).symm
  · rw [if_pos hvalid]
    refine ⟨fun h => (by cases h), fun hne_h => ?_⟩
    obtain ⟨hne, h⟩ := hne_h
    have hlong : s.length > kind.maxLength := by
      by_contra hle
      exact hvalid (hlen.2 ⟨hne, Nat.not_lt.1 hle⟩)
    rw [if_pos hlong] at h
    cases h

/-- A name is fully qualified when every part is in the grammar. -/
theorem isFullyQualified_iff {n : Name} : n.isFullyQualified = true ↔
    Part.host.Matches n.host ∧ Part.namespace_.Matches n.namespace_ ∧ Part.model.Matches n.model ∧
      Part.tag.Matches n.tag := by
  simp only [Name.isFullyQualified, Bool.and_eq_true, isValidPart_iff, and_assoc]

/-- The text for a part that is missing is in no part's grammar. -/
theorem missingPart_not_matches (kind : Part) : ¬kind.Matches missingPart := by
  rintro ⟨c, rest, heq, hc, _⟩
  have hfirst : c = 0x21 := (List.cons.inj heq).1.symm
  rw [hfirst] at hc
  exact absurd hc (by decide)

theorem or_ne_nil {s t : Bytes} (ht : t ≠ []) : or s t ≠ [] := by
  unfold or
  split
  · exact ht
  · assumption

theorem or_of_ne_nil {s t : Bytes} (hs : s ≠ []) : or s t = s := if_neg hs

/-- A promised part that is valid was there. -/
theorem or_missingPart {kind : Part} {s : Bytes} (h : kind.Matches (or s missingPart)) : or s missingPart = s := by
  unfold or at h ⊢
  split
  · rename_i hs
    rw [if_pos hs] at h
    exact absurd h (missingPart_not_matches kind)
  · rfl

/-! ## Cuts -/

theorem cutLast_none {s : Bytes} {c : UInt8} (h : c ∉ s) : cutLastAny [c] s = none := by
  rw [cutLastAny_eq_none_iff]
  intro b hb hb'
  exact h (List.mem_singleton.1 hb' ▸ hb)

theorem cutLast_append {before after : Bytes} {c : UInt8} (h : c ∉ after) :
    cutLastAny [c] (before ++ c :: after) = some (before, after, c) :=
  cutLastAny_append (List.mem_singleton_self c) (fun _ hb hb' => h (List.mem_singleton.1 hb' ▸ hb)) before

theorem cutPromised_none {s : Bytes} {c : UInt8} (h : c ∉ s) : cutPromised s c = (s, [], false) := by
  unfold cutPromised cutLast
  rw [cutLast_none h]
  rfl

theorem cutPromised_append {before after : Bytes} {c : UInt8} (h : c ∉ after) :
    cutPromised (before ++ c :: after) c = (or before missingPart, or after missingPart, true) := by
  unfold cutPromised cutLast
  rw [cutLast_append h]
  rfl

theorem lastIndex_append {before after : Bytes} {c : UInt8} (h : c ∉ after) :
    lastIndex (before ++ c :: after) c = before.length := by
  unfold lastIndex
  rw [cutLast_append h]

/-- The last place of a byte that does not occur in the second part of a text is in the first. -/
theorem lastIndex_lt {before after : Bytes} {c : UInt8} (h : c ∉ after) :
    lastIndex (before ++ after) c < before.length := by
  unfold lastIndex
  cases hcut : cutLastAny [c] (before ++ after) with
  | none => exact Int.lt_of_lt_of_le (by decide) (Int.natCast_nonneg _)
  | some x =>
    obtain ⟨front, back, sep⟩ := x
    obtain ⟨heq, hsep, _⟩ := cutLastAny_eq_some_iff.1 hcut
    rw [List.mem_singleton.1 hsep] at heq
    dsimp only
    by_contra hge
    have hle : before.length ≤ front.length := by omega
    have hget : (before ++ after)[front.length]? = some c := by
      rw [heq, List.getElem?_append_right (Nat.le_refl _), Nat.sub_self]
      rfl
    rw [List.getElem?_append_right hle] at hget
    exact h (List.mem_of_getElem? hget)

/-- What `ParseNameBare` makes of a text that ends in a tag. -/
theorem parseNameBare_tag {s t : Bytes} (hcolon : 0x3a ∉ t) (hslash : 0x2f ∉ t) :
    parseNameBare (s ++ 0x3a :: t) = parseParts (or s missingPart) (or t missingPart) := by
  have hlt : lastIndex (s ++ 0x3a :: t) 0x2f < s.length := by
    refine lastIndex_lt fun hb => ?_
    rcases List.mem_cons.1 hb with hb | hb
    · exact absurd hb (by decide)
    · exact hslash hb
  unfold parseNameBare
  rw [lastIndex_append hcolon, if_pos hlt, cutPromised_append hcolon]

/-- What `ParseNameBare` makes of a text whose last component has no colon. -/
theorem parseNameBare_no_tag {s last : Bytes} (hcolon : 0x3a ∉ last) (hslash : 0x2f ∉ last) :
    parseNameBare (s ++ 0x2f :: last) = parseParts (s ++ 0x2f :: last) [] := by
  have hlt : lastIndex (s ++ 0x2f :: last) 0x3a < s.length := by
    refine lastIndex_lt fun hb => ?_
    rcases List.mem_cons.1 hb with hb | hb
    · exact absurd hb (by decide)
    · exact hcolon hb
  unfold parseNameBare
  rw [lastIndex_append hslash, if_neg (by omega)]

/-- What `ParseNameBare` makes of a text without a separator. -/
theorem parseNameBare_plain {s : Bytes} (hcolon : 0x3a ∉ s) (hslash : 0x2f ∉ s) :
    parseNameBare s = parseParts s [] := by
  unfold parseNameBare lastIndex
  rw [cutLast_none hcolon, cutLast_none hslash]
  rfl

/-- Where `ParseNameBare` finds the tag. -/
theorem parseNameBare_cases (s : Bytes) :
    (∃ s' t, s = s' ++ 0x3a :: t ∧ 0x3a ∉ t ∧ 0x2f ∉ t ∧
      parseNameBare s = parseParts (or s' missingPart) (or t missingPart)) ∨ parseNameBare s = parseParts s [] := by
  rcases exists_cut 0x2f s with hslash | ⟨before, last, rfl, hslash⟩
  · rcases exists_cut 0x3a s with hcolon | ⟨s', t, rfl, hcolon⟩
    · exact .inr (parseNameBare_plain hcolon hslash)
    · have ht : 0x2f ∉ t := fun hb => hslash (List.mem_append_right _ (List.mem_cons_of_mem _ hb))
      exact .inl ⟨s', t, rfl, hcolon, ht, parseNameBare_tag hcolon ht⟩
  · rcases exists_cut 0x3a last with hcolon | ⟨m, t, rfl, hcolon⟩
    · exact .inr (parseNameBare_no_tag hcolon hslash)
    · have ht : 0x2f ∉ t := fun hb => hslash (List.mem_append_right _ (List.mem_cons_of_mem _ hb))
      have hassoc : before ++ 0x2f :: (m ++ 0x3a :: t) = (before ++ 0x2f :: m) ++ 0x3a :: t := by simp
      exact .inl ⟨before ++ 0x2f :: m, t, hassoc, hcolon, ht, by rw [hassoc, parseNameBare_tag hcolon ht]⟩

/-- What is made of one component. -/
theorem parseParts_model {m tag : Bytes} (hm : 0x2f ∉ m) : parseParts m tag = { model := m, tag } := by
  unfold parseParts
  rw [cutPromised_none hm]
  rfl

/-- What is made of two components. -/
theorem parseParts_namespace {n m tag : Bytes} (hn : 0x2f ∉ n) (hm : 0x2f ∉ m) :
    parseParts (n ++ 0x2f :: m) tag = { namespace_ := or n missingPart, model := or m missingPart, tag } := by
  have hmissing : 0x2f ∉ or n missingPart := by
    unfold or
    split
    · decide
    · exact hn
  unfold parseParts
  rw [cutPromised_append hm]
  dsimp only
  rw [if_neg (by decide), cutPromised_none hmissing]
  rfl

/-- What is made of three components or more. -/
theorem parseParts_host {x n m tag : Bytes} (hn : 0x2f ∉ n) (hm : 0x2f ∉ m) :
    parseParts (x ++ 0x2f :: (n ++ 0x2f :: m)) tag =
      ⟨cutScheme (or x missingPart), or n missingPart, or m missingPart, tag⟩ := by
  have hassoc : x ++ 0x2f :: (n ++ 0x2f :: m) = (x ++ 0x2f :: n) ++ 0x2f :: m := by simp
  unfold parseParts
  rw [hassoc, cutPromised_append hm]
  dsimp only
  rw [if_neg (by decide), or_of_ne_nil (by simp), cutPromised_append hn]
  rfl

/-- What is made of a text, by its components. -/
theorem parseParts_cases (s tag : Bytes) :
    (0x2f ∉ s ∧ parseParts s tag = { model := s, tag }) ∨
    (∃ n m, s = n ++ 0x2f :: m ∧ 0x2f ∉ n ∧ 0x2f ∉ m ∧
      parseParts s tag = { namespace_ := or n missingPart, model := or m missingPart, tag }) ∨
    (∃ x n m, s = x ++ 0x2f :: (n ++ 0x2f :: m) ∧ 0x2f ∉ n ∧ 0x2f ∉ m ∧
      parseParts s tag = ⟨cutScheme (or x missingPart), or n missingPart, or m missingPart, tag⟩) := by
  rcases exists_cut 0x2f s with hslash | ⟨before, m, rfl, hm⟩
  · exact .inl ⟨hslash, parseParts_model hslash⟩
  · rcases exists_cut 0x2f before with hn | ⟨x, n, rfl, hn⟩
    · exact .inr (.inl ⟨before, m, rfl, hn, hm, parseParts_namespace hn hm⟩)
    · have hassoc : x ++ 0x2f :: n ++ 0x2f :: m = x ++ 0x2f :: (n ++ 0x2f :: m) := by simp
      exact .inr (.inr ⟨x, n, m, hassoc, hn, hm, by rw [hassoc, parseParts_host hn hm]⟩)

/-- The scheme is cut from a host, and leaves what stands behind it. -/
theorem cutScheme_cases (s : Bytes) :
    cutScheme s = s ∧ ¬ascii "://" <:+: s ∨ ∃ scheme, s = scheme ++ ascii "://" ++ cutScheme s := by
  unfold cutScheme
  cases h : index (ascii "://") s with
  | none => exact .inl ⟨rfl, index_eq_none_iff.1 h⟩
  | some i =>
    obtain ⟨hi, ⟨rest, hrest⟩, _⟩ := index_eq_some_iff.1 h
    refine .inr ⟨s.take i, ?_⟩
    have hdrop : s.drop (i + 3) = rest := by
      rw [← List.drop_drop, ← hrest]
      exact List.drop_left' (by decide)
    show s = s.take i ++ ascii "://" ++ s.drop (i + 3)
    rw [hdrop, List.append_assoc, hrest, List.take_append_drop]

theorem cutScheme_of_not_mem {s : Bytes} (h : 0x2f ∉ s) : cutScheme s = s := by
  rcases cutScheme_cases s with ⟨heq, _⟩ | ⟨scheme, heq⟩
  · exact heq
  · exfalso
    apply h
    rw [heq]
    exact List.mem_append_left _ (List.mem_append_right _ (by decide))

end Ollama.Types
