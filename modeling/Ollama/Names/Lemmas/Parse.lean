import Mathlib.Data.List.TakeWhile
import Ollama.Names.Name

/-!
# How a name is parsed

`cutLastAny` cuts at the last separator (`cutLastAny_eq_some_iff`). `Parse` cuts the last component at every colon
from the end on, so that the tag it is left with is the one behind the first colon, up to the second
(`parse_component`).
-/

namespace Ollama.Names

open Lib Utf8

/-! ## Cutting -/

theorem cutLastAny_eq_none_iff {chars s : Bytes} : cutLastAny chars s = none ↔ ∀ b ∈ s, b ∉ chars := by
  induction s with
  | nil => exact ⟨fun _ => nofun, fun _ => rfl⟩
  | cons b s ih =>
    rw [cutLastAny, List.forall_mem_cons, ← ih]
    cases cutLastAny chars s with
    | some x => simp
    | none =>
      by_cases hb : b ∈ chars
      · simp [hb]
      · simp [hb]

/-- A text is cut at its last separator. -/
theorem cutLastAny_append {chars after : Bytes} {sep : UInt8} (hsep : sep ∈ chars) (hafter : ∀ b ∈ after, b ∉ chars)
    (before : Bytes) :
    cutLastAny chars (before ++ sep :: after) = some (before, after, sep) := by
  induction before with
  | nil =>
    rw [List.nil_append, cutLastAny, cutLastAny_eq_none_iff.2 hafter]
    exact if_pos hsep
  | cons b before ih => rw [List.cons_append, cutLastAny, ih]

theorem cutLastAny_eq_some_iff {chars s before after : Bytes} {sep : UInt8} :
    cutLastAny chars s = some (before, after, sep) ↔ s = before ++ sep :: after ∧ sep ∈ chars ∧
      ∀ b ∈ after, b ∉ chars := by
  constructor
  · intro h
    induction s generalizing before with
    | nil => cases h
    | cons b s ih =>
      rw [cutLastAny] at h
      cases hs : cutLastAny chars s with
      | some x =>
        rw [hs] at h
        obtain ⟨before', after', sep'⟩ := x
        obtain ⟨rfl, rfl, rfl⟩ : b :: before' = before ∧ after' = after ∧ sep' = sep := by simpa using h
        obtain ⟨rfl, hrest⟩ := ih hs
        exact ⟨rfl, hrest⟩
      | none =>
        rw [hs] at h
        dsimp only at h
        split at h
        · rename_i hb
          obtain ⟨rfl, rfl, rfl⟩ : [] = before ∧ s = after ∧ b = sep := by simpa using h
          exact ⟨rfl, hb, cutLastAny_eq_none_iff.1 hs⟩
        · cases h
  · rintro ⟨rfl, hsep, hafter⟩
    exact cutLastAny_append hsep hafter before

/-- A text has a separator, or none. -/
theorem exists_cut (c : UInt8) (s : Bytes) : c ∉ s ∨ ∃ before after, s = before ++ c :: after ∧ c ∉ after := by
  cases h : cutLastAny [c] s with
  | none =>
    refine .inl fun hc => ?_
    exact cutLastAny_eq_none_iff.1 h c hc (List.mem_singleton_self c)
  | some x =>
    obtain ⟨before, after, sep⟩ := x
    obtain ⟨hs, hsep, hafter⟩ := cutLastAny_eq_some_iff.1 h
    rw [List.mem_singleton.1 hsep] at hs
    exact .inr ⟨before, after, hs, fun hc => hafter c hc (List.mem_singleton_self c)⟩

/-! ## The loop of `Parse` -/

/-- The loop has as many turns as it needs. -/
theorem parseFrom_fuel {fuel : Nat} {n : Name} {s : Bytes} (h : s.length ≤ fuel) :
    parseFrom fuel n s = parseFrom s.length n s := by
  induction fuel using Nat.strong_induction_on generalizing n s with
  | _ fuel ih =>
    cases fuel with
    | zero => rw [Nat.le_zero.1 h]
    | succ fuel =>
      cases hlen : s.length with
      | zero =>
        rw [List.length_eq_zero_iff.1 hlen]
        rfl
      | succ len =>
        rw [parseFrom, parseFrom]
        cases hcut : cutLastAny [0x2f, 0x3a] s with
        | none => rfl
        | some x =>
          obtain ⟨before, tail, sep⟩ := x
          dsimp only
          split
          · have hs := (cutLastAny_eq_some_iff.1 hcut).1
            have hlength : s.length = before.length + (tail.length + 1) := by
              rw [hs, List.length_append, List.length_cons]
            rw [ih fuel (Nat.lt_succ_self fuel) (by omega), ih len (by omega) (by omega)]
          · rfl

/-- The loop at a text without a separator. -/
theorem parseFrom_none {n : Name} {s : Bytes} (h : ∀ b ∈ s, b ≠ 0x2f ∧ b ≠ 0x3a) :
    parseFrom s.length n s = { n with m := s } := by
  cases hlen : s.length with
  | zero => rfl
  | succ len =>
    rw [parseFrom, cutLastAny_eq_none_iff.2]
    intro b hb
    simpa using h b hb

/-- The loop at a colon. -/
theorem parseFrom_colon {n : Name} {before tail : Bytes} (h : ∀ b ∈ tail, b ≠ 0x2f ∧ b ≠ 0x3a) :
    parseFrom (before ++ 0x3a :: tail).length n (before ++ 0x3a :: tail) =
      parseFrom before.length { n with t := tail } before := by
  have hlen : (before ++ 0x3a :: tail).length = (before.length + tail.length) + 1 := by
    rw [List.length_append, List.length_cons]
    omega
  rw [hlen, parseFrom, cutLastAny_append (by simp) (fun b hb => by simpa using h b hb)]
  exact parseFrom_fuel (Nat.le_add_right _ _)

/-- The loop at a slash. -/
theorem parseFrom_slash {n : Name} {before tail : Bytes} (h : ∀ b ∈ tail, b ≠ 0x2f ∧ b ≠ 0x3a) :
    parseFrom (before ++ 0x2f :: tail).length n (before ++ 0x2f :: tail) =
      match cutLastAny [0x2f] before with
      | none => { n with h := [], n := before, m := tail }
      | some (host, namespace_, _) => { n with h := host, n := namespace_, m := tail } := by
  have hlen : (before ++ 0x2f :: tail).length = (before.length + tail.length) + 1 := by
    rw [List.length_append, List.length_cons]
    omega
  rw [hlen, parseFrom, cutLastAny_append (by simp) (fun b hb => by simpa using h b hb)]
  rfl

/-- What stands behind a colon, in the last component of a text, is cut away; the tag is what stands before the next
colon. -/
theorem parseFrom_tags {n : Name} {before rest : Bytes} (h : 0x2f ∉ rest) :
    parseFrom (before ++ 0x3a :: rest).length n (before ++ 0x3a :: rest) =
      parseFrom before.length { n with t := rest.takeWhile (· ≠ 0x3a) } before := by
  induction hlen : rest.length using Nat.strong_induction_on generalizing n rest with
  | _ len ih =>
    rcases exists_cut 0x3a rest with hcolon | ⟨first, last, rfl, hlast⟩
    · have hall : ∀ b ∈ rest, b ≠ 0x2f ∧ b ≠ 0x3a := fun b hb => ⟨fun hb' => h (hb' ▸ hb), fun hb' => hcolon (hb' ▸ hb)⟩
      rw [parseFrom_colon hall, List.takeWhile_eq_self_iff.2]
      intro b hb
      simpa using (hall b hb).2
    · have hall : ∀ b ∈ last, b ≠ 0x2f ∧ b ≠ 0x3a :=
        fun b hb => ⟨fun hb' => h (hb' ▸ List.mem_append_right _ (List.mem_cons_of_mem _ hb)),
          fun hb' => hlast (hb' ▸ hb)⟩
      have hfirst : 0x2f ∉ first := fun hb => h (List.mem_append_left _ hb)
      have hassoc : before ++ 0x3a :: (first ++ 0x3a :: last) = (before ++ 0x3a :: first) ++ 0x3a :: last := by simp
      have hlength : first.length < len := by
        rw [← hlen, List.length_append, List.length_cons]
        omega
      rw [hassoc, parseFrom_colon hall, ih first.length hlength hfirst rfl, List.takeWhile_append]
      -- the tag of the first part, which ends there or at a colon of its own
      congr 2
      split
      · rename_i hwhole
        rw [List.takeWhile_cons_of_neg (by decide), List.append_nil, List.takeWhile_eq_self_iff]
        intro b hb
        have hb' := List.takeWhile_eq_self_iff.1 ((List.takeWhile_prefix _).eq_of_length hwhole) b hb
        exact hb'
      · rfl

/-- The host and the namespace of what stands before the last component. -/
def parents (before : Bytes) : Bytes × Bytes :=
  match cutLastAny [0x2f] before with
  | none => ([], before)
  | some (host, namespace_, _) => (host, namespace_)

/-- What `Parse` makes of a text, by its last component. -/
theorem parse_component {before m rest : Bytes} (hm : ∀ b ∈ m, b ≠ 0x2f ∧ b ≠ 0x3a) (hrest : 0x2f ∉ rest)
    (hlen : (before ++ 0x2f :: (m ++ 0x3a :: rest)).length ≤ maxNameLength) :
    parse (before ++ 0x2f :: (m ++ 0x3a :: rest)) =
      ⟨(parents before).1, (parents before).2, m, rest.takeWhile (· ≠ 0x3a)⟩ := by
  have hassoc : before ++ 0x2f :: (m ++ 0x3a :: rest) = (before ++ 0x2f :: m) ++ 0x3a :: rest := by simp
  unfold parse parents
  rw [if_neg (Nat.not_lt.2 hlen), hassoc, parseFrom_tags hrest, parseFrom_slash hm]
  cases cutLastAny [0x2f] before with
  | none => rfl
  | some x => rfl

/-- What `Parse` makes of a text whose last component has no colon. -/
theorem parse_component_no_tag {before m : Bytes} (hm : ∀ b ∈ m, b ≠ 0x2f ∧ b ≠ 0x3a)
    (hlen : (before ++ 0x2f :: m).length ≤ maxNameLength) :
    parse (before ++ 0x2f :: m) = ⟨(parents before).1, (parents before).2, m, []⟩ := by
  unfold parse parents
  rw [if_neg (Nat.not_lt.2 hlen), parseFrom_slash hm]
  cases cutLastAny [0x2f] before with
  | none => rfl
  | some x => rfl

/-- What `Parse` makes of a text of one component. -/
theorem parse_single {m rest : Bytes} (hm : ∀ b ∈ m, b ≠ 0x2f ∧ b ≠ 0x3a) (hrest : 0x2f ∉ rest)
    (hlen : (m ++ 0x3a :: rest).length ≤ maxNameLength) :
    parse (m ++ 0x3a :: rest) = ⟨[], [], m, rest.takeWhile (· ≠ 0x3a)⟩ := by
  unfold parse
  rw [if_neg (Nat.not_lt.2 hlen), parseFrom_tags hrest, parseFrom_none hm]

/-- What `Parse` makes of a text without a separator. -/
theorem parse_single_no_tag {m : Bytes} (hm : ∀ b ∈ m, b ≠ 0x2f ∧ b ≠ 0x3a) (hlen : m.length ≤ maxNameLength) :
    parse m = ⟨[], [], m, []⟩ := by
  unfold parse
  rw [if_neg (Nat.not_lt.2 hlen), parseFrom_none hm]

theorem parents_none {before : Bytes} (h : 0x2f ∉ before) : parents before = ([], before) := by
  unfold parents
  rw [cutLastAny_eq_none_iff.2]
  intro b hb hb'
  exact h (List.mem_singleton.1 hb' ▸ hb)

theorem parents_cut {host namespace_ : Bytes} (h : 0x2f ∉ namespace_) :
    parents (host ++ 0x2f :: namespace_) = (host, namespace_) := by
  unfold parents
  rw [cutLastAny_append (List.mem_singleton_self _)]
  intro b hb hb'
  exact h (List.mem_singleton.1 hb' ▸ hb)

/-! ## Valid parts -/

/-- The bytes that a part may have behind its first one, besides letters, digits and underscores. -/
def Part.extra : Part → Bytes
  | .host => [0x2d, 0x2e, 0x3a]
  | .namespace_ => [0x2d]
  | .model => [0x2d, 0x2e]
  | .tag => [0x2d, 0x2e]

/-- The greatest length of a part. -/
def Part.maxLength : Part → Nat
  | .host => 350
  | _ => 80

/-- The grammar of a part: a letter, a digit or an underscore, then bytes that the part may have. -/
def Part.Matches (kind : Part) (s : Bytes) : Prop :=
  ∃ c rest, s = c :: rest ∧ isAlphanumericOrUnderscore c = true ∧
    (∀ b ∈ rest, isAlphanumericOrUnderscore b = true ∨ b ∈ kind.extra) ∧ s.length ≤ kind.maxLength

theorem isPartByte_iff (kind : Part) (b : UInt8) :
    isPartByte kind b = true ↔ isAlphanumericOrUnderscore b = true ∨ b ∈ kind.extra := by
  cases kind
  · exact forall_byte (P := fun b => isPartByte .host b = true ↔ isAlphanumericOrUnderscore b = true ∨
      b ∈ Part.host.extra)
      (by decide +kernel) b
  · exact forall_byte (P := fun b => isPartByte .namespace_ b = true ↔ isAlphanumericOrUnderscore b = true ∨
      b ∈ Part.namespace_.extra)
      (by decide +kernel) b
  · exact forall_byte (P := fun b => isPartByte .model b = true ↔ isAlphanumericOrUnderscore b = true ∨
      b ∈ Part.model.extra)
      (by decide +kernel) b
  · exact forall_byte (P := fun b => isPartByte .tag b = true ↔ isAlphanumericOrUnderscore b = true ∨
      b ∈ Part.tag.extra)
      (by decide +kernel) b

/-- A part that is there is valid when it is in the grammar. -/
theorem isValidPart_iff {kind : Part} {s : Bytes} : s ≠ [] ∧ isValidPart kind s = true ↔ kind.Matches s := by
  have hmax : (if kind = .host then 350 else 80) = kind.maxLength := by cases kind <;> rfl
  unfold isValidPart Part.Matches
  rw [hmax]
  constructor
  · rintro ⟨hne, hvalid⟩
    split at hvalid
    · nomatch hvalid
    · rename_i hlen
      cases s with
      | nil => exact absurd rfl hne
      | cons c rest =>
        rw [Bool.and_eq_true, List.all_eq_true] at hvalid
        exact ⟨c, rest, rfl, hvalid.1, fun b hb => (isPartByte_iff kind b).1 (hvalid.2 b hb), Nat.not_lt.1 hlen⟩
  · rintro ⟨c, rest, rfl, hc, hrest, hlen⟩
    refine ⟨nofun, ?_⟩
    rw [if_neg (Nat.not_lt.2 hlen), Bool.and_eq_true, List.all_eq_true]
    exact ⟨hc, fun b hb => (isPartByte_iff kind b).2 (hrest b hb)⟩

/-- A name is fully qualified when every part is there and in the grammar. -/
theorem isFullyQualified_iff {n : Name} :
    n.isFullyQualified = true ↔ Part.host.Matches n.h ∧ Part.namespace_.Matches n.n ∧ Part.model.Matches n.m ∧
      Part.tag.Matches n.t := by
  rw [← isValidPart_iff, ← isValidPart_iff, ← isValidPart_iff, ← isValidPart_iff]
  simp only [Name.isFullyQualified, Name.isValid, Bool.and_eq_true, Bool.or_eq_true, decide_eq_true_eq]
  constructor
  · rintro ⟨⟨⟨⟨⟨⟨⟨⟨hh, hn⟩, ht⟩, _⟩, hm⟩, hh'⟩, hn'⟩, hm'⟩, ht'⟩
    exact ⟨⟨hh', hh.resolve_left hh'⟩, ⟨hn', hn.resolve_left hn'⟩, ⟨hm', hm⟩, ⟨ht', ht.resolve_left ht'⟩⟩
  · rintro ⟨⟨hh', hh⟩, ⟨hn', hn⟩, ⟨hm', hm⟩, ⟨ht', ht⟩⟩
    exact ⟨⟨⟨⟨⟨⟨⟨⟨.inr hh, .inr hn⟩, .inr ht⟩, hm'⟩, hm⟩, hh'⟩, hn'⟩, hm'⟩, ht'⟩

/-- The bytes of a part are of ASCII, and neither a slash nor an at sign; only a host has a colon. -/
theorem Part.Matches.bytes {kind : Part} {s : Bytes} (h : kind.Matches s) :
    ∀ b ∈ s, b < 0x80 ∧ b ≠ 0x2f ∧ b ≠ 0x40 ∧ (b = 0x3a → kind = .host) := by
  have hword : ∀ b, isAlphanumericOrUnderscore b = true → b < 0x80 ∧ b ≠ 0x2f ∧ b ≠ 0x40 ∧ b ≠ 0x3a := fun b =>
    forall_byte (P := fun b => isAlphanumericOrUnderscore b = true → b < 0x80 ∧ b ≠ 0x2f ∧ b ≠ 0x40 ∧
      b ≠ 0x3a) (by decide +kernel) b
  obtain ⟨c, rest, rfl, hc, hrest, _⟩ := h
  have hall : ∀ b, isAlphanumericOrUnderscore b = true → b < 0x80 ∧ b ≠ 0x2f ∧ b ≠ 0x40 ∧
    (b = 0x3a → kind = .host) := by
    intro b hb
    obtain ⟨h₁, h₂, h₃, h₄⟩ := hword b hb
    exact ⟨h₁, h₂, h₃, fun hcolon => absurd hcolon h₄⟩
  intro b hb
  rcases List.mem_cons.1 hb with rfl | hb
  · exact hall b hc
  · rcases hrest b hb with hw | hextra
    · exact hall b hw
    · cases kind <;> simp only [Part.extra, List.mem_cons, List.not_mem_nil, or_false] at hextra
      · rcases hextra with rfl | rfl | rfl <;> decide
      · subst hextra
        decide
      · rcases hextra with rfl | rfl <;> decide
      · rcases hextra with rfl | rfl <;> decide

theorem Part.Matches.not_slash {kind : Part} {s : Bytes} (h : kind.Matches s) : 0x2f ∉ s :=
  fun hb => (h.bytes _ hb).2.1 rfl

theorem Part.Matches.ne_nil {kind : Part} {s : Bytes} (h : kind.Matches s) : s ≠ [] := (isValidPart_iff.2 h).1

/-- A part that is not a host has no separator. -/
theorem Part.Matches.not_sep {kind : Part} {s : Bytes} (h : kind.Matches s) (hkind : kind ≠ .host) :
    ∀ b ∈ s, b ≠ 0x2f ∧ b ≠ 0x3a :=
  fun b hb => ⟨(h.bytes b hb).2.1, fun hcolon => hkind ((h.bytes b hb).2.2.2 hcolon)⟩

end Ollama.Names
