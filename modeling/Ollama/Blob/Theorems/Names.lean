import Ollama.Blob.Cache
import Ollama.Names.Lemmas.Parse

/-!
# Names and their texts

A fully qualified name is written as its grammar says, and read back; its path names it. But a text in which a name of
the grammar is followed by a colon and more is read as that name: `Parse` forgets the rest.
-/

namespace Ollama.Blob

open Lib Utf8 Names

/-- The documented grammar of a fully qualified name: host, namespace, model and tag. -/
def Documented (s : Bytes) : Prop :=
  ∃ h n m t, Part.host.Matches h ∧ Part.namespace_.Matches n ∧ Part.model.Matches m ∧ Part.tag.Matches t ∧
    s = h ++ 0x2f :: (n ++ 0x2f :: (m ++ 0x3a :: t))

/-- A name of the grammar is followed by a colon and more, of which nothing is a slash. -/
def Trailed (s : Bytes) : Prop :=
  ∃ d rest, Documented d ∧ 0x2f ∉ rest ∧ s = d ++ 0x3a :: rest ∧ s.length ≤ maxNameLength

/-- What is promised of the text of a name: if it is read as a fully qualified name, it is what the name writes, and
what the name's path is turned into; and it is read so when it is in the grammar. -/
structure Exact (s : Bytes) : Prop where
  string : (parse s).isFullyQualified = true → (parse s).string = s
  path : (parse s).isFullyQualified = true → ∃ p, nameToPath s = .ok p ∧ pathToName (ascii "manifests/" ++ p) = s
  grammar : (parse s).isFullyQualified = true ↔ Documented s

namespace NamesAux

/-- What `Parse` makes of a name of the grammar that may be followed by more. -/
theorem parse_qualified {h n m rest : Bytes} (hn : Part.namespace_.Matches n) (hm : Part.model.Matches m)
    (hrest : 0x2f ∉ rest) (hlen : (h ++ 0x2f :: (n ++ 0x2f :: (m ++ 0x3a :: rest))).length ≤ maxNameLength) :
    parse (h ++ 0x2f :: (n ++ 0x2f :: (m ++ 0x3a :: rest))) = ⟨h, n, m, rest.takeWhile (· ≠ 0x3a)⟩ := by
  have hassoc : h ++ 0x2f :: (n ++ 0x2f :: (m ++ 0x3a :: rest)) = (h ++ 0x2f :: n) ++ 0x2f :: (m ++ 0x3a :: rest) :=
    by simp
  rw [hassoc] at hlen ⊢
  rw [parse_component (hm.not_sep nofun) hrest hlen, parents_cut hn.not_slash]

theorem length_le {kind : Part} {s : Bytes} (h : kind.Matches s) : s.length ≤ kind.maxLength := by
  obtain ⟨_, _, _, _, _, hlen⟩ := h
  exact hlen

/-- A name of the grammar is not too long. -/
theorem length_documented {h n m t : Bytes} (hh : Part.host.Matches h) (hn : Part.namespace_.Matches n)
    (hm : Part.model.Matches m) (ht : Part.tag.Matches t) :
    (h ++ 0x2f :: (n ++ 0x2f :: (m ++ 0x3a :: t))).length ≤ maxNameLength := by
  have h₁ := length_le hh
  have h₂ := length_le hn
  have h₃ := length_le hm
  have h₄ := length_le ht
  simp only [Part.maxLength] at h₁ h₂ h₃ h₄
  simp only [List.length_append, List.length_cons, maxNameLength]
  omega

theorem takeWhile_tag {t : Bytes} (ht : ∀ b ∈ t, b ≠ 0x3a) : t.takeWhile (· ≠ 0x3a) = t := by
  rw [List.takeWhile_eq_self_iff]
  intro b hb
  simpa using ht b hb

/-- What `Parse` makes of a name of the grammar. -/
theorem parse_documented {h n m t : Bytes} (hh : Part.host.Matches h) (hn : Part.namespace_.Matches n)
    (hm : Part.model.Matches m) (ht : Part.tag.Matches t) :
    parse (h ++ 0x2f :: (n ++ 0x2f :: (m ++ 0x3a :: t))) = ⟨h, n, m, t⟩ := by
  rw [parse_qualified hn hm ht.not_slash (length_documented hh hn hm ht),
    takeWhile_tag fun b hb => (ht.not_sep nofun b hb).2]

/-- A text that is read as a fully qualified name is one of the grammar, or is one that is followed by more. -/
theorem documented_or_trailed {s : Bytes} (hfq : (parse s).isFullyQualified = true) : Documented s ∨ Trailed s := by
  have hlen : s.length ≤ maxNameLength := by
    by_contra hlong
    have hempty : parse s = {} := if_pos (Nat.not_le.1 hlong)
    rw [hempty] at hfq
    exact absurd hfq (by decide)
  obtain ⟨hh, hn, hm, ht⟩ := isFullyQualified_iff.1 hfq
  rcases exists_cut 0x2f s with hno | ⟨before, last, rfl, hlast⟩
  · -- a text of one component has no host
    refine absurd ?_ hh.ne_nil
    by_cases hcolon : 0x3a ∈ s
    · obtain ⟨m, rest, rfl, hmcolon⟩ := List.eq_append_cons_of_mem hcolon
      have hm' : ∀ b ∈ m, b ≠ 0x2f ∧ b ≠ 0x3a :=
        fun b hb => ⟨fun hb' => hno (hb' ▸ List.mem_append_left _ hb), fun hb' => hmcolon (hb' ▸ hb)⟩
      rw [parse_single hm' (fun hb => hno (List.mem_append_right _ (List.mem_cons_of_mem _ hb))) hlen]
    · rw [parse_single_no_tag (fun b hb => ⟨fun hb' => hno (hb' ▸ hb), fun hb' => hcolon (hb' ▸ hb)⟩) hlen]
  · by_cases hcolon : 0x3a ∈ last
    · obtain ⟨m, rest, rfl, hmcolon⟩ := List.eq_append_cons_of_mem hcolon
      have hm' : ∀ b ∈ m, b ≠ 0x2f ∧ b ≠ 0x3a :=
        fun b hb => ⟨fun hb' => hlast (hb' ▸ List.mem_append_left _ hb), fun hb' => hmcolon (hb' ▸ hb)⟩
      have hrest : 0x2f ∉ rest := fun hb => hlast (List.mem_append_right _ (List.mem_cons_of_mem _ hb))
      rw [parse_component hm' hrest hlen] at hh hn hm ht
      dsimp only at hh hn hm ht
      rcases exists_cut 0x2f before with hone | ⟨h, n, rfl, hnslash⟩
      · rw [parents_none hone] at hh
        exact absurd rfl hh.ne_nil
      · rw [parents_cut hnslash] at hh hn
        have hassoc : h ++ 0x2f :: n ++ 0x2f :: (m ++ 0x3a :: rest) =
          h ++ 0x2f :: (n ++ 0x2f :: (m ++ 0x3a :: rest)) := by simp
        rw [hassoc] at hlen ⊢
        have hsplit : rest.takeWhile (· ≠ 0x3a) ++ rest.dropWhile (· ≠ 0x3a) = rest := List.takeWhile_append_dropWhile
        cases hdrop : rest.dropWhile (· ≠ 0x3a) with
        | nil =>
          rw [hdrop, List.append_nil] at hsplit
          rw [hsplit] at ht
          exact .inl ⟨h, n, m, rest, hh, hn, hm, ht, rfl⟩
        | cons c more =>
          have hc : c = 0x3a := by
            have hhead := List.head?_dropWhile_not (fun b : UInt8 => decide (b ≠ 0x3a)) rest
            rw [hdrop] at hhead
            simpa using hhead
          rw [hdrop, hc] at hsplit
          refine .inr ⟨_, more, ⟨h, n, m, _, hh, hn, hm, ht, rfl⟩, ?_, ?_, hlen⟩
          · intro hb
            apply hrest
            rw [← hsplit]
            exact List.mem_append_right _ (List.mem_cons_of_mem _ hb)
          · conv_lhs => rw [← hsplit]
            simp
    · rw [parse_component_no_tag (fun b hb => ⟨fun hb' => hlast (hb' ▸ hb), fun hb' => hcolon (hb' ▸ hb)⟩) hlen] at ht
      exact absurd rfl ht.ne_nil

/-! ## Paths -/

/-- A text of ASCII is its bytes. -/
theorem ofRunes_ascii {s : Bytes} (h : ∀ b ∈ s, b < 0x80) : ofRunes (s.map UInt8.toNat) = s := by
  induction s with
  | nil => rfl
  | cons b s ih =>
    have hb : b.toNat < 0x80 := by simpa [UInt8.lt_iff_toNat_lt] using h b List.mem_cons_self
    show encodeRune b.toNat ++ ofRunes (s.map UInt8.toNat) = b :: s
    rw [ih fun c hc => h c (List.mem_cons_of_mem _ hc), encodeRune, if_pos hb, UInt8.ofNat_toNat]
    rfl

theorem runes_ascii {s : Bytes} (h : ∀ b ∈ s, b < 0x80) : runes s = s.map UInt8.toNat := by
  conv_lhs => rw [← ofRunes_ascii h]
  refine runes_ofRunes fun r hr => ?_
  obtain ⟨b, hb, rfl⟩ := List.mem_map.1 hr
  have hlt : b.toNat < 0x80 := by simpa [UInt8.lt_iff_toNat_lt] using h b hb
  exact .inl (by omega)

/-- The last slash is found. -/
theorem colonFrom_append {before after : List Nat} (hbefore : before ≠ []) (hafter : 0x2f ∉ after) {i : Nat}
    (hle : before.length ≤ i) (hlt : i ≤ before.length + after.length) :
    colonFrom (before ++ 0x2f :: after) i = some (before ++ 0x3a :: after) := by
  induction i with
  | zero => exact absurd (List.length_eq_zero_iff.1 (Nat.le_zero.1 hle)) hbefore
  | succ i ih =>
    rw [colonFrom]
    by_cases heq : before.length = i + 1
    · rw [if_pos (by rw [← heq]; simp), ← heq, List.set_append_right _ _ (Nat.le_refl _), Nat.sub_self]
      rfl
    · rw [if_neg, ih (by omega) (by omega)]
      -- the rune is one of those behind the slash
      rw [List.getElem?_append_right (by omega), show i + 1 - before.length =
        (i - before.length) + 1 by omega, List.getElem?_cons_succ]
      intro hslash
      exact hafter (List.mem_of_getElem? hslash)

/-- The path of a name is turned into its text. -/
theorem pathToName_documented {h n m t : Bytes} (hh : Part.host.Matches h) (hn : Part.namespace_.Matches n)
    (hm : Part.model.Matches m) (ht : Part.tag.Matches t) :
    pathToName (ascii "manifests/" ++ join [h, n, m, t]) = h ++ 0x2f :: (n ++ 0x2f :: (m ++ 0x3a :: t)) := by
  have hjoin : join [h, n, m, t] = (h ++ 0x2f :: (n ++ 0x2f :: m)) ++ 0x2f :: t := by simp [join, List.intercalate]
  have hascii : ∀ b ∈ join [h, n, m, t], b < 0x80 := by
    rw [hjoin]
    intro b hb
    simp only [List.mem_append, List.mem_cons] at hb
    rcases hb with (hb | rfl | hb | rfl | hb) | rfl | hb
    · exact (hh.bytes b hb).1
    · decide
    · exact (hn.bytes b hb).1
    · decide
    · exact (hm.bytes b hb).1
    · decide
    · exact (ht.bytes b hb).1
  have htrim : (if (ascii "manifests/").isPrefixOf (ascii "manifests/" ++ join [h, n, m, t]) then
      (ascii "manifests/" ++ join [h, n, m, t]).drop 10 else ascii "manifests/" ++ join [h, n, m, t]) =
        join [h, n, m, t] := by
    rw [if_pos (List.isPrefixOf_iff_prefix.2 (List.prefix_append _ _))]
    exact List.drop_left' (by decide)
  have hslash : 0x2f ∉ t.map UInt8.toNat := by
    intro hb
    obtain ⟨b, hb, hb'⟩ := List.mem_map.1 hb
    exact ht.not_slash ((UInt8.toNat_inj.1 hb' : b = 0x2f) ▸ hb)
  have hrunes : (join [h, n, m, t]).map UInt8.toNat =
    (h ++ 0x2f :: (n ++ 0x2f :: m)).map UInt8.toNat ++ 0x2f :: t.map UInt8.toNat := by
    rw [hjoin, List.map_append, List.map_cons]
    rfl
  unfold pathToName
  rw [htrim]
  dsimp only
  have hlast : ((h ++ 0x2f :: (n ++ 0x2f :: m)).map UInt8.toNat ++ 0x2f :: t.map UInt8.toNat).length - 1 =
      ((h ++ 0x2f :: (n ++ 0x2f :: m)).map UInt8.toNat).length + (t.map UInt8.toNat).length := by
    rw [List.length_append, List.length_cons]
    omega
  rw [runes_ascii hascii, hrunes, hlast, colonFrom_append (by simp) hslash (Nat.le_add_right _ _) le_rfl]
  have hback : (h ++ 0x2f :: (n ++ 0x2f :: m)).map UInt8.toNat ++ 0x3a :: t.map UInt8.toNat =
      (h ++ 0x2f :: (n ++ 0x2f :: (m ++ 0x3a :: t))).map UInt8.toNat := by
    simp only [List.map_append, List.map_cons, List.append_assoc, List.cons_append]
    rfl
  dsimp only
  rw [hback]
  refine ofRunes_ascii fun b hb => ?_
  simp only [List.mem_append, List.mem_cons] at hb
  rcases hb with hb | rfl | hb | rfl | hb | rfl | hb
  · exact (hh.bytes b hb).1
  · decide
  · exact (hn.bytes b hb).1
  · decide
  · exact (hm.bytes b hb).1
  · decide
  · exact (ht.bytes b hb).1

/-- The text of a fully qualified name. -/
theorem string_documented {h n m t : Bytes} (hh : Part.host.Matches h) (hn : Part.namespace_.Matches n)
    (ht : Part.tag.Matches t) :
    Name.string ⟨h, n, m, t⟩ = h ++ 0x2f :: (n ++ 0x2f :: (m ++ 0x3a :: t)) := by
  unfold Name.string
  dsimp only
  rw [if_neg hh.ne_nil, if_neg hn.ne_nil, if_neg ht.ne_nil]
  simp

/-- The path of a fully qualified name. -/
theorem nameToPath_documented {h n m t : Bytes} (hh : Part.host.Matches h) (hn : Part.namespace_.Matches n)
    (hm : Part.model.Matches m) (ht : Part.tag.Matches t) :
    nameToPath (h ++ 0x2f :: (n ++ 0x2f :: (m ++ 0x3a :: t))) = .ok (join [h, n, m, t]) := by
  have hfq : (⟨h, n, m, t⟩ : Name).isFullyQualified = true := isFullyQualified_iff.2 ⟨hh, hn, hm, ht⟩
  have hat : 0x40 ∉ h ++ 0x2f :: (n ++ 0x2f :: (m ++ 0x3a :: t)) := by
    simp only [List.mem_append, List.mem_cons]
    rintro (hb | hb | hb | hb | hb | hb | hb)
    · exact (hh.bytes _ hb).2.2.1 rfl
    · exact absurd hb (by decide)
    · exact (hn.bytes _ hb).2.2.1 rfl
    · exact absurd hb (by decide)
    · exact (hm.bytes _ hb).2.2.1 rfl
    · exact absurd hb (by decide)
    · exact (ht.bytes _ hb).2.2.1 rfl
  unfold nameToPath
  rw [if_neg hat, parse_documented hh hn hm ht]
  exact if_pos hfq

end NamesAux

open NamesAux

/-- The promise is kept for a text unless a name of the grammar is followed, in it, by a colon and more. -/
theorem exact_iff (s : Bytes) : Exact s ↔ ¬Trailed s := by
  constructor
  · rintro hexact ⟨d, rest, ⟨h, n, m, t, hh, hn, hm, ht, rfl⟩, hrest, rfl, hlen⟩
    have hassoc : h ++ 0x2f :: (n ++ 0x2f :: (m ++ 0x3a :: t)) ++ 0x3a :: rest =
        h ++ 0x2f :: (n ++ 0x2f :: (m ++ 0x3a :: (t ++ 0x3a :: rest))) := by simp
    have hslash : 0x2f ∉ t ++ 0x3a :: rest := by
      intro hb
      rcases List.mem_append.1 hb with hb | hb
      · exact ht.not_slash hb
      · rcases List.mem_cons.1 hb with hb | hb
        · exact absurd hb (by decide)
        · exact hrest hb
    have htag : (t ++ 0x3a :: rest).takeWhile (· ≠ 0x3a) = t := by
      rw [List.takeWhile_append_of_pos, List.takeWhile_cons_of_neg (by decide), List.append_nil]
      intro b hb
      simpa using (ht.not_sep nofun b hb).2
    have hparse : parse (h ++ 0x2f :: (n ++ 0x2f :: (m ++ 0x3a :: t)) ++ 0x3a :: rest) = ⟨h, n, m, t⟩ := by
      rw [hassoc] at hlen ⊢
      rw [parse_qualified hn hm hslash hlen, htag]
    have hstring := hexact.string (by rw [hparse]; exact isFullyQualified_iff.2 ⟨hh, hn, hm, ht⟩)
    rw [hparse, string_documented hh hn ht] at hstring
    exact absurd (List.self_eq_append_right.1 hstring) nofun
  · intro hnot
    have hdocumented : (parse s).isFullyQualified = true → Documented s :=
      fun hfq => (documented_or_trailed hfq).resolve_right hnot
    refine ⟨?_, ?_, hdocumented, ?_⟩
    · intro hfq
      obtain ⟨h, n, m, t, hh, hn, hm, ht, rfl⟩ := hdocumented hfq
      rw [parse_documented hh hn hm ht, string_documented hh hn ht]
    · intro hfq
      obtain ⟨h, n, m, t, hh, hn, hm, ht, rfl⟩ := hdocumented hfq
      exact ⟨_, nameToPath_documented hh hn hm ht, pathToName_documented hh hn hm ht⟩
    · rintro ⟨h, n, m, t, hh, hn, hm, ht, rfl⟩
      rw [parse_documented hh hn hm ht]
      exact isFullyQualified_iff.2 ⟨hh, hn, hm, ht⟩

/-- A second tag is forgotten. -/
theorem not_exact_two_tags : (parse (ascii "registry.ollama.ai/library/m:a:b")).isFullyQualified = true ∧
    (parse (ascii "registry.ollama.ai/library/m:a:b")).string = ascii "registry.ollama.ai/library/m:a" ∧
    ¬Exact (ascii "registry.ollama.ai/library/m:a:b") := by
  have hfq : (parse (ascii "registry.ollama.ai/library/m:a:b")).isFullyQualified = true := by decide +kernel
  have hstring : (parse (ascii "registry.ollama.ai/library/m:a:b")).string =
    ascii "registry.ollama.ai/library/m:a" := by decide +kernel
  refine ⟨hfq, hstring, fun hexact => ?_⟩
  have heq := hexact.string hfq
  rw [hstring] at heq
  exact absurd heq (by decide +kernel)

end Ollama.Blob
