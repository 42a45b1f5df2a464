import Ollama.Types.Lemmas.Parse

/-!
# Model names and their texts

A valid name is read back from each of its texts: the whole one, its file path, and the shortest one, but for letter
case. And a text that is read as a valid name is the name's whole text, behind a scheme or not.
-/

namespace Ollama.Types

open Lib Names

/-- What is promised of a valid name. -/
structure RoundTrips (n : Name) : Prop where
  string : parseNameBare n.string = n
  filepath : ∃ p, n.filepath = some p ∧ (components p).length = 4 ∧
    (∀ c ∈ components p, c ≠ [] ∧ c ≠ ascii "." ∧ c ≠ ascii "..") ∧ parseNameFromFilepath p = n
  display : (parseName n.displayShortest).isValid = true ∧ (parseName n.displayShortest).equalFold n = true

/-- A text is the whole text of the name that it is read as, or a scheme stands before it. -/
def Reprints (s : Bytes) : Prop :=
  s = (parseNameBare s).string ∨ ∃ scheme, s = scheme ++ ascii "://" ++ (parseNameBare s).string

namespace NameAux

/-- The whole text of a name. -/
theorem string_qualified {h n m t : Bytes} (hh : h ≠ []) (hn : n ≠ []) (ht : t ≠ []) :
    Name.string ⟨h, n, m, t⟩ = h ++ 0x2f :: (n ++ 0x2f :: (m ++ 0x3a :: t)) := by
  unfold Name.string
  dsimp only
  rw [if_pos hh, if_pos hn, if_pos ht]
  simp

theorem parse_qualified {h n m t : Bytes} (hh : Part.host.Matches h) (hn : Part.namespace_.Matches n)
    (hm : Part.model.Matches m) (ht : Part.tag.Matches t) :
    parseNameBare (h ++ 0x2f :: (n ++ 0x2f :: (m ++ 0x3a :: t))) = ⟨h, n, m, t⟩ := by
  have hassoc : h ++ 0x2f :: (n ++ 0x2f :: (m ++ 0x3a :: t)) = (h ++ 0x2f :: (n ++ 0x2f :: m)) ++ 0x3a :: t := by simp
  rw [hassoc, parseNameBare_tag (fun hb => (ht.not_sep nofun _ hb).2 rfl) ht.not_slash, or_of_ne_nil (by simp),
    or_of_ne_nil ht.ne_nil,
    parseParts_host hn.not_slash hm.not_slash, or_of_ne_nil hh.ne_nil, or_of_ne_nil hn.ne_nil, or_of_ne_nil hm.ne_nil,
    cutScheme_of_not_mem hh.not_slash]

/-- What is made of a text without a host. -/
theorem parse_namespace {n m t : Bytes} (hn : Part.namespace_.Matches n) (hm : Part.model.Matches m)
    (ht : Part.tag.Matches t) :
    parseNameBare (n ++ 0x2f :: (m ++ 0x3a :: t)) = ⟨[], n, m, t⟩ := by
  have hassoc : n ++ 0x2f :: (m ++ 0x3a :: t) = (n ++ 0x2f :: m) ++ 0x3a :: t := by simp
  rw [hassoc, parseNameBare_tag (fun hb => (ht.not_sep nofun _ hb).2 rfl) ht.not_slash, or_of_ne_nil (by simp),
    or_of_ne_nil ht.ne_nil,
    parseParts_namespace hn.not_slash hm.not_slash, or_of_ne_nil hn.ne_nil, or_of_ne_nil hm.ne_nil]

/-- What is made of a text without a host and a namespace. -/
theorem parse_model {m t : Bytes} (hm : Part.model.Matches m) (ht : Part.tag.Matches t) :
    parseNameBare (m ++ 0x3a :: t) = ⟨[], [], m, t⟩ := by
  rw [parseNameBare_tag (fun hb => (ht.not_sep nofun _ hb).2 rfl) ht.not_slash, or_of_ne_nil hm.ne_nil,
    or_of_ne_nil ht.ne_nil, parseParts_model hm.not_slash]

/-- A part names something in the directory before it. -/
theorem plain_of_matches {kind : Part} {s : Bytes} (h : kind.Matches s) : Plain s := by
  refine ⟨h.ne_nil, h.not_slash, ?_, ?_⟩
  · rintro rfl
    obtain ⟨c, rest, heq, hc, _⟩ := h
    rw [← (List.cons.inj heq).1] at hc
    exact absurd hc (by decide)
  · rintro rfl
    obtain ⟨c, rest, heq, hc, _⟩ := h
    rw [← (List.cons.inj heq).1] at hc
    exact absurd hc (by decide)

/-- The path of a valid name. -/
theorem filepath_eq {h n m t : Bytes} (hh : Part.host.Matches h) (hn : Part.namespace_.Matches n)
    (hm : Part.model.Matches m) (ht : Part.tag.Matches t) :
    Name.filepath ⟨h, n, m, t⟩ = some (ofComponents [h, n, m, t]) ∧
      components (ofComponents [h, n, m, t]) = [h, n, m, t] ∧ ∀ c ∈ [h, n, m, t], Plain c := by
  have hplain : ∀ c ∈ [h, n, m, t], Plain c := by
    intro c hc
    simp only [List.mem_cons, List.not_mem_nil, or_false] at hc
    rcases hc with rfl | rfl | rfl | rfl
    · exact plain_of_matches hh
    · exact plain_of_matches hn
    · exact plain_of_matches hm
    · exact plain_of_matches ht
  have hvalid : Name.isFullyQualified ⟨h, n, m, t⟩ = true := isFullyQualified_iff.2 ⟨hh, hn, hm, ht⟩
  refine ⟨?_, components_ofComponents (fun c hc => (hplain c hc).2.1) nofun, hplain⟩
  unfold Name.filepath
  rw [if_pos hvalid, joinPath_plain hplain nofun]

/-- The defaults are valid. -/
theorem default_matches : Part.host.Matches defaultName.host ∧ Part.namespace_.Matches defaultName.namespace_ ∧
    Part.tag.Matches defaultName.tag := by
  rw [← isValidPart_iff, ← isValidPart_iff, ← isValidPart_iff]
  decide

/-- The shortest text of a valid name is read as the name, with the letters of the defaults. -/
theorem display_round_trips {h n m t : Bytes} (hh : Part.host.Matches h) (hn : Part.namespace_.Matches n)
    (hm : Part.model.Matches m) (ht : Part.tag.Matches t) :
    (parseName (Name.displayShortest ⟨h, n, m, t⟩)).isValid = true ∧
      (parseName (Name.displayShortest ⟨h, n, m, t⟩)).equalFold ⟨h, n, m, t⟩ = true := by
  obtain ⟨hhost, hnamespace, _⟩ := default_matches
  have hfold : ∀ {h' n' : Bytes}, Part.host.Matches h' → Part.namespace_.Matches n' → Names.equalFold h' h = true →
      Names.equalFold n' n = true → Name.isValid ⟨h', n', m, t⟩ = true ∧
      Name.equalFold ⟨h', n', m, t⟩ ⟨h, n, m, t⟩ = true := by
    intro h' n' hh' hn' hhf hnf
    refine ⟨isFullyQualified_iff.2 ⟨hh', hn', hm, ht⟩, ?_⟩
    simp only [Name.equalFold, hhf, hnf, equalFold_refl, Bool.and_self]
  by_cases hhf : Names.equalFold h defaultName.host = true
  · by_cases hnf : Names.equalFold n defaultName.namespace_ = true
    · have htext : Name.displayShortest ⟨h, n, m, t⟩ = m ++ 0x3a :: t := by
        unfold Name.displayShortest
        dsimp only
        rw [if_neg (not_not.2 hhf), if_neg (not_not.2 hnf)]
        rfl
      rw [htext, parseName, parse_model hm ht, merge]
      dsimp only
      rw [or_of_ne_nil ht.ne_nil]
      exact hfold hhost hnamespace (equalFold_symm hhf) (equalFold_symm hnf)
    · have htext : Name.displayShortest ⟨h, n, m, t⟩ = n ++ 0x2f :: (m ++ 0x3a :: t) := by
        unfold Name.displayShortest
        dsimp only
        rw [if_neg (not_not.2 hhf), if_pos hnf]
        simp
      rw [htext, parseName, parse_namespace hn hm ht, merge]
      dsimp only
      rw [or_of_ne_nil hn.ne_nil, or_of_ne_nil ht.ne_nil]
      exact hfold hhost hn (equalFold_symm hhf) (equalFold_refl n)
  · have htext : Name.displayShortest ⟨h, n, m, t⟩ = h ++ 0x2f :: (n ++ 0x2f :: (m ++ 0x3a :: t)) := by
      unfold Name.displayShortest
      dsimp only
      rw [if_pos hhf]
      simp
    rw [htext, parseName, parse_qualified hh hn hm ht, merge]
    dsimp only
    rw [or_of_ne_nil hh.ne_nil, or_of_ne_nil hn.ne_nil, or_of_ne_nil ht.ne_nil]
    exact hfold hh hn (equalFold_refl h) (equalFold_refl n)

theorem roundTrips {n : Name} (hn : n.isFullyQualified = true) : RoundTrips n := by
  obtain ⟨h, ns, m, t⟩ := n
  obtain ⟨hh, hns, hm, ht⟩ := isFullyQualified_iff.1 hn
  dsimp only at hh hns hm ht
  refine ⟨?_, ?_, display_round_trips hh hns hm ht⟩
  · rw [string_qualified hh.ne_nil hns.ne_nil ht.ne_nil, parse_qualified hh hns hm ht]
  · obtain ⟨hpath, hcomponents, hplain⟩ := filepath_eq hh hns hm ht
    refine ⟨_, hpath, by rw [hcomponents]; rfl, ?_, ?_⟩
    · rw [hcomponents]
      intro c hc
      obtain ⟨hne, _, hdots⟩ := hplain c hc
      exact ⟨hne, hdots⟩
    · unfold parseNameFromFilepath
      rw [hcomponents]
      exact if_pos hn

theorem reprints {s : Bytes} (h : (parseNameBare s).isFullyQualified = true) : Reprints s := by
  obtain ⟨hh, hn, hm, ht⟩ := isFullyQualified_iff.1 h
  rcases parseNameBare_cases s with ⟨s', t, rfl, _, _, hparse⟩ | hparse
  · unfold Reprints
    rw [hparse] at hh hn hm ht ⊢
    rcases parseParts_cases (or s' missingPart) (or t missingPart) with ⟨_, heq⟩ | ⟨_, _, _, _, _, heq⟩ |
      ⟨x, n, m, hs, _, _, heq⟩
    · rw [heq] at hh
      exact absurd rfl hh.ne_nil
    · rw [heq] at hh
      exact absurd rfl hh.ne_nil
    · rw [heq] at hh hn hm ht ⊢
      dsimp only at hh hn hm ht
      have hs' : or s' missingPart = s' := by
        -- the text for a part that is missing has no slash
        unfold or at hs ⊢
        split at hs
        · exfalso
          have hslash : (0x2f : UInt8) ∈ missingPart := by
            rw [hs]
            simp
          exact absurd hslash (by decide)
        · exact if_neg ‹_›
      rw [hs'] at hs
      have hn' := or_missingPart hn
      have hm' := or_missingPart hm
      have ht' := or_missingPart ht
      rw [hn'] at hn ⊢
      rw [hm'] at hm ⊢
      rw [ht'] at ht ⊢
      rw [string_qualified hh.ne_nil hn.ne_nil ht.ne_nil, hs]
      have hx : or x missingPart = x := by
        by_cases hx : x = []
        · rw [hx] at hh
          exact absurd hh (missingPart_not_matches .host)
        · exact or_of_ne_nil hx
      rw [hx]
      rcases cutScheme_cases x with ⟨hcut, _⟩ | ⟨scheme, hcut⟩
      · rw [hcut]
        exact .inl (by simp)
      · refine .inr ⟨scheme, ?_⟩
        conv_lhs => rw [hcut]
        simp
  · -- without a colon behind the last slash there is no tag
    rw [hparse] at ht
    rcases parseParts_cases s [] with ⟨_, heq⟩ | ⟨_, _, _, _, _, heq⟩ | ⟨_, _, _, _, _, _, heq⟩
    · rw [heq] at ht
      exact absurd rfl ht.ne_nil
    · rw [heq] at ht
      exact absurd rfl ht.ne_nil
    · rw [heq] at ht
      exact absurd rfl ht.ne_nil

end NameAux

/-- A valid name is read back from each of its texts, and a text that is read as a valid name is its whole text. -/
theorem name_round_trips :
    (∀ n : Name, n.isFullyQualified = true → RoundTrips n) ∧ ∀ s, (parseNameBare s).isFullyQualified = true →
      Reprints s :=
  ⟨fun _ hn => NameAux.roundTrips hn, fun _ hs => NameAux.reprints hs⟩

/-- The name `localhost:80/a/b:c`, and its text behind a scheme. -/
theorem name_round_trips_localhost :
    RoundTrips ⟨ascii "localhost:80", ascii "a", ascii "b", ascii "c"⟩ ∧ Reprints (ascii "http://localhost:80/a/b:c") :=
  ⟨name_round_trips.1 ⟨ascii "localhost:80", ascii "a", ascii "b", ascii "c"⟩ (by decide),
    name_round_trips.2 (ascii "http://localhost:80/a/b:c") (by decide +kernel)⟩

end Ollama.Types
