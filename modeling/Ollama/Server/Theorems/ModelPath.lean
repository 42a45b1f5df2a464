import Ollama.Blob.Theorems.Names
import Ollama.Client.Registry
import Ollama.Server.ModelPath
import Ollama.Types.Theorems.Name

/-!
# The parsers of model names agree

A text without a scheme that `ParseName` reads as a valid name has at most three components, and at most one colon in
the last (`shape`). The three parsers take the same parts from such a text, and the manifest of its name is the same
file for all of them (`parsers_agree`).
-/

namespace Ollama.Server

open Lib Names Ollama.Types Blob

namespace ModelPathAux

/-- What stands behind a model: nothing, or a tag. -/
def tagText : Option Bytes → Bytes
  | none => []
  | some t => 0x3a :: t

/-- The tag of a name that may be written with one. -/
def tagOf (t : Option Bytes) : Bytes := t.getD defaultName.tag

/-- A text and the name that it is read as, by the components that it has. -/
inductive Shape : Bytes → Types.Name → Prop where
  | model {m : Bytes} {t : Option Bytes} : Part.model.Matches m → (∀ x ∈ t, Part.tag.Matches x) →
      Shape (m ++ tagText t) ⟨defaultName.host, defaultName.namespace_, m, tagOf t⟩
  | namespace_ {n m : Bytes} {t : Option Bytes} : Part.namespace_.Matches n → Part.model.Matches m →
      (∀ x ∈ t, Part.tag.Matches x) → Shape (n ++ 0x2f :: (m ++ tagText t)) ⟨defaultName.host, n, m, tagOf t⟩
  | host {h n m : Bytes} {t : Option Bytes} : Part.host.Matches h → Part.namespace_.Matches n → Part.model.Matches m →
      (∀ x ∈ t, Part.tag.Matches x) → Shape (h ++ 0x2f :: (n ++ 0x2f :: (m ++ tagText t))) ⟨h, n, m, tagOf t⟩

/-! ## `ParseName` -/

/-- A host is behind no scheme where the text has none. -/
theorem cutScheme_eq {x : Bytes} (h : ¬ascii "://" <:+: x) :
    cutScheme (Types.or x missingPart) = Types.or x missingPart := by
  rcases cutScheme_cases (Types.or x missingPart) with ⟨heq, _⟩ | ⟨scheme, heq⟩
  · exact heq
  · have hoccurs : ascii "://" <:+: Types.or x missingPart := ⟨scheme, _, heq.symm⟩
    unfold Types.or at hoccurs
    split at hoccurs
    · exact absurd hoccurs (by decide)
    · exact absurd hoccurs h

/-- The text before the tag, and the name that is read from it. -/
theorem parts_shape {s tag : Bytes} {t : Option Bytes} (hscheme : ¬ascii "://" <:+: s)
    (htag : Types.or tag defaultName.tag = tagOf t) (ht : ∀ x ∈ t, Part.tag.Matches x)
    (hvalid : (Types.merge (parseParts s tag) defaultName).isFullyQualified = true) :
    Shape (s ++ tagText t) (Types.merge (parseParts s tag) defaultName) := by
  obtain ⟨hh, hn, hm, _⟩ := Types.isFullyQualified_iff.1 hvalid
  rcases parseParts_cases s tag with ⟨_, heq⟩ | ⟨n, m, rfl, _, _, heq⟩ | ⟨x, n, m, rfl, _, _, heq⟩
  · rw [heq, Types.merge] at hm ⊢
    dsimp only at hm ⊢
    rw [htag]
    exact .model hm ht
  · rw [heq, Types.merge] at hn hm ⊢
    dsimp only at hn hm ⊢
    rw [or_of_ne_nil (or_ne_nil (by decide))] at hn ⊢
    have hn' := or_missingPart hn
    have hm' := or_missingPart hm
    rw [hn'] at hn ⊢
    rw [hm'] at hm ⊢
    have hassoc : n ++ 0x2f :: m ++ tagText t = n ++ 0x2f :: (m ++ tagText t) := by simp
    rw [htag, hassoc]
    exact .namespace_ hn hm ht
  · have hx : ¬ascii "://" <:+: x := fun hoccurs => hscheme (hoccurs.trans ⟨[], _, rfl⟩)
    rw [heq, Types.merge] at hh hn hm ⊢
    dsimp only at hh hn hm ⊢
    rw [cutScheme_eq hx, or_of_ne_nil (or_ne_nil (by decide))] at hh ⊢
    rw [or_of_ne_nil (or_ne_nil (by decide))] at hn ⊢
    have hh' := or_missingPart hh
    have hn' := or_missingPart hn
    have hm' := or_missingPart hm
    rw [hh'] at hh ⊢
    rw [hn'] at hn ⊢
    rw [hm'] at hm ⊢
    have hassoc : x ++ 0x2f :: (n ++ 0x2f :: m) ++ tagText t = x ++ 0x2f :: (n ++ 0x2f :: (m ++ tagText t)) := by simp
    rw [htag, hassoc]
    exact .host hh hn hm ht

/-- A text without a scheme that is read as a valid name. -/
theorem shape {s : Bytes} (hscheme : ¬ascii "://" <:+: s) (hvalid : (parseName s).isValid = true) :
    Shape s (parseName s) := by
  have hvalid : (parseName s).isFullyQualified = true := hvalid
  unfold parseName at hvalid ⊢
  rcases parseNameBare_cases s with ⟨s', t, rfl, _, _, hparse⟩ | hparse
  · rw [hparse] at hvalid ⊢
    obtain ⟨_, _, hm, ht⟩ := Types.isFullyQualified_iff.1 hvalid
    have hne : s' ≠ [] := by
      rintro rfl
      rw [show Types.or [] missingPart = missingPart from rfl, parseParts_model (by decide)] at hm
      exact missingPart_not_matches .model hm
    have hparts : (Types.merge (parseParts (Types.or s' missingPart) (Types.or t missingPart)) defaultName).tag =
        Types.or t missingPart := by
      rcases parseParts_cases (Types.or s' missingPart) (Types.or t missingPart) with
        ⟨_, heq⟩ | ⟨_, _, _, _, _, heq⟩ | ⟨_, _, _, _, _, _, heq⟩
      · rw [heq]
        exact or_of_ne_nil (or_ne_nil (by decide))
      · rw [heq]
        exact or_of_ne_nil (or_ne_nil (by decide))
      · rw [heq]
        exact or_of_ne_nil (or_ne_nil (by decide))
    rw [hparts] at ht
    have ht' := or_missingPart ht
    rw [ht', or_of_ne_nil hne] at hvalid ⊢
    rw [ht'] at ht
    refine parts_shape (t := some t) (fun hoccurs => hscheme (hoccurs.trans ⟨[], _, rfl⟩))
      (or_of_ne_nil ht.ne_nil) ?_ hvalid
    rintro x ⟨⟩
    exact ht
  · rw [hparse] at hvalid ⊢
    have hshape := parts_shape (t := none) hscheme rfl nofun hvalid
    rwa [show s ++ tagText none = s from List.append_nil s] at hshape

/-! ## `ParseModelPath` -/

/-- A tag's text has no slash. -/
theorem tagText_not_slash {t : Option Bytes} (ht : ∀ x ∈ t, Part.tag.Matches x) : 0x2f ∉ tagText t := by
  cases t with
  | none => nofun
  | some t =>
    intro hb
    rcases List.mem_cons.1 hb with hb | hb
    · exact absurd hb (by decide)
    · exact (ht t rfl).not_slash hb

/-- The last component has no slash. -/
theorem last_not_slash {m : Bytes} {t : Option Bytes} (hm : Part.model.Matches m) (ht : ∀ x ∈ t, Part.tag.Matches x) :
    0x2f ∉ m ++ tagText t := by
  intro hb
  rcases List.mem_append.1 hb with hb | hb
  · exact hm.not_slash hb
  · exact tagText_not_slash ht hb

/-- The last component is cut at its first colon. -/
theorem index_colon {m : Bytes} (hm : Part.model.Matches m) (t : Option Bytes) :
    index [0x3a] (m ++ tagText t) = t.map (fun _ => m.length) := by
  have hnot : ¬[(0x3a : UInt8)] <:+: m := by
    rintro ⟨a, b, hab⟩
    exact (hm.not_sep nofun 0x3a (by rw [← hab]; simp)).2 rfl
  cases t with
  | none =>
    rw [show m ++ tagText none = m from List.append_nil m, index_eq_none_iff.2 hnot]
    rfl
  | some t =>
    have hend : ∀ u v : Bytes, [0x3a] = u ++ v → u ≠ [] → ¬u <:+ m := by
      intro u v huv hu hsuffix
      obtain ⟨c, u', rfl⟩ := List.exists_cons_of_ne_nil hu
      have hc : c = 0x3a := (List.cons.inj huv).1.symm
      exact (hm.not_sep nofun c (hsuffix.subset List.mem_cons_self)).2 hc
    rw [index_append hnot hend]
    rfl

/-- The model and the tag of the last component. -/
theorem repository_eq {m : Bytes} {t : Option Bytes} (hm : Part.model.Matches m) (scheme registry namespace_ : Bytes) :
    (match index [0x3a] (m ++ tagText t) with
      | none => (⟨scheme, registry, namespace_, m ++ tagText t, defaultName.tag⟩ : ModelPath)
      | some i => ⟨scheme, registry, namespace_, (m ++ tagText t).take i, (m ++ tagText t).drop (i + 1)⟩) =
      ⟨scheme, registry, namespace_, m, tagOf t⟩ := by
  rw [index_colon hm]
  cases t with
  | none =>
    show (⟨scheme, registry, namespace_, m ++ [], defaultName.tag⟩ : ModelPath) = _
    rw [List.append_nil]
    rfl
  | some t =>
    have htake : (m ++ 0x3a :: t).take m.length = m := List.take_left
    have hdrop : (m ++ 0x3a :: t).drop (m.length + 1) = t := by
      rw [← List.drop_drop, List.drop_left]
      rfl
    show (⟨scheme, registry, namespace_, (m ++ 0x3a :: t).take m.length, (m ++ 0x3a :: t).drop (m.length + 1)⟩ :
      ModelPath) = _
    rw [htake, hdrop]
    rfl

/-- `ParseModelPath` takes the same parts. -/
theorem parseModelPath_shape {s : Bytes} {n : Types.Name} (hscheme : ¬ascii "://" <:+: s) (h : Shape s n) :
    parseModelPath s = ⟨ascii "https", n.host, n.namespace_, n.model, n.tag⟩ := by
  unfold parseModelPath
  rw [index_eq_none_iff.2 hscheme]
  dsimp only
  cases h with
  | model hm ht =>
    rw [components_of_not_mem (last_not_slash hm ht)]
    exact repository_eq hm _ _ _
  | namespace_ hn hm ht =>
    rw [components_append hn.not_slash, components_of_not_mem (last_not_slash hm ht)]
    exact repository_eq hm _ _ _
  | host hh hn hm ht =>
    rw [components_append hh.not_slash, components_append hn.not_slash, components_of_not_mem (last_not_slash hm ht)]
    exact repository_eq hm _ _ _

/-! ## `Parse` -/

/-- The registry client takes the parts that are there. -/
theorem parse_last {m : Bytes} {t : Option Bytes} (hm : Part.model.Matches m) (ht : ∀ x ∈ t, Part.tag.Matches x)
    (before : Bytes) (hlen : (before ++ 0x2f :: (m ++ tagText t)).length ≤ maxNameLength) :
    parse (before ++ 0x2f :: (m ++ tagText t)) = ⟨(parents before).1, (parents before).2, m, t.getD []⟩ := by
  cases t with
  | none =>
    rw [show m ++ tagText none = m from List.append_nil m] at hlen ⊢
    exact parse_component_no_tag (hm.not_sep nofun) hlen
  | some t =>
    have htag := ht t rfl
    rw [show tagText (some t) = 0x3a :: t from rfl] at hlen ⊢
    rw [parse_component (hm.not_sep nofun) htag.not_slash hlen,
      NamesAux.takeWhile_tag fun b hb => (htag.not_sep nofun b hb).2]
    rfl

/-- The length of what stands behind a model. -/
theorem length_tagText {t : Option Bytes} (ht : ∀ x ∈ t, Part.tag.Matches x) : (tagText t).length ≤ 81 := by
  cases t with
  | none => decide
  | some t =>
    have hlen := NamesAux.length_le (ht t rfl)
    simp only [Part.maxLength] at hlen
    simp only [tagText, List.length_cons]
    omega

/-- The mask of the registry client has the defaults of the other parsers. -/
theorem defaultMask_eq : Client.defaultMask = ⟨defaultName.host, defaultName.namespace_, [0x5f], defaultName.tag⟩ :=
  by decide +kernel

/-- The tag that the mask gives to a text without one. -/
theorem merge_tag {t : Option Bytes} (ht : ∀ x ∈ t, Part.tag.Matches x) :
    (if t.getD [] = [] then defaultName.tag else t.getD []) = tagOf t := by
  cases t with
  | none => rfl
  | some t => exact if_neg (ht t rfl).ne_nil

/-- The registry client takes the same parts. -/
theorem merge_parse_shape {s : Bytes} {n : Types.Name} (h : Shape s n) :
    Names.merge (parse s) Client.defaultMask = ⟨n.host, n.namespace_, n.model, n.tag⟩ := by
  rw [defaultMask_eq]
  cases h with
  | @model m t hm ht =>
    have hparse : parse (m ++ tagText t) = ⟨[], [], m, t.getD []⟩ := by
      have hkind : Names.Part.model ≠ .host := fun h => by cases h
      have hlen : (m ++ tagText t).length ≤ maxNameLength := by
        have hm' := NamesAux.length_le hm
        have ht' := length_tagText ht
        simp only [Part.maxLength] at hm'
        simp only [List.length_append, maxNameLength]
        omega
      cases t with
      | none =>
        rw [show m ++ tagText none = m from List.append_nil m] at hlen ⊢
        exact parse_single_no_tag (hm.not_sep hkind) hlen
      | some t =>
        have htag := ht t rfl
        rw [show tagText (some t) = 0x3a :: t from rfl] at hlen ⊢
        rw [parse_single (hm.not_sep hkind) htag.not_slash hlen,
          NamesAux.takeWhile_tag (fun b hb => (htag.not_sep (fun h => by cases h) b hb).2)]
        rfl
    rw [hparse, Names.merge]
    dsimp only
    rw [if_pos rfl, if_pos rfl, merge_tag ht]
  | @namespace_ n m t hn hm ht =>
    have hlen : (n ++ 0x2f :: (m ++ tagText t)).length ≤ maxNameLength := by
      have hn' := NamesAux.length_le hn
      have hm' := NamesAux.length_le hm
      have ht' := length_tagText ht
      simp only [Part.maxLength] at hn' hm'
      simp only [List.length_append, List.length_cons, maxNameLength]
      omega
    rw [parse_last hm ht n hlen, parents_none hn.not_slash, Names.merge]
    dsimp only
    rw [if_pos rfl, if_neg hn.ne_nil, merge_tag ht]
  | @host h n m t hh hn hm ht =>
    have hlen : (h ++ 0x2f :: (n ++ 0x2f :: (m ++ tagText t))).length ≤ maxNameLength := by
      have hh' := NamesAux.length_le hh
      have hn' := NamesAux.length_le hn
      have hm' := NamesAux.length_le hm
      have ht' := length_tagText ht
      simp only [Part.maxLength] at hh' hn' hm'
      simp only [List.length_append, List.length_cons, maxNameLength]
      omega
    have hassoc : h ++ 0x2f :: (n ++ 0x2f :: (m ++ tagText t)) = (h ++ 0x2f :: n) ++ 0x2f :: (m ++ tagText t) := by simp
    rw [hassoc] at hlen ⊢
    rw [parse_last hm ht _ hlen, parents_cut hn.not_slash, Names.merge]
    dsimp only
    rw [if_neg hh.ne_nil, if_neg hn.ne_nil, merge_tag ht]

end ModelPathAux

open ModelPathAux

/-- What the three parsers make of a text whose name is valid for `ParseName`: the others accept it, find the same
parts, and look for its manifest in the same place below the directory of models. -/
theorem parsers_agree {s : Bytes} (hscheme : ¬ascii "://" <:+: s) (hvalid : (parseName s).isValid = true)
    (models : Bytes) :
    ∃ path, (parseName s).filepath = some path ∧
      (parseModelPath s).getManifestPath models = some (joinPath [models, ascii "manifests", path]) ∧
      (Names.merge (parse s) Client.defaultMask).isFullyQualified = true ∧
      nameToPath (Names.merge (parse s) Client.defaultMask).string = .ok path ∧
      ((parseModelPath s).registry = (parseName s).host ∧ (parseModelPath s).namespace_ = (parseName s).namespace_ ∧
        (parseModelPath s).repository = (parseName s).model ∧ (parseModelPath s).tag = (parseName s).tag) ∧
      (Names.merge (parse s) Client.defaultMask).h = (parseName s).host ∧
      (Names.merge (parse s) Client.defaultMask).n = (parseName s).namespace_ ∧
      (Names.merge (parse s) Client.defaultMask).m = (parseName s).model ∧
        (Names.merge (parse s) Client.defaultMask).t = (parseName s).tag := by
  have hshape := shape hscheme hvalid
  rw [parseModelPath_shape hscheme hshape, merge_parse_shape hshape]
  obtain ⟨hh, hn, hm, ht⟩ := Types.isFullyQualified_iff.1 hvalid
  obtain ⟨hpath, _, _⟩ := NameAux.filepath_eq hh hn hm ht
  refine ⟨_, hpath, ?_, Names.isFullyQualified_iff.2 ⟨hh, hn, hm, ht⟩, ?_, ⟨rfl, rfl, rfl, rfl⟩, rfl, rfl, rfl, rfl⟩
  · unfold ModelPath.getManifestPath
    rw [if_neg (not_not.2 hvalid), hpath]
    rfl
  · rw [NamesAux.string_documented hh hn ht, NamesAux.nameToPath_documented hh hn hm ht]
    rfl

/-- `localhost:80/a/b` has the tag `latest` for all of them. -/
theorem parsers_agree_localhost :
    (parseModelPath (ascii "localhost:80/a/b")).tag = ascii "latest" ∧ ∃ path,
      (parseName (ascii "localhost:80/a/b")).filepath = some path ∧
      (parseModelPath (ascii "localhost:80/a/b")).getManifestPath (ascii "/models") =
        some (joinPath [ascii "/models", ascii "manifests", path]) := by
  have hscheme : ¬ascii "://" <:+: ascii "localhost:80/a/b" := by
    rw [← index_eq_none_iff]
    decide +kernel
  obtain ⟨path, hpath, hfile, _⟩ := parsers_agree hscheme (by decide +kernel) (ascii "/models")
  exact ⟨by decide +kernel, path, hpath, hfile⟩

end Ollama.Server
