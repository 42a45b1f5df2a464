import Mathlib.Data.List.Sublists
import Ollama.Llama.Lemmas.Sequence
import Ollama.Llama.Theorems.Language

/-!
# What is parsed

The parser answers on every text, and the rules that it makes are well-formed (`parse_wellFormed`). They derive for
each name exactly what the text says of it (`parse_means`), so what is generated under a text is what the text says
(`generation_text`).
-/

namespace Ollama.Llama

open Lib

variable {n rounds depth id : Nat} {elems : List Element} {prev : GreType} {rule : Rule} {p p' : Parser}
  {src name : Bytes} {u w : List Nat}
  {named : Bytes → List Nat → Prop} {g : List (Bytes × List (List Item))}

/-! ## Definitions -/

/-- A rule of the text, as the parser has it. -/
def Defines (p : Parser) (name : Bytes) (alternates : List (List Item)) : Prop :=
  0x5F ∉ name ∧ ∃ id, p.symbolIds.lookup name = some id ∧ RuleMeans p (p.ruleAt id) alternates

/-- A name of the text has a rule. -/
def HasRule (p : Parser) (name : Bytes) : Prop :=
  0x5F ∉ name ∧ ∃ id, p.symbolIds.lookup name = some id ∧ p.ruleAt id ≠ []

/-- An id has one name. -/
theorem Parser.Ok.name_unique (h : p.Ok) {e e' : Bytes × Nat} (he : e ∈ p.symbolIds) (he' : e' ∈ p.symbolIds)
    (heq : e.2 = e'.2) : e = e' := by
  have hnodup : (p.symbolIds.map Prod.snd).Nodup := by
    rw [h.ids]
    exact List.nodup_range
  exact List.inj_on_of_nodup_map hnodup he he' heq

/-- Every id has a name. -/
theorem Parser.Ok.exists_name (h : p.Ok) (hid : id < p.symbolIds.length) : ∃ name, (name, id) ∈ p.symbolIds := by
  have hmem : id ∈ p.symbolIds.map Prod.snd := by
    rw [h.ids]
    exact List.mem_range.2 hid
  obtain ⟨⟨name, _⟩, he, rfl⟩ := List.mem_map.1 hmem
  exact ⟨name, he⟩

/-- The id of a name of the text is not generated. -/
theorem Parser.Ok.not_generated (h : p.Ok) (hname : 0x5F ∉ name) (he : (name, id) ∈ p.symbolIds) : ¬p.Generated id := by
  rintro ⟨e, he', hunderscore, heq⟩
  rw [h.name_unique he' he heq] at hunderscore
  exact hname hunderscore

/-- Definitions are parsed: names are added, and generated rules are kept. -/
structure Extends (p p' : Parser) : Prop where
  ok : p'.Ok
  ids : p.symbolIds <+: p'.symbolIds
  becomes : ∀ q, Becomes p' q → Becomes p q

/-- Passing over a line end leaves no more text than there was. -/
theorem parseNewline_spec (src : Bytes) : Gives (fun out => out.length ≤ src.length) (parseNewline src) := by
  cases src with
  | nil => exact Nat.le_refl 0
  | cons c src =>
    rw [parseNewline]
    split
    · split
      · exact (List.tail_sublist src).length_le.trans (Nat.le_succ _)
      · exact Nat.le_succ _
    split
    · exact Nat.le_succ _
    · exact rfl

/-- A definition is parsed: the name is defined, and others are as before. -/
theorem parseRule_spec (hdepth : src.length < depth) (h : p.Ok) :
    Gives (fun out => out.1.length < src.length ∧ Extends p out.2 ∧ ∃ name alternates,
        (∀ g, Definitions out.1 g → Definitions src ((name, alternates) :: g)) ∧ Defines out.2 name alternates ∧
        ∀ name', name' ≠ name → (∀ alternates', Defines p name' alternates' → Defines out.2 name' alternates') ∧
          (HasRule out.2 name' → HasRule p name'))
      (parseRule depth src p) := by
  rw [parseRule]
  refine (parseName_spec src).and_eq.bind ?_
  rintro ⟨name, src₁⟩ ⟨hparse, hname, hlt⟩
  dsimp only at hparse hname hlt
  obtain ⟨hgrows, hid⟩ := getSymbolId_spec h hname
  dsimp only
  generalize p.getSymbolId name = out at hgrows hid
  obtain ⟨ruleId, p₁⟩ := out
  dsimp only at hgrows hid ⊢
  by_cases htake : (parseSpace false src₁).take 3 = [0x3A, 0x3A, 0x3D]
  · rw [if_pos htake]
    have hdef : parseSpace false src₁ = [0x3A, 0x3A, 0x3D] ++ (parseSpace false src₁).drop 3 := by
      rw [← htake, List.take_append_drop]
    generalize (parseSpace false src₁).drop 3 = src₂ at hdef
    have hlength := length_parseSpace true src₂
    have hlength₁ := length_parseSpace false src₁
    rw [hdef, List.length_append] at hlength₁
    refine (parseAlternates_spec hname (by omega) hgrows.ok).bind ?_
    rintro ⟨src₃, p₃⟩ ⟨hle₃, p₂, rule, alternates, hgrows₂, rfl, hmeans, halternates⟩
    dsimp only at hle₃ halternates ⊢
    refine (parseNewline_spec src₃).and_eq.bind ?_
    rintro src₄ ⟨hnewline, hle₄⟩
    have hlength₄ := length_parseSpace true src₄
    have hall := hgrows.trans hgrows₂
    have hid₂ := lookup_of_prefix hgrows₂.ids hid
    have hmem := mem_of_lookup hid₂
    have hbecomes : ∀ q, Becomes (p₂.addRule ruleId rule) q → Becomes p₂ q := fun q =>
      becomes_of_addRule (fun hid => absurd hid (hgrows₂.ok.not_generated hname hmem))
    have hother : ∀ {name' id}, name' ≠ name → p₂.symbolIds.lookup name' = some id → id ≠ ruleId := by
      rintro name' id hne hid' rfl
      exact hne (congrArg Prod.fst (hgrows₂.ok.name_unique (mem_of_lookup hid') hmem rfl))
    refine ⟨show (parseSpace true src₄).length < src.length by omega,
      ⟨hgrows₂.ok.addRule (hgrows₂.ok.id_lt hmem) hmeans.whole, hall.ids,
      fun q hq => hall.becomes h (hbecomes q hq)⟩, name, alternates,
      fun g hg => .rule hparse hdef halternates hnewline hg, ⟨hname, ruleId, hid₂, ?_⟩, fun name' hne => ⟨?_, ?_⟩⟩
    · rw [addRule_self]
      exact hmeans.mono List.prefix_rfl hbecomes
    · rintro alternates' ⟨hname', id, hid', hrule⟩
      have hid₂' := lookup_of_prefix hall.ids hid'
      refine ⟨hname', id, hid₂', ?_⟩
      rw [addRule_of_ne (hother hne hid₂'), hall.kept id (h.id_lt (mem_of_lookup hid'))]
      exact hrule.mono hall.ids (fun q hq => hall.becomes h (hbecomes q hq))
    · rintro ⟨hname', id, hid', hrule⟩
      rw [addRule_symbolIds] at hid'
      rw [addRule_of_ne (hother hne hid')] at hrule
      have hmem' := mem_of_lookup hid'
      -- a rule that is new has a generated name
      have hlt' : id < p.symbolIds.length :=
        Nat.lt_of_not_le (fun hge => hgrows₂.ok.not_generated hname' hmem' (hall.generated id hge hrule))
      obtain ⟨name₀, hname₀⟩ := h.exists_name hlt'
      obtain rfl := congrArg Prod.fst (hgrows₂.ok.name_unique (hall.ids.subset hname₀) hmem' rfl)
      rw [hall.kept id hlt'] at hrule
      exact ⟨hname', id, Assoc.lookup_of_mem h.keys hname₀, hrule⟩
  · rw [if_neg htake]
    exact rfl

/-- Definitions are parsed: the last one of a name is what the name means. -/
theorem parseRules_spec (hdepth : src.length < depth) (hrounds : src.length < rounds) (h : p.Ok) :
    Gives (fun p' => p'.Ok ∧ ∃ g, Definitions src g ∧ ∀ name,
        (∀ alternates, g.reverse.lookup name = some alternates → Defines p' name alternates) ∧
        (g.reverse.lookup name = none → (∀ alternates, Defines p name alternates → Defines p' name alternates) ∧
          (HasRule p' name → HasRule p name)))
      (parseRules depth rounds src p) := by
  induction rounds generalizing src p with
  | zero => nomatch hrounds
  | succ rounds ih =>
    cases src with
    | nil => exact ⟨h, [], .nil, fun _ => ⟨nofun, fun _ => ⟨fun _ hdefines => hdefines, fun hrule => hrule⟩⟩⟩
    | cons c src =>
      rw [parseRules]
      refine (parseRule_spec hdepth h).bind ?_
      rintro ⟨src', p₁⟩ ⟨hlt, hextends, name, alternates, hread, hdefines, hothers⟩
      dsimp only at hlt hextends hread hdefines hothers ⊢
      refine (ih (hlt.trans hdepth) (by omega) hextends.ok).mono ?_ (fun _ h => h)
      rintro p' ⟨hok, g, hg, hrest⟩
      refine ⟨hok, (name, alternates) :: g, hread g hg, fun name' => ?_⟩
      rw [List.reverse_cons, List.lookup_append]
      cases hg' : g.reverse.lookup name' with
      | some alternates₂ => exact ⟨fun alternates' hlookup => (hrest name').1 alternates' (hg'.trans hlookup), nofun⟩
      | none =>
        obtain ⟨hkept, hrules⟩ := (hrest name').2 hg'
        rw [Option.none_or]
        refine ⟨fun alternates' hlookup => ?_, fun hlookup => ?_⟩
        · obtain ⟨rfl, rfl⟩ := Prod.mk.inj (List.mem_singleton.1 (mem_of_lookup hlookup))
          exact hkept _ hdefines
        · have hne : name' ≠ name := by
            rintro rfl
            simp at hlookup
          obtain ⟨hdefined, hruled⟩ := hothers name' hne
          exact ⟨fun alternates' h' => hkept _ (hdefined alternates' h'), fun h' => hruled (hrules h')⟩

/-- The parser is right before anything is parsed. -/
theorem ok_empty : Parser.Ok {} := ⟨List.nodup_nil, rfl, nofun, nofun, Nat.le_refl 0⟩

/-- A text up to its first zero is no longer. -/
theorem length_cStr (src : Bytes) : (cStr src).length ≤ src.length := (List.takeWhile_prefix _).length_le

/-- What holds of a parser behind a text, and how the text is read. -/
structure Parsed (p : Parser) (src : Bytes) (g : List (Bytes × List (List Item))) : Prop where
  ok : p.Ok
  rules : ∀ rule ∈ p.rules, rule ≠ [] ∧ ∀ elem ∈ rule, p.undefined elem = false
  read : Definitions (parseSpace true (cStr src)) g
  defines : ∀ name alternates, g.reverse.lookup name = some alternates → Defines p name alternates
  defined : ∀ name, HasRule p name → ∃ alternates, g.reverse.lookup name = some alternates

/-- What `parse` gives, where it does not answer that there is no grammar. -/
theorem parse_spec (hdepth : src.length < depth) : Gives (fun p => ∃ g, Parsed p src g) (parse depth src) := by
  have hlength := (length_parseSpace true (cStr src)).trans (length_cStr src)
  rw [parse]
  refine (parseRules_spec (by omega) (Nat.lt_succ_self _) ok_empty).bind ?_
  rintro p ⟨hok, g, hg, hdefines⟩
  split
  · exact rfl
  · rename_i hdefined
    refine ⟨g, hok, fun rule hrule => ?_, hg, fun name => (hdefines name).1, fun name hrule => ?_⟩
    · simp only [List.any_eq_true, not_exists, not_and, decide_eq_true_eq, not_or, Bool.not_eq_true] at hdefined
      exact hdefined rule hrule
    · refine Option.ne_none_iff_exists'.1 (fun hnone => ?_)
      obtain ⟨_, _, hlookup, _⟩ := ((hdefines name).2 hnone).2 hrule
      cases hlookup

/-- References to fewer rules are enough where there are no others. -/
theorem Sound.lower {m : Nat} (h : Sound n prev elems)
    (href : ∀ elem ∈ elems, elem.type = .ruleRef → elem.value < m) : Sound m prev elems := by
  induction elems generalizing prev with
  | nil => exact h
  | cons elem elems ih =>
    obtain ⟨hfollows, _, h⟩ := h
    obtain ⟨helem, helems⟩ := List.forall_mem_cons.1 href
    exact ⟨hfollows, helem, ih h helems⟩

/-- Sound elements refer to rules that are there. -/
theorem Sound.value_lt (h : Sound n prev elems) : ∀ elem ∈ elems, elem.type = .ruleRef → elem.value < n := by
  induction elems generalizing prev with
  | nil => exact nofun
  | cons elem elems ih =>
    obtain ⟨_, href, h⟩ := h
    exact List.forall_mem_cons.2 ⟨href, ih h⟩

/-- A whole rule is copied as it is. -/
theorem copyRule_whole (h : Whole n rule) : copyRule rule = rule := by
  obtain ⟨body, rfl, hbody⟩ := h
  rw [copyRule, List.takeWhile_append_of_pos, List.takeWhile_cons_of_neg (by simp), List.append_nil]
  exact fun elem helem => decide_eq_true ((hbody .alt).ne_end elem helem)

/-- The rules that are parsed are whole. -/
theorem Parsed.whole (h : Parsed p src g) (hrule : rule ∈ p.rules) : Whole p.symbolIds.length rule :=
  (h.ok.rules rule hrule).resolve_left (h.rules rule hrule).1

/-- The rules that are parsed are well formed. -/
theorem Parsed.wellFormed (h : Parsed p src g) : p.rules.WellFormed := by
  intro rule hrule
  obtain ⟨body, rfl, hbody⟩ := h.whole hrule
  have hsound := (hbody .alt).sound
  refine hsound.lower (fun elem helem href => ?_)
  -- a reference that is not defined has a name, and is refused
  have hdefined := (h.rules _ hrule).2 elem helem
  have hname : elem.value ∈ p.symbolIds.map Prod.snd := by
    rw [h.ok.ids]
    exact List.mem_range.2 (hsound.value_lt elem helem href)
  by_contra hge
  refine absurd hdefined (Bool.not_eq_false _ ▸ ?_)
  rw [Parser.undefined, decide_eq_true_eq]
  exact ⟨href, by rw [List.getElem?_eq_none (Nat.le_of_not_lt hge)]; rfl, hname⟩

/-- The rules are copied as they are. -/
theorem Parsed.map_copyRule (h : Parsed p src g) : p.rules.map copyRule = p.rules :=
  (List.map_congr_left (fun _ hrule => copyRule_whole (h.whole hrule))).trans (List.map_id _)

/-- Every text is answered: there is no grammar, or the rules are well-formed and are copied as they are. -/
theorem parse_wellFormed (hdepth : src.length < depth) :
    parse depth src = .error .thrown ∨ ∃ p, parse depth src = .ok p ∧ p.rules.WellFormed ∧
      p.rules.map copyRule = p.rules := by
  have hspec := parse_spec hdepth
  cases hparse : parse depth src with
  | error e => exact .inl (congrArg Except.error (hspec.of_error hparse))
  | ok p =>
    obtain ⟨g, hparsed⟩ := hspec.of_ok hparse
    exact .inr ⟨p, rfl, hparsed.wellFormed, hparsed.map_copyRule⟩

/-- The text `x::=("a")+`. -/
theorem parse_wellFormed_group :
    parse 11 [0x78, 0x3A, 0x3A, 0x3D, 0x28, 0x22, 0x61, 0x22, 0x29, 0x2B] = .error .thrown ∨
      ∃ p, parse 11 [0x78, 0x3A, 0x3A, 0x3D, 0x28, 0x22, 0x61, 0x22, 0x29, 0x2B] = .ok p ∧ p.rules.WellFormed ∧
        p.rules.map copyRule = p.rules :=
  parse_wellFormed (by decide)

/-! ## The language of a text -/

/-- A rule that is not empty is there. -/
theorem getElem?_ruleAt (h : p.ruleAt id ≠ []) : p.rules[id]? = some (p.ruleAt id) := by
  rw [Parser.ruleAt] at h ⊢
  cases hrule : p.rules[id]? with
  | none =>
    rw [hrule] at h
    exact absurd rfl h
  | some rule => rfl

/-- The forms of the rules that are there. -/
theorem cfg_rules_ruleAt (h : p.ruleAt id ≠ []) : p.rules.cfg.rules id = forms (p.ruleAt id) :=
  cfg_rules_eq (getElem?_ruleAt h)

/-- What the parser is in the end, it becomes. -/
theorem becomes_named (p : Parser) : Becomes p p.named := ⟨List.prefix_rfl, rfl, fun _ _ => cfg_rules_ruleAt⟩

/-- The grammar that has, in the place of a rule with a name of the text, the parts of a text that the name stands for. -/
noncomputable def wordsCfg (p : Parser) (named : Bytes → List Nat → Prop) (w : List Nat) : Cfg Nat CharClass Nat where
  rules n := open Classical in
    if p.Generated n then p.rules.cfg.rules n
    else (w.sublists.filter (fun u => ∃ name, p.symbolIds.lookup name = some n ∧ named name u)).map literal
  Holds := CharClass.Holds

/-- A generated name has its own rule. -/
theorem wordsCfg_generated {n : Nat} (h : p.Generated n) : (wordsCfg p named w).rules n = p.rules.cfg.rules n :=
  if_pos h

/-- Another name has the parts of the text that it stands for. -/
theorem mem_wordsCfg_iff {n : Nat} (h : ¬p.Generated n) {alt : List (CfgSymbol Nat CharClass)} :
    alt ∈ (wordsCfg p named w).rules n ↔ ∃ u, u.Sublist w ∧
      (∃ name, p.symbolIds.lookup name = some n ∧ named name u) ∧ literal u = alt := by
  have hrules : (wordsCfg p named w).rules n = _ := if_neg h
  rw [hrules, List.mem_map]
  simp only [List.mem_filter, List.mem_sublists, decide_eq_true_eq, and_assoc]

/-- That grammar has the names so far, and the rules with generated names. -/
theorem becomes_wordsCfg (p : Parser) (named : Bytes → List Nat → Prop) (w : List Nat) :
    Becomes p ⟨p.symbolIds, wordsCfg p named w⟩ :=
  ⟨List.prefix_rfl, rfl, fun _ hid hne => (wordsCfg_generated hid).trans (cfg_rules_ruleAt hne)⟩

/-- The names stand for no more. -/
theorem says_wordsCfg (h : p.Ok) (hsaid : NamedCfg.language ⟨p.symbolIds, wordsCfg p named w⟩ name u) :
    named name u := by
  obtain ⟨hname, id, hid, hderives⟩ := hsaid
  have hmem := mem_of_lookup hid
  obtain ⟨alt, halt, hderives⟩ := Cfg.derives_ref_iff.1 hderives
  obtain ⟨v, _, ⟨name', hid', hnamed⟩, rfl⟩ := (mem_wordsCfg_iff (h.not_generated hname hmem)).1 halt
  obtain rfl := congrArg Prod.fst (h.name_unique (mem_of_lookup hid') hmem rfl)
  rw [List.append_nil] at hderives
  obtain rfl := (derives_literal_iff rfl).1 hderives
  exact hnamed

/-- A rule that an id has is one of the text, or is generated. -/
theorem Parsed.ruleAt_ne_nil {n : Nat} {alt : List (CfgSymbol Nat CharClass)} (h : Parsed p src g)
    (halt : alt ∈ p.rules.cfg.rules n) :
    p.ruleAt n ≠ [] := by
  intro hnil
  cases hrule : p.rules[n]? with
  | none => simp [Rules.cfg, hrule] at halt
  | some rule =>
    rw [Parser.ruleAt, hrule] at hnil
    exact (h.rules rule (List.mem_of_getElem? hrule)).1 hnil

/-- A derivation is one in which each name of the text stands for a part of what is derived, if the names stand for
what the definitions say. -/
theorem Parsed.derives_wordsCfg (h : Parsed p src g)
    (hclosed : ∀ name alternates, g.reverse.lookup name = some alternates →
      ∀ items ∈ alternates, ∀ w, Says named items w → named name w) {form : List (CfgSymbol Nat CharClass)}
      (hform : p.rules.cfg.Derives form u) (hsub : u.Sublist w) : (wordsCfg p named w).Derives form u := by
  induction hform with
  | nil => exact .nil
  | term hc _ ih => exact .term hc (ih (List.sublist_of_cons_sublist hsub))
  | @ref n alt k u halt _ ih =>
    by_cases hgenerated : p.Generated n
    · exact .ref (by rwa [wordsCfg_generated hgenerated]) (ih hsub)
    obtain ⟨u₁, u₂, rfl, hu₁, hu₂⟩ := Cfg.derives_append_iff.1 (ih hsub)
    have hne := h.ruleAt_ne_nil halt
    have hlt : n < p.symbolIds.length := Nat.lt_of_not_le (fun hge => hne (h.ok.ruleAt_of_ge hge))
    obtain ⟨name, hmem⟩ := h.ok.exists_name hlt
    have hname : 0x5F ∉ name := fun hunderscore => hgenerated ⟨_, hmem, hunderscore, rfl⟩
    have hlookup := Assoc.lookup_of_mem h.ok.keys hmem
    obtain ⟨alternates, hg⟩ := h.defined name ⟨hname, n, hlookup, hne⟩
    obtain ⟨_, n', hlookup', hmeans⟩ := h.defines name alternates hg
    obtain rfl := Option.some.inj (hlookup.symm.trans hlookup')
    rw [cfg_rules_ruleAt hne] at halt
    -- the alternate says what it derives, and so does the name
    obtain ⟨items, hitems, hsaid⟩ := (hmeans.derives (becomes_wordsCfg p named w)).1 ⟨alt, halt, hu₁⟩
    have hnamed := hclosed name alternates hg items hitems u₁ (hsaid.mono (fun _ _ => says_wordsCfg h.ok))
    refine .ref ((mem_wordsCfg_iff hgenerated).2 ⟨u₁, (List.sublist_append_left u₁ u₂).trans hsub,
      ⟨name, hlookup, hnamed⟩, rfl⟩) ?_
    exact Cfg.derives_append_iff.2 ⟨u₁, u₂, rfl, (derives_literal_iff rfl).2 rfl, hu₂⟩

/-- The rule of a name says exactly the sentences of the name. -/
theorem Parsed.says_iff (h : Parsed p src g) : p.named.language name w ↔ Sentence g name w := by
  constructor
  · rintro ⟨hname, id, hid, hderives⟩ named hclosed
    exact says_wordsCfg h.ok ⟨hname, id, hid, h.derives_wordsCfg hclosed hderives (List.Sublist.refl w)⟩
  · refine fun hsentence => hsentence p.named.language ?_
    intro name alternates hlookup items hitems w hsaid
    obtain ⟨hname, id, hid, hmeans⟩ := h.defines name alternates hlookup
    exact ⟨hname, id, hid, (hmeans.derives_ref (becomes_named p) (cfg_rules_ruleAt hmeans.ne_nil)).2 ⟨items,
      hitems, hsaid⟩⟩

/-- The rules derive for a name exactly what the text says of it. -/
theorem parse_means (hdepth : src.length < depth) (h : parse depth src = .ok p) :
    ∃ g, Definitions (parseSpace true (cStr src)) g ∧ ∀ name w, p.named.language name w ↔ Sentence g name w := by
  obtain ⟨g, hparsed⟩ := (parse_spec hdepth).of_ok h
  exact ⟨g, hparsed.read, fun _ _ => hparsed.says_iff⟩

/-- The text `x::=("a")+`. -/
theorem parse_means_group :
    ∃ g, Definitions (parseSpace true (cStr [0x78, 0x3A, 0x3A, 0x3D, 0x28, 0x22, 0x61, 0x22, 0x29, 0x2B])) g ∧ ∀ name w,
      NamedCfg.language
        ⟨[([0x78], 0), ([0x78, 0x5F, 0x31], 1), ([0x78, 0x5F, 0x32], 2)],
          Rules.cfg [[⟨.ruleRef, 1⟩, ⟨.ruleRef, 2⟩, ⟨.end_, 0⟩], [⟨.char, 0x61⟩, ⟨.end_, 0⟩],
            [⟨.ruleRef, 1⟩, ⟨.ruleRef, 2⟩, ⟨.alt, 0⟩, ⟨.end_, 0⟩]]⟩ name w ↔ Sentence g name w := by
  have hlength : List.length ([0x78, 0x3A, 0x3A, 0x3D, 0x28, 0x22, 0x61, 0x22, 0x29, 0x2B] : Bytes) < 11 := by decide
  exact parse_means hlength rfl

/-! ## Generation under a text -/

section

variable {nesting calls token : Nat} {root : Bytes} {vocab : Vocab} {first : Grammar} {s : Generation}
  {words : List Bytes} {tokens : List Nat}

/-- A grammar of a text has rules of the text, and begins with the rule of the root. -/
theorem initStr_eq {lazy : Bool} (h : initStr nesting calls depth src root lazy words tokens = .ok (some first)) :
    ∃ p start, parse nesting src = .ok p ∧ p.symbolIds.lookup root = some start ∧
      initImpl calls depth p.rules start lazy words tokens = .ok (some first) := by
  rw [initStr] at h
  cases hparse : parse nesting src with
  | error e => cases e <;> simp [hparse] at h
  | ok p =>
    simp only [hparse] at h
    split at h
    · cases h
    split at h
    · cases h
    cases hstart : p.symbolIds.lookup root with
    | none => simp [hstart] at h
    | some start =>
      simp only [hstart] at h
      exact ⟨p, start, rfl, hstart, h⟩

/-- A grammar begins with a rule that is there. -/
theorem start_lt {parsed : Rules} {start : Nat} {lazy : Bool}
    (h : initImpl calls depth parsed start lazy words tokens = .ok (some first)) :
    start < parsed.length := by
  rw [initImpl] at h
  obtain ⟨recursive, _, h⟩ := except_bind_eq_ok.1 h
  cases recursive with
  | true => cases h
  | false =>
    obtain ⟨stks, hstks, _⟩ := except_bind_eq_ok.1 h
    by_contra hge
    rw [initStacks, List.getElem?_eq_none (by simpa using hge)] at hstks
    cases hstks

/-- Under the grammar of a text, the end is only sampled behind what the text says of its root. -/
theorem generation_text (hnesting : src.length < nesting) (hroot : 0x5F ∉ root)
    (hinit : initStr nesting calls depth src root false words tokens = .ok (some first))
    (h : ((generation depth vocab first).guarded (Sampled calls depth vocab)).Reachable s)
    (hsampled : Sampled calls depth vocab s token) (heog : vocab.isEog token = true) :
    ∃ g text, Definitions (parseSpace true (cStr src)) g ∧
      decodeUtf8 (s.bytes vocab) ⟨0, 0⟩ = (text ++ [0], s.grammar.partialUtf8) ∧ Sentence g root text := by
  obtain ⟨p, start, hparse, hstart, hinit⟩ := initStr_eq hinit
  obtain ⟨g, hparsed⟩ := (parse_spec hnesting).of_ok hparse
  have hwf : Rules.WellFormed (p.rules.map copyRule) := by
    rw [hparsed.map_copyRule]
    exact hparsed.wellFormed
  obtain ⟨text, hgenerated⟩ := generated_of_reachable hwf (start_lt hinit) hinit h
  have hderives := hgenerated.derives_of_eog hwf hsampled heog
  rw [hparsed.map_copyRule] at hderives
  exact ⟨g, text, hparsed.read, hgenerated.decodeUtf8_bytes, hparsed.says_iff.1 ⟨hroot, start, hstart, hderives⟩⟩

/-- The text `root::="("root")"|[0-9]`. -/
theorem generation_text_parens :
    ∃ g text, Definitions (parseSpace true (cStr
        [0x72, 0x6F, 0x6F, 0x74, 0x3A, 0x3A, 0x3D, 0x22, 0x28, 0x22, 0x72, 0x6F, 0x6F, 0x74, 0x22, 0x29, 0x22, 0x7C,
          0x5B, 0x30, 0x2D, 0x39, 0x5D])) g ∧
      decodeUtf8 [0x28, 0x37, 0x29] ⟨0, 0⟩ = (text ++ [0], ⟨0x29, 0⟩) ∧ Sentence g [0x72, 0x6F, 0x6F, 0x74] text :=
  generation_text (by decide : _ < 24) (by decide) rfl parens_run parens_end rfl

end

end Ollama.Llama
