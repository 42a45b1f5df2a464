import Mathlib.Data.List.TakeWhile
import Ollama.Llama.Lemmas.Stacks
import Ollama.Llama.Parser

/-!
# Rules that are parsed

Elements that are pieces of rules, the names and rules of a parser as more is parsed (`Grows`), and what a repetition
makes of them: it derives what is repeated, so many times (`handleRepetitions_spec`).
-/

namespace Ollama.Llama

open Lib

variable {n m id count k : Nat} {elem : Element} {elems a b c : List Element} {prev : GreType} {rule rule' : Rule}
  {rules : Rules} {p p' : Parser}
  {name : Bytes} {last last' : Option Nat}

/-- A value, or the text is refused. -/
abbrev Gives {α : Type} (P : α → Prop) (x : Except Failure α) : Prop := Yields (fun e => e = .thrown) P x

/-! ## Pieces of rules -/

/-- Elements behind one of a type follow one another as they should, and refer to one of so many rules. None is an end. -/
def Linked (n : Nat) : GreType → List Element → Prop
  | _, [] => True
  | prev, elem :: elems => follows prev elem.type ∧ elem.type ≠ .end_ ∧ (elem.type = .ruleRef → elem.value < n) ∧
      Linked n elem.type elems

/-- Elements that can stand behind any. -/
def Piece (n : Nat) (elems : List Element) : Prop := ∀ prev, Linked n prev elems

/-- A piece can stand behind elements that follow one another. -/
theorem Linked.append (ha : Linked n prev a) (hb : Piece n b) : Linked n prev (a ++ b) := by
  induction a generalizing prev with
  | nil => exact hb prev
  | cons elem a ih =>
    obtain ⟨hfollows, hne, href, ha⟩ := ha
    exact ⟨hfollows, hne, href, ih ha⟩

/-- Two pieces, one behind the other, are a piece. -/
theorem Piece.append (ha : Piece n a) (hb : Piece n b) : Piece n (a ++ b) := fun prev => (ha prev).append hb

/-- Any number of pieces, one behind the other, are a piece. -/
theorem Piece.flatten {l : List (List Element)} (h : ∀ a ∈ l, Piece n a) : Piece n l.flatten := by
  induction l with
  | nil => exact fun _ => trivial
  | cons a l ih =>
    obtain ⟨ha, hl⟩ := List.forall_mem_cons.1 h
    exact ha.append (ih hl)

/-- Elements stay linked when there are more rules to refer to. -/
theorem Linked.mono (h : Linked n prev elems) (hle : n ≤ m) : Linked m prev elems := by
  induction elems generalizing prev with
  | nil => trivial
  | cons elem elems ih =>
    obtain ⟨hfollows, hne, href, h⟩ := h
    exact ⟨hfollows, hne, fun htype => (href htype).trans_le hle, ih h⟩

/-- A piece stays a piece when there are more rules to refer to. -/
theorem Piece.mono (h : Piece n elems) (hle : n ≤ m) : Piece m elems := fun prev => (h prev).mono hle

/-- No elements are a piece. -/
theorem piece_nil : Piece n [] := fun _ => trivial

/-- One element that modifies none. -/
theorem piece_singleton (hne : elem.type ≠ .end_) (hfollows : ∀ prev, follows prev elem.type = true)
    (href : elem.type = .ruleRef → elem.value < n) : Piece n [elem] :=
  fun prev => ⟨hfollows prev, hne, href, trivial⟩

/-- A reference to a rule is a piece. -/
theorem piece_ref (h : id < n) : Piece n [⟨.ruleRef, id⟩] :=
  piece_singleton nofun (fun prev => by cases prev <;> rfl) (fun _ => h)

/-- A `|` is a piece. -/
theorem piece_alt : Piece n [⟨.alt, 0⟩] := piece_singleton nofun (fun prev => by cases prev <;> rfl) nofun

/-- With an end behind it, a piece is sound. -/
theorem Linked.sound (h : Linked n prev elems) : Sound n prev (elems ++ [⟨.end_, 0⟩]) := by
  induction elems generalizing prev with
  | nil => exact ⟨by cases prev <;> rfl, nofun, rfl⟩
  | cons elem elems ih =>
    obtain ⟨hfollows, _, href, h⟩ := h
    exact ⟨hfollows, href, ih h⟩

/-- Elements that follow one another have no end among them. -/
theorem Linked.ne_end (h : Linked n prev elems) : ∀ elem ∈ elems, elem.type ≠ .end_ := by
  induction elems generalizing prev with
  | nil => exact nofun
  | cons elem elems ih =>
    obtain ⟨_, hne, _, h⟩ := h
    exact List.forall_mem_cons.2 ⟨hne, ih h⟩

/-- A rule, up to the end that is pushed. -/
def Whole (n : Nat) (rule : Rule) : Prop := ∃ body, rule = body ++ [⟨.end_, 0⟩] ∧ Piece n body

/-- A whole rule stays whole when there are more rules to refer to. -/
theorem Whole.mono (h : Whole n rule) (hle : n ≤ m) : Whole m rule := by
  obtain ⟨body, rfl, hbody⟩ := h
  exact ⟨body, rfl, hbody.mono hle⟩

/-! ## Names and rules -/

/-- The rule with an id, or nothing. -/
def Parser.ruleAt (p : Parser) (id : Nat) : Rule := p.rules[id]?.getD []

/-- What holds of the names and rules so far: the names differ, the ids are counted, a name that is not from the text
has its id at its end, and a rule that is there has an id and is whole. -/
structure Parser.Ok (p : Parser) : Prop where
  keys : (p.symbolIds.map Prod.fst).Nodup
  ids : p.symbolIds.map Prod.snd = List.range p.symbolIds.length
  names : ∀ e ∈ p.symbolIds, 0x5F ∈ e.1 → ∃ base, 0x5F ∉ base ∧ e.1 = base ++ 0x5F :: decimal e.2
  rules : ∀ rule ∈ p.rules, rule = [] ∨ Whole p.symbolIds.length rule
  length : p.rules.length ≤ p.symbolIds.length

/-- Behind the ids there are no rules. -/
theorem Parser.Ok.ruleAt_of_ge (h : p.Ok) (hid : p.symbolIds.length ≤ id) : p.ruleAt id = [] := by
  rw [Parser.ruleAt, List.getElem?_eq_none (h.length.trans hid)]
  rfl

/-- The id is that of a generated name. -/
def Parser.Generated (p : Parser) (id : Nat) : Prop := ∃ e ∈ p.symbolIds, 0x5F ∈ e.1 ∧ e.2 = id

/-- A generated name stays one when names are added. -/
theorem Parser.Generated.mono (hid : p.Generated id) (h : p.symbolIds <+: p'.symbolIds) : p'.Generated id := by
  obtain ⟨e, he, hmem, rfl⟩ := hid
  exact ⟨e, h.subset he, hmem, rfl⟩

/-- More is parsed: names are added, the rules of those that were there are as before, and new rules have generated
names. -/
structure Grows (p p' : Parser) : Prop where
  ok : p'.Ok
  ids : p.symbolIds <+: p'.symbolIds
  kept : ∀ id < p.symbolIds.length, p'.ruleAt id = p.ruleAt id
  generated : ∀ id, p.symbolIds.length ≤ id → p'.ruleAt id ≠ [] → p'.Generated id

/-- A parser that grows has no fewer ids. -/
theorem Grows.le (h : Grows p p') : p.symbolIds.length ≤ p'.symbolIds.length := h.ids.length_le

/-- A parser that does nothing grows by nothing. -/
theorem Grows.refl (h : p.Ok) : Grows p p :=
  ⟨h, List.prefix_rfl, fun _ _ => rfl, fun _ hid hne => absurd (h.ruleAt_of_ge hid) hne⟩

/-- To grow twice is to grow. -/
theorem Grows.trans {p₁ p₂ p₃ : Parser} (h : Grows p₁ p₂) (h' : Grows p₂ p₃) : Grows p₁ p₃ := by
  refine ⟨h'.ok, h.ids.trans h'.ids, fun id hid => (h'.kept id (hid.trans_le h.le)).trans (h.kept id hid),
    fun id hid hne => ?_⟩
  rcases Nat.lt_or_ge id p₂.symbolIds.length with hlt | hge
  · rw [h'.kept id hlt] at hne
    exact (h.generated id hid hne).mono h'.ids
  · exact h'.generated id hge hne

/-- A new name with the next id is added. -/
theorem Parser.Ok.push (h : p.Ok) (hnew : ∀ e ∈ p.symbolIds, e.1 ≠ name)
    (hname : 0x5F ∈ name → ∃ base, 0x5F ∉ base ∧ name = base ++ 0x5F :: decimal p.symbolIds.length) :
    Grows p { p with symbolIds := p.symbolIds ++ [(name, p.symbolIds.length)] } := by
  have hlength := h.length
  refine ⟨⟨?_, ?_, fun e he => ?_, fun rule hrule => ?_, ?_⟩, List.prefix_append _ _, fun _ _ => rfl,
    fun id hid hne => absurd (h.ruleAt_of_ge hid) hne⟩
  · rw [List.map_append, List.map_singleton, List.nodup_append]
    refine ⟨h.keys, List.nodup_singleton _, fun a ha b hb heq => ?_⟩
    obtain ⟨e, he, rfl⟩ := List.mem_map.1 ha
    obtain rfl := List.mem_singleton.1 hb
    exact hnew e he heq
  · simp [h.ids, List.range_succ]
  · rcases List.mem_append.1 he with he | he
    · exact h.names e he
    · obtain rfl := List.mem_singleton.1 he
      exact hname
  · exact (h.rules rule hrule).imp_right (fun hwhole => hwhole.mono (by simp))
  · simp only [List.length_append, List.length_singleton]
    omega

/-- An id is that of a name. -/
theorem Parser.Ok.id_lt (h : p.Ok) {e : Bytes × Nat} (he : e ∈ p.symbolIds) : e.2 < p.symbolIds.length := by
  have hid : e.2 ∈ p.symbolIds.map Prod.snd := List.mem_map_of_mem he
  rw [h.ids] at hid
  exact List.mem_range.1 hid

/-- What is looked up is in the list. -/
theorem mem_of_lookup {α : Type} {l : List (Bytes × α)} {a : α} (h : l.lookup name = some a) : (name, a) ∈ l := by
  obtain ⟨s, t, rfl, _⟩ := List.lookup_eq_some_iff.1 h
  simp

/-- The id of a name of the text. -/
theorem getSymbolId_spec (h : p.Ok) (hname : 0x5F ∉ name) :
    Grows p (p.getSymbolId name).2 ∧ (p.getSymbolId name).2.symbolIds.lookup name = some (p.getSymbolId name).1 := by
  rw [Parser.getSymbolId]
  split
  · rename_i id hlookup
    exact ⟨.refl h, hlookup⟩
  · rename_i hlookup
    refine ⟨h.push (fun e he heq => ?_) (fun hmem => absurd hmem hname), ?_⟩
    · have hne := List.lookup_eq_none_iff.1 hlookup e he
      simp [heq] at hne
    · rw [List.lookup_append, hlookup]
      simp

/-- A generated name has one of the ids. -/
theorem Parser.Generated.lt (hid : p.Generated id) (h : p.Ok) : id < p.symbolIds.length := by
  obtain ⟨e, he, _, rfl⟩ := hid
  exact h.id_lt he

/-- A generated name is a new one. -/
theorem Parser.Ok.ne_generated (h : p.Ok) (hname : 0x5F ∉ name) :
    ∀ e ∈ p.symbolIds, e.1 ≠ name ++ 0x5F :: decimal p.symbolIds.length := by
  intro e he heq
  obtain ⟨base, hbase, hkey⟩ := h.names e he (by simp [heq])
  rw [heq] at hkey
  have hnames : name = base := eq_of_same_end hname hbase ⟨decimal p.symbolIds.length,
    by rw [List.append_assoc, List.singleton_append, hkey]⟩
  subst hnames
  have hids := decimal_injective (List.cons.inj (List.append_cancel_left hkey)).2
  exact absurd (h.id_lt he) (by omega)

/-- A generated name is new: it gets the next id. -/
theorem generateSymbolId_eq (h : p.Ok) (hname : 0x5F ∉ name) :
    p.generateSymbolId name =
      (p.symbolIds.length,
        { p with symbolIds := p.symbolIds ++ [(name ++ 0x5F :: decimal p.symbolIds.length, p.symbolIds.length)] }) := by
  have hfresh : p.symbolIds.filter (fun e => e.1 ≠ name ++ 0x5F :: decimal p.symbolIds.length) = p.symbolIds :=
    List.filter_eq_self.2 (fun e he => decide_eq_true (h.ne_generated hname e he))
  simp only [Parser.generateSymbolId, Assoc.set, hfresh]

/-- Generating a name lets the parser grow by one id, without a rule. -/
theorem generateSymbolId_spec (h : p.Ok) (hname : 0x5F ∉ name) :
    (p.generateSymbolId name).1 = p.symbolIds.length ∧ Grows p (p.generateSymbolId name).2 ∧
      (p.generateSymbolId name).2.symbolIds.length = p.symbolIds.length + 1 ∧
        (p.generateSymbolId name).2.Generated p.symbolIds.length ∧
      (p.generateSymbolId name).2.ruleAt p.symbolIds.length = [] := by
  rw [generateSymbolId_eq h hname]
  refine ⟨rfl, h.push (h.ne_generated hname) (fun _ => ⟨name, hname, rfl⟩), by simp,
    ⟨_, List.mem_append_right _ List.mem_cons_self, ?_, rfl⟩, h.ruleAt_of_ge (Nat.le_refl _)⟩
  simp

/-- Adding a rule adds no names. -/
@[simp] theorem addRule_symbolIds (p : Parser) (ruleId : Nat) (rule : Rule) :
    (p.addRule ruleId rule).symbolIds = p.symbolIds := rfl

/-- The rule that was added is there. -/
theorem addRule_self (p : Parser) (ruleId : Nat) (rule : Rule) : (p.addRule ruleId rule).ruleAt ruleId = rule := by
  rw [Parser.ruleAt, Parser.addRule, List.getElem?_set_self, Option.getD_some]
  simp
  omega

/-- What is added in front of a rule is nothing. -/
theorem addRule_of_ne {ruleId : Nat} (hne : id ≠ ruleId) : (p.addRule ruleId rule).ruleAt id = p.ruleAt id := by
  rw [Parser.ruleAt, Parser.ruleAt, Parser.addRule, List.getElem?_set_ne hne.symm]
  rcases Nat.lt_or_ge id p.rules.length with hlt | hge
  · rw [List.getElem?_append_left hlt]
  · rw [List.getElem?_append_right hge, List.getElem?_replicate, List.getElem?_eq_none hge]
    split <;> rfl

/-- After a rule is added the rules are those before, empty ones and the new one. -/
theorem mem_addRule {ruleId : Nat} (h : rule' ∈ (p.addRule ruleId rule).rules) :
    rule' ∈ p.rules ∨ rule' = [] ∨ rule' = rule := by
  rcases List.mem_or_eq_of_mem_set h with h | rfl
  · rcases List.mem_append.1 h with h | h
    · exact .inl h
    · exact .inr (.inl (List.eq_of_mem_replicate h))
  · exact .inr (.inr rfl)

/-- A whole rule is added. -/
theorem Parser.Ok.addRule {ruleId : Nat} (h : p.Ok) (hid : ruleId < p.symbolIds.length)
    (hrule : Whole p.symbolIds.length rule) :
    (p.addRule ruleId rule).Ok := by
  refine ⟨h.keys, h.ids, h.names, fun rule' hmem => ?_, ?_⟩
  · rcases mem_addRule hmem with hmem | hnil | rfl
    · exact h.rules rule' hmem
    · exact .inl hnil
    · exact .inr hrule
  · have hlength := h.length
    simp only [Parser.addRule, List.length_set, List.length_append, List.length_replicate]
    omega

/-- The rule of a generated name that was not there before. -/
theorem Grows.addRule {ruleId : Nat} (h : Grows p p') (hge : p.symbolIds.length ≤ ruleId) (hid : p'.Generated ruleId)
    (hrule : Whole p'.symbolIds.length rule) : Grows p (p'.addRule ruleId rule) := by
  refine ⟨h.ok.addRule (hid.lt h.ok) hrule, h.ids, fun id hlt => (addRule_of_ne (by omega)).trans (h.kept id hlt),
    fun id hid' hne => ?_⟩
  rcases eq_or_ne id ruleId with rfl | hother
  · exact hid
  · rw [addRule_of_ne hother] at hne
    exact h.generated id hid' hne

/-- The forms of a rule. -/
def forms (rule : Rule) : List (List (CfgSymbol Nat CharClass)) := symbolsAt rule :: laterForms rule

/-- A grammar over ids, and the ids of names. -/
structure NamedCfg where
  names : List (Bytes × Nat)
  cfg : Cfg Nat CharClass Nat

/-- The grammar has the names so far, and the rules with generated names. The others are any. -/
structure Becomes (p : Parser) (q : NamedCfg) : Prop where
  ids : p.symbolIds <+: q.names
  holds : q.cfg.Holds = CharClass.Holds
  kept : ∀ id, p.Generated id → p.ruleAt id ≠ [] → q.cfg.rules id = forms (p.ruleAt id)

variable {q : NamedCfg}

/-- A grammar that a parser may still become was possible before it grew. -/
theorem Grows.becomes (hp : p.Ok) (h : Grows p p') (hq : Becomes p' q) : Becomes p q := by
  refine ⟨h.ids.trans hq.ids, hq.holds, fun id hid hne => ?_⟩
  have hkept := h.kept id (hid.lt hp)
  rw [← hkept] at hne ⊢
  exact hq.kept id (hid.mono h.ids) hne

/-! ## Repetitions -/

/-- A reference, if there is one. -/
def refTo (last : Option Nat) : List Element := (last.map (fun id => ⟨.ruleRef, id⟩)).toList

/-- A reference, if there is one, is a piece. -/
theorem piece_refTo {last : Option Nat} (h : ∀ id, last = some id → id < n) : Piece n (refTo last) := by
  cases last with
  | none => exact piece_nil
  | some id => exact piece_ref (h id rfl)

/-- A reference is no `|`. -/
theorem refTo_ne_alt (last : Option Nat) : ∀ elem ∈ refTo last, elem.type ≠ .alt := by
  intro elem helem
  cases last with
  | none => nomatch helem
  | some id =>
    obtain rfl := List.mem_singleton.1 helem
    nofun

/-- The rule that the loop of a repetition adds: what is repeated and another rule, or nothing. -/
def moreRule (prevRule : Rule) (next : Option Nat) : Rule := prevRule ++ refTo next ++ [⟨.alt, 0⟩, ⟨.end_, 0⟩]

/-- The rule that a repetition adds is whole. -/
theorem whole_moreRule {next : Option Nat} (hb : Piece n b) (hnext : ∀ id, next = some id → id < n) :
    Whole n (moreRule b next) :=
  ⟨b ++ refTo next ++ [⟨.alt, 0⟩], by simp [moreRule], (hb.append (piece_refTo hnext)).append piece_alt⟩

/-- What the loop of a repetition makes of the rules: so many more, of which each is followed by itself, or by the one
before. -/
theorem addRepetitions_spec {unbounded : Bool} (count : Nat) (last : Option Nat) (h : p.Ok) (hname : 0x5F ∉ name)
    (hb : Piece p.symbolIds.length b) (hlast : ∀ id, last = some id → id < p.symbolIds.length)
    (hout : addRepetitions name b unbounded count last p = (last', p')) :
    Grows p p' ∧ (∀ id, last' = some id → id < p'.symbolIds.length) ∧
      last' = (if count = 0 then last else some (p.symbolIds.length + count - 1)) ∧
      ∀ i < count, p'.Generated (p.symbolIds.length + i) ∧ p'.ruleAt (p.symbolIds.length + i) =
        moreRule b (if unbounded then some (p.symbolIds.length + i) else if i =
          0 then last else some (p.symbolIds.length + i - 1)) := by
  induction count generalizing p last with
  | zero =>
    obtain ⟨rfl, rfl⟩ := Prod.mk.inj hout
    exact ⟨.refl h, hlast, rfl, nofun⟩
  | succ count ih =>
    obtain ⟨hid, hgrows, hlength, hgenerated, _⟩ := generateSymbolId_spec h hname
    rw [addRepetitions] at hout
    generalize p.generateSymbolId name = out at hid hgrows hlength hgenerated hout
    obtain ⟨recRuleId, p₁⟩ := out
    dsimp only at hid hgrows hlength hgenerated
    subst hid
    have hself : ∀ id, some p.symbolIds.length = some id → id < p₁.symbolIds.length := by
      intro id hsome
      obtain rfl := Option.some.inj hsome
      omega
    have hnext : ∀ id, (if unbounded then some p.symbolIds.length else last) = some id → id < p₁.symbolIds.length := by
      intro id hsome
      split at hsome
      · exact hself id hsome
      · exact (hlast id hsome).trans_le hgrows.le
    have hadd := hgrows.addRule (Nat.le_refl _) hgenerated (whole_moreRule (hb.mono hgrows.le) hnext)
    obtain ⟨hrest, hlast', hlasteq, hmore⟩ := ih (some p.symbolIds.length) hadd.ok (hb.mono hadd.le) hself hout
    rw [addRule_symbolIds, hlength] at hlasteq hmore
    refine ⟨hadd.trans hrest, hlast', ?_, fun i hi => ?_⟩
    · rw [hlasteq, if_neg (Nat.succ_ne_zero count)]
      split
      · rename_i hcount
        rw [hcount, Nat.zero_add, Nat.add_sub_cancel]
      · rw [Nat.add_right_comm, Nat.add_assoc]
    · cases i with
      | zero =>
        refine ⟨hgenerated.mono hrest.ids, ?_⟩
        rw [Nat.add_zero, hrest.kept _ (by rw [addRule_symbolIds]; omega), addRule_self]
        rfl
      | succ i =>
        -- the rule before is the one that was added last
        have hprev : (if i = 0 then some p.symbolIds.length else some (p.symbolIds.length + 1 + i - 1)) =
            some (p.symbolIds.length + (i + 1) - 1) := by
          split <;> congr 1 <;> omega
        have hrule := hmore i (Nat.lt_of_succ_lt_succ hi)
        rw [hprev, Nat.add_right_comm, Nat.add_assoc] at hrule
        rw [if_neg (Nat.succ_ne_zero i)]
        exact hrule

/-- How often the last symbol is written. -/
def timesAtLeast (minTimes : Int) : Nat := if minTimes = 0 then 0 else (minTimes - 1).toNat + 1

/-- How many rules are added for further times. -/
def timesMore (minTimes maxTimes : Int) : Nat := (if maxTimes < 0 then 1 else (maxTimes - minTimes).bmod (2 ^ 32)).toNat

/-- What a repetition makes of a rule whose last symbol is `b`. -/
theorem handleRepetitions_eq (minTimes maxTimes : Int) (hne : b ≠ []) :
    handleRepetitions name minTimes maxTimes a.length (a ++ b) p =
      .ok (a ++ (List.replicate (timesAtLeast minTimes) b).flatten ++
          refTo (addRepetitions name b (maxTimes < 0) (timesMore minTimes maxTimes) none p).1,
        (addRepetitions name b (maxTimes < 0) (timesMore minTimes maxTimes) none p).2) := by
  have hlength : ¬a.length = (a ++ b).length := by
    rw [List.length_append]
    have := List.length_pos_of_ne_nil hne
    omega
  rw [handleRepetitions, if_neg hlength, List.drop_left, List.take_left, timesAtLeast]
  split
  · simp [timesMore, refTo]
  · simp [timesMore, refTo, List.replicate_succ]

/-! ## Symbols of pieces -/

/-- No modifier of what stands before. -/
def Plain (elems : List Element) : Prop := pointsTo .charRngUpper elems = false ∧ pointsTo .charAlt elems = false

/-- An end modifies nothing. -/
theorem plain_end : Plain [⟨.end_, 0⟩] := ⟨rfl, rfl⟩

/-- A piece modifies nothing before it, whatever stands behind it, if that modifies nothing. -/
theorem Piece.plain (h : Piece n a) (hb : Plain b) : Plain (a ++ b) := by
  cases a with
  | nil => exact hb
  | cons elem a =>
    have hfollows := (h .end_).1
    constructor <;> refine decide_eq_false (fun htype => ?_)
    · rw [htype] at hfollows
      nomatch hfollows
    · rw [htype] at hfollows
      nomatch hfollows

/-- The ranges of a class are in its own elements. -/
theorem rangesAt_append (hb : Plain b) (hc : Plain c) (elem : Element) (elems : List Element) :
    rangesAt (elem :: (elems ++ b)) = rangesAt (elem :: (elems ++ c)) := by
  have hplain : ∀ b, Plain b → ∀ elem, rangesAt (elem :: b) = [rangeOf elem] := by
    intro b hb elem
    rw [rangesAt, if_neg (by simp [hb.2])]
    rintro upper rest rfl
    cases hb.1
  induction hlength : elems.length using Nat.strong_induction_on generalizing elem elems with
  | h length ih =>
    subst hlength
    cases elems with
    | nil => rw [List.nil_append, List.nil_append, hplain b hb, hplain c hc]
    | cons next elems =>
      have hstep : ∀ d, Plain d → rangesAt (elem :: (next :: elems ++ d)) =
          if next.type = .charRngUpper then
            .upto elem.value next.value :: if pointsTo .charAlt (elems ++ d) then rangesAt (elems ++ d) else []
          else rangeOf elem :: if pointsTo .charAlt (next :: elems ++ d) then rangesAt (next :: elems ++ d)
            else [] := by
        intro d _
        obtain ⟨type, value⟩ := next
        by_cases htype : type = .charRngUpper
        · subst htype
          rw [if_pos rfl, List.cons_append, rangesAt]
        · rw [if_neg htype, rangesAt]
          rintro upper rest heq
          exact htype (Element.mk.inj (List.cons.inj heq).1).1
      rw [hstep b hb, hstep c hc]
      split
      · cases elems with
        | nil => rw [List.nil_append, List.nil_append, hb.2, hc.2]; rfl
        | cons last elems =>
          rw [List.cons_append, List.cons_append,
            ih elems.length (by simp only [List.length_cons]; omega) last elems rfl]
          rfl
      · rw [List.cons_append, List.cons_append, ih elems.length (by simp) next elems rfl]
        rfl

/-- The symbols of elements, up to an end behind them. -/
def symbols (elems : List Element) : List (CfgSymbol Nat CharClass) := symbolsAt (elems ++ [⟨.end_, 0⟩])

/-- The symbols of an alternate in two parts. -/
theorem symbolsAt_append (ha : Linked n prev a) (halt : ∀ elem ∈ a, elem.type ≠ .alt) (hb : Plain b) :
    symbolsAt (a ++ b) = symbols a ++ symbolsAt b := by
  induction a generalizing prev with
  | nil => rfl
  | cons elem a ih =>
    obtain ⟨_, hne, _, ha⟩ := ha
    obtain ⟨halt, halts⟩ := List.forall_mem_cons.1 halt
    have hclass : classAt (elem :: (a ++ b)) = classAt (elem :: (a ++ [⟨.end_, 0⟩])) := by
      rw [classAt, classAt, rangesAt_append hb plain_end]
      rfl
    rw [symbols, List.cons_append, List.cons_append, symbolsAt, symbolsAt]
    cases htype : elem.type
    case end_ => exact absurd htype hne
    case alt => exact absurd htype halt
    case ruleRef => simp [ih ha halts, symbols]
    case char => simp [ih ha halts, symbols, hclass]
    case charNot => simp [ih ha halts, symbols, hclass]
    case charAny => simp [ih ha halts, symbols, hclass]
    case charRngUpper => simp [ih ha halts, symbols]
    case charAlt => simp [ih ha halts, symbols]

/-- The symbols of copies. -/
theorem symbolsAt_copies (hb : Piece n b) (halt : ∀ elem ∈ b, elem.type ≠ .alt) (hc : Plain c) (count : Nat) :
    symbolsAt ((List.replicate count b).flatten ++ c) = Cfg.times (symbols b) count ++ symbolsAt c := by
  have hplain : ∀ count, Plain ((List.replicate count b).flatten ++ c) := by
    intro count
    refine Piece.plain (n := n) (Piece.flatten (fun d hd => ?_)) hc
    rw [List.eq_of_mem_replicate hd]
    exact hb
  induction count with
  | zero => rfl
  | succ count ih =>
    rw [List.replicate_succ, List.flatten_cons, List.append_assoc, symbolsAt_append (hb .alt) halt (hplain count),
      ih, Cfg.times_succ, List.append_assoc]

/-- What stands in one alternate begins no other. -/
theorem laterForms_append (ha : Linked n prev a) (halt : ∀ elem ∈ a, elem.type ≠ .alt) (b : List Element) :
    laterForms (a ++ b) = laterForms b := by
  induction a generalizing prev with
  | nil => rfl
  | cons elem a ih =>
    obtain ⟨_, hne, _, ha⟩ := ha
    obtain ⟨halt, halts⟩ := List.forall_mem_cons.1 halt
    have hrest := ih ha halts
    rw [List.cons_append, laterForms]
    cases htype : elem.type
    case end_ => exact absurd htype hne
    case alt => exact absurd htype halt
    all_goals exact hrest

/-- The symbols of a reference. -/
theorem symbols_refTo (last : Option Nat) : symbols (refTo last) = (last.map CfgSymbol.ref).toList := by
  cases last <;> rfl

/-- What a rule that is added derives: what is repeated and the next rule, or nothing. -/
theorem forms_moreRule {next : Option Nat} (hb : Piece n b) (halt : ∀ elem ∈ b, elem.type ≠ .alt) :
    forms (moreRule b next) = [symbols b ++ (next.map CfgSymbol.ref).toList, []] := by
  have hnext : ∀ c, Plain c → Plain (refTo next ++ c) := by
    intro c hc
    cases next with
    | none => exact hc
    | some id => exact ⟨rfl, rfl⟩
  have hrefs : ∀ prev, Linked (next.getD 0 + 1) prev (refTo next) := by
    refine piece_refTo (fun id hid => ?_)
    rw [hid, Option.getD_some]
    exact Nat.lt_succ_self id
  have hmore := hb.mono (Nat.le_max_left n (next.getD 0 + 1))
  have hall : Piece (max n (next.getD 0 + 1)) (b ++ refTo next) :=
    hmore.append (Piece.mono hrefs (Nat.le_max_right n _))
  rw [forms, moreRule, laterForms_append (hall .alt) (List.forall_mem_append.2 ⟨halt, refTo_ne_alt next⟩),
    List.append_assoc,
    symbolsAt_append (hb .alt) halt (hnext _ ⟨rfl, rfl⟩),
      symbolsAt_append (hrefs .alt) (refTo_ne_alt next) ⟨rfl, rfl⟩, symbols_refTo]
  simp [symbolsAt, laterForms]

/-! ## What a repetition means -/

/-- What a repetition adds derives what is repeated: any number of times, or at most so many. -/
theorem more_derives {unbounded : Bool} {count : Nat} (h : p.Ok) (hname : 0x5F ∉ name) (hb : Piece p.symbolIds.length b)
    (halt : ∀ elem ∈ b, elem.type ≠ .alt) (hcount : unbounded = true → count = 1)
    (hout : addRepetitions name b unbounded count none p = (last', p')) (hq : Becomes p' q) {w : List Nat} :
    q.cfg.Derives (last'.map CfgSymbol.ref).toList w ↔ ∃ i, (unbounded = false → i ≤ count) ∧
      q.cfg.Derives (Cfg.times (symbols b) i) w := by
  obtain ⟨_, _, hlast, hmore⟩ := addRepetitions_spec count none h hname hb nofun hout
  have hcfg : ∀ i < count, q.cfg.rules (p.symbolIds.length + i) =
    [symbols b ++ ((if unbounded then some (p.symbolIds.length + i) else
      if i = 0 then none else some (p.symbolIds.length + i - 1)).map CfgSymbol.ref).toList, []] := by
    intro i hi
    obtain ⟨hgenerated, hrule⟩ := hmore i hi
    have hkept := hq.kept _ hgenerated
    rw [hrule] at hkept
    exact (hkept (by simp [moreRule])).trans (forms_moreRule hb halt)
  cases unbounded with
  | true =>
    obtain rfl := hcount rfl
    obtain rfl : last' = some p.symbolIds.length := hlast
    refine (Cfg.derives_star_iff (hcfg 0 Nat.one_pos)).trans (exists_congr (fun i => ?_))
    rw [List.append_nil]
    exact ⟨fun h => ⟨nofun, h⟩, And.right⟩
  | false =>
    cases count with
    | zero =>
      obtain rfl : last' = none := hlast
      constructor
      · exact fun h => ⟨0, fun _ => Nat.le_refl 0, h⟩
      · rintro ⟨i, hi, h⟩
        obtain rfl := Nat.le_zero.1 (hi rfl)
        exact h
    | succ count =>
      obtain rfl : last' = some (p.symbolIds.length + count) := hlast
      have hfirst : q.cfg.rules (p.symbolIds.length + 0) = [symbols b, []] := by
        rw [hcfg 0 (Nat.succ_pos count)]
        exact congrArg (fun l => [l, []]) (List.append_nil (symbols b))
      refine (Cfg.derives_chain_iff (f := fun i => p.symbolIds.length + i) hfirst (fun j hj => ?_)).trans ?_
      · exact hcfg (j + 1) (Nat.succ_lt_succ hj)
      · refine exists_congr (fun i => ?_)
        rw [List.append_nil]
        exact ⟨fun h => ⟨fun _ => h.1, h.2⟩, fun h => ⟨h.1 rfl, h.2⟩⟩

/-- How often a repetition says that a symbol stands: a least number that is negative counts as one, and a negative
greatest number is none. The numbers are of 32 bits, and so is their difference. -/
def Often (minTimes maxTimes : Int) (i : Nat) : Prop :=
  (if minTimes < 0 then 1 else minTimes) ≤ i ∧
    (0 ≤ maxTimes → i ≤ (if minTimes < 0 then 1 else minTimes) + max 0 ((maxTimes - minTimes).bmod (2 ^ 32)))

/-- A symbol stands as often as the least number says and up to so many times more. -/
theorem often_iff {minTimes maxTimes : Int} {i : Nat} :
    Often minTimes maxTimes i ↔ ∃ j, i = timesAtLeast minTimes + j ∧
      (decide (maxTimes < 0) = false → j ≤ timesMore minTimes maxTimes) := by
  have hleast : (timesAtLeast minTimes : Int) = if minTimes < 0 then 1 else minTimes := by
    rw [timesAtLeast]
    split <;> split <;> omega
  have hmore : 0 ≤ maxTimes → (timesMore minTimes maxTimes : Int) = max 0 ((maxTimes - minTimes).bmod (2 ^ 32)) := by
    intro hmax
    rw [timesMore, if_neg (Int.not_lt.2 hmax)]
    omega
  rw [Often, ← hleast]
  constructor
  · rintro ⟨hmin, hmax⟩
    refine ⟨i - timesAtLeast minTimes, by omega, fun hbounded => ?_⟩
    have hle := Int.not_lt.1 (of_decide_eq_false hbounded)
    have hmax := hmax hle
    rw [← hmore hle] at hmax
    omega
  · rintro ⟨j, rfl, hj⟩
    refine ⟨by omega, fun hmax => ?_⟩
    have hj := hj (decide_eq_false (Int.not_lt.2 hmax))
    rw [← hmore hmax]
    omega

/-- A repetition takes the place of the last symbol, and derives what that derives, so many times. -/
theorem handleRepetitions_spec (minTimes maxTimes : Int) (h : p.Ok) (hname : 0x5F ∉ name)
    (hb : Piece p.symbolIds.length b) (halt : ∀ elem ∈ b, elem.type ≠ .alt) :
    Gives (fun out => b ≠ [] ∧ Grows p out.2 ∧ ∃ b', out.1 = a ++ b' ∧ Piece out.2.symbolIds.length b' ∧
      (∀ elem ∈ b', elem.type ≠ .alt) ∧ ∀ q, Becomes out.2 q → ∀ w, q.cfg.Derives (symbols b') w ↔
          ∃ i, Often minTimes maxTimes i ∧ q.cfg.Derives (Cfg.times (symbols b) i) w)
      (handleRepetitions name minTimes maxTimes a.length (a ++ b) p) := by
  rcases eq_or_ne b [] with rfl | hne
  · rw [handleRepetitions, if_pos (by simp)]
    exact rfl
  rw [handleRepetitions_eq minTimes maxTimes hne]
  generalize hout : addRepetitions name b (maxTimes < 0) (timesMore minTimes maxTimes) none p = out
  obtain ⟨last, p'⟩ := out
  obtain ⟨hgrows, hlast, _⟩ := addRepetitions_spec _ none h hname hb nofun hout
  have hcopies : Piece p.symbolIds.length (List.replicate (timesAtLeast minTimes) b).flatten := by
    refine Piece.flatten (fun c hc => ?_)
    rw [List.eq_of_mem_replicate hc]
    exact hb
  refine ⟨hne, hgrows, _, List.append_assoc _ _ _, (hcopies.mono hgrows.le).append (piece_refTo hlast), ?_,
    fun q hq w => ?_⟩
  · refine List.forall_mem_append.2 ⟨fun e he => ?_, refTo_ne_alt last⟩
    obtain ⟨c, hc, he⟩ := List.mem_flatten.1 he
    rw [List.eq_of_mem_replicate hc] at he
    exact halt e he
  have hmore : ∀ v, q.cfg.Derives (last.map CfgSymbol.ref).toList v ↔
      ∃ i, (decide (maxTimes < 0) = false → i ≤ timesMore minTimes maxTimes) ∧
      q.cfg.Derives (Cfg.times (symbols b) i) v := by
    refine fun v => more_derives h hname hb halt (fun hunbounded => ?_) hout hq
    rw [timesMore, if_pos (of_decide_eq_true hunbounded)]
    rfl
  have hsymbols : symbols ((List.replicate (timesAtLeast minTimes) b).flatten ++ refTo last) =
      Cfg.times (symbols b) (timesAtLeast minTimes) ++ (last.map CfgSymbol.ref).toList := by
    have hplain : Plain (refTo last ++ [⟨.end_, 0⟩]) := by cases last <;> exact ⟨rfl, rfl⟩
    rw [symbols, List.append_assoc, symbolsAt_copies hb halt hplain, ← symbols, symbols_refTo]
  rw [hsymbols, Cfg.derives_append_iff]
  constructor
  · rintro ⟨u, v, rfl, hu, hv⟩
    obtain ⟨j, hj, hv⟩ := (hmore v).1 hv
    refine ⟨timesAtLeast minTimes + j, often_iff.2 ⟨j, rfl, hj⟩, ?_⟩
    rw [Cfg.times_add]
    exact Cfg.derives_append_iff.2 ⟨u, v, rfl, hu, hv⟩
  · rintro ⟨i, hi, hw⟩
    obtain ⟨j, rfl, hj⟩ := often_iff.1 hi
    rw [Cfg.times_add] at hw
    obtain ⟨u, v, rfl, hu, hv⟩ := Cfg.derives_append_iff.1 hw
    exact ⟨u, v, rfl, hu, (hmore v).2 ⟨j, hj, hv⟩⟩

end Ollama.Llama
