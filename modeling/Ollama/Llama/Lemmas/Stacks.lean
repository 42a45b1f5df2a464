import Ollama.Lib.Outcomes
import Ollama.Llama.Grammar

/-!
# Rules and stacks

Elements are read as symbols: a character range with its alternates and upper bounds is a class of characters, and
rules whose elements follow one another as they should (`Rules.WellFormed`) are a grammar, `Rules.cfg`. A stack is
read as a form, from its top on. What the operations on stacks do is said of these forms.
-/

namespace Ollama.Llama

open Lib

section

/-! ## Classes of characters -/

/-- A range of a class. -/
inductive CharRange where
  | any
  | upto (lo hi : Nat)
  deriving DecidableEq

/-- The characters of a range. -/
def CharRange.Holds : CharRange → Nat → Prop
  | .any, _ => True
  | .upto lo hi, c => lo ≤ c ∧ c ≤ hi

/-- A class of characters: those in some of the ranges, or in none. -/
structure CharClass where
  inverse : Bool
  ranges : List CharRange
  deriving DecidableEq

/-- The characters of a class. -/
def CharClass.Holds (t : CharClass) (c : Nat) : Prop := (∃ r ∈ t.ranges, r.Holds c) ↔ t.inverse = false

/-- The range of an element without an upper bound. -/
def rangeOf (elem : Element) : CharRange := if elem.type = .charAny then .any else .upto elem.value elem.value

/-- The ranges that begin here. -/
def rangesAt : List Element → List CharRange
  | [] => []
  | elem :: elems =>
    match elems with
    | ⟨.charRngUpper, upper⟩ :: elems => .upto elem.value upper :: if pointsTo .charAlt elems
        then rangesAt elems else []
    | elems => rangeOf elem :: if pointsTo .charAlt elems then rangesAt elems else []

/-- The class that begins here. -/
def classAt (elems : List Element) : CharClass := ⟨pointsTo .charNot elems, rangesAt elems⟩

/-! ## Symbols -/

/-- The symbols up to the end of the sequence. What modifies a character is read with it. -/
def symbolsAt : List Element → List (CfgSymbol Nat CharClass)
  | [] => []
  | elem :: elems =>
    match elem.type with
    | .end_ | .alt => []
    | .ruleRef => .ref elem.value :: symbolsAt elems
    | .char | .charNot | .charAny => .term (classAt (elem :: elems)) :: symbolsAt elems
    | .charRngUpper | .charAlt => symbolsAt elems

/-- The grammar of the rules. -/
def Rules.cfg (rules : Rules) : Cfg Nat CharClass Nat where
  rules n := ((rules[n]?).map (fun rule => (altStarts rule).map (fun start => symbolsAt (rule.drop start)))).getD []
  Holds := CharClass.Holds

/-- The form that a stack stands for. -/
def form (rules : Rules) (stack : Stack) : List (CfgSymbol Nat CharClass) :=
  stack.flatMap (fun pos => symbolsAt (rules.from pos))

/-! ## Rules that are well-formed -/

/-- An upper bound follows a character, and an alternate follows a character or an upper bound. -/
def follows : GreType → GreType → Bool
  | prev, .charRngUpper => prev = .char ∨ prev = .charNot ∨ prev = .charAlt
  | prev, .charAlt => prev = .char ∨ prev = .charNot ∨ prev = .charAlt ∨ prev = .charRngUpper
  | _, _ => true

/-- Elements behind one of a type, which end with an end, refer to one of so many rules and follow one another as they
should. -/
def Sound (n : Nat) : GreType → List Element → Prop
  | prev, [] => prev = .end_
  | prev, elem :: elems => follows prev elem.type ∧ (elem.type = .ruleRef → elem.value < n) ∧ Sound n elem.type elems

instance decidableSound (n : Nat) : (prev : GreType) → (elems : List Element) → Decidable (Sound n prev elems)
  | prev, [] => inferInstanceAs (Decidable (prev = .end_))
  | _, elem :: elems =>
    have : Decidable (Sound n elem.type elems) := decidableSound n elem.type elems
    inferInstanceAs (Decidable (_ ∧ _ ∧ _))

/-- All rules are sound. -/
def Rules.WellFormed (rules : Rules) : Prop := ∀ rule ∈ rules, Sound rules.length .alt rule

instance (rules : Rules) : Decidable rules.WellFormed := inferInstanceAs (Decidable (∀ rule ∈ rules, _))

/-- A symbol begins here. -/
def Begins (elems : List Element) : Prop :=
  ∃ elem rest, elems = elem :: rest ∧ (elem.type = .ruleRef ∨ elem.type = .char ∨ elem.type = .charNot ∨
    elem.type = .charAny)

/-- Every pointer of a stack points to where a symbol begins. -/
def Valid (rules : Rules) (stack : Stack) : Prop := ∀ pos ∈ stack, Begins (rules.from pos)

/-- A stack that is left alone until a character is read: it is empty, or a range begins at its top. -/
def Settled (rules : Rules) (stack : Stack) : Prop := Valid rules stack ∧ Cfg.Headed (form rules stack)

variable {rules : Rules} {rule : Rule} {pos : Pos} {stack : Stack} {elem : Element} {elems rest : List Element}
  {prev : GreType}
  {n i chr : Nat}

/-! ## Pointers -/

/-- Further on in a rule there are fewer of its elements left. -/
@[simp] theorem from_add (rules : Rules) (pos : Pos) (n : Nat) : rules.from (pos.add n) = (rules.from pos).drop n := by
  simp [Rules.from, Pos.add, List.drop_drop]

/-- What a position points to is what is left of its rule. -/
theorem from_eq (h : rules[n]? = some rule) (i : Nat) : rules.from ⟨n, i⟩ = rule.drop i := by
  simp [Rules.from, h]

/-- What is left of sound elements is sound. -/
theorem Sound.drop (h : Sound n prev elems) (hrest : elems.drop i = elem :: rest) :
    ∃ prev', Sound n prev' (elem :: rest) := by
  induction i generalizing prev elems with
  | zero =>
    obtain rfl : elems = elem :: rest := hrest
    exact ⟨prev, h⟩
  | succ i ih =>
    cases elems with
    | nil => nomatch hrest
    | cons e elems => exact ih h.2.2 hrest

/-- What a pointer of well-formed rules points to is sound. -/
theorem Rules.WellFormed.sound (h : rules.WellFormed) (hfrom : rules.from pos = elem :: rest) :
    ∃ prev, Sound rules.length prev (elem :: rest) := by
  cases hrule : rules[pos.rule]? with
  | none => simp [Rules.from, hrule] at hfrom
  | some rule =>
    rw [Rules.from, hrule, Option.getD_some] at hfrom
    exact (h rule (List.mem_of_getElem? hrule)).drop hfrom

/-- Behind a type that a second one cannot follow, the second one does not stand. -/
theorem Sound.not_pointsTo (h : Sound n prev elems) {type : GreType} (htype : follows prev type = false) :
    pointsTo type elems = false := by
  cases elems with
  | nil => rfl
  | cons elem elems =>
    refine decide_eq_false (fun heq => ?_)
    have hfollows := h.1
    rw [heq, htype] at hfollows
    nomatch hfollows

/-- Where there is no modifier, the sequence ends or a symbol begins. -/
theorem begins_of_not_pointsTo (hupper : pointsTo .charRngUpper elems = false)
    (halt : pointsTo .charAlt elems = false) :
    isEndOfSequence elems = true ∨ Begins elems := by
  cases elems with
  | nil => exact .inl rfl
  | cons elem rest =>
    rw [isEndOfSequence]
    cases htype : elem.type
    case end_ => exact .inl (by simp)
    case alt => exact .inl (by simp)
    case ruleRef => exact .inr ⟨elem, rest, rfl, .inl htype⟩
    case char => exact .inr ⟨elem, rest, rfl, .inr (.inl htype)⟩
    case charNot => exact .inr ⟨elem, rest, rfl, .inr (.inr (.inl htype))⟩
    case charAny => exact .inr ⟨elem, rest, rfl, .inr (.inr (.inr htype))⟩
    case charRngUpper => exact absurd htype (of_decide_eq_false hupper)
    case charAlt => exact absurd htype (of_decide_eq_false halt)

/-- Behind an element that no modifier can follow, the sequence ends or a symbol begins. -/
theorem Sound.begins (h : Sound n prev elems) (hupper : follows prev .charRngUpper = false)
    (halt : follows prev .charAlt = false) :
    isEndOfSequence elems = true ∨ Begins elems :=
  begins_of_not_pointsTo (h.not_pointsTo hupper) (h.not_pointsTo halt)

/-- At an end there are no symbols. -/
theorem symbolsAt_of_end (h : isEndOfSequence elems = true) : symbolsAt elems = [] := by
  cases elems with
  | nil => rfl
  | cons elem elems =>
    rw [isEndOfSequence, decide_eq_true_eq] at h
    rcases h with h | h <;> simp [symbolsAt, h]

/-- What a pushed pointer adds to the form. -/
theorem form_pushUnlessEnd (rules : Rules) (pos : Pos) (stack : Stack) :
    form rules (pushUnlessEnd rules pos stack) = symbolsAt (rules.from pos) ++ form rules stack := by
  rw [pushUnlessEnd]
  split
  · rename_i h
    rw [symbolsAt_of_end h, List.nil_append]
  · rfl

/-- A position that is pushed unless it is at an end points to where a symbol begins. -/
theorem Valid.pushUnlessEnd (h : Valid rules stack)
    (hpos : isEndOfSequence (rules.from pos) = true ∨ Begins (rules.from pos)) :
    Valid rules (pushUnlessEnd rules pos stack) := by
  rw [Llama.pushUnlessEnd]
  split
  · exact h
  · rename_i hend
    exact List.forall_mem_cons.2 ⟨hpos.resolve_left hend, h⟩

/-! ## Alternates -/

/-- An alternate begins behind the mark before it. -/
theorem sound_of_mem_altStartsFrom {offset : Nat} (h : Sound n prev elems) (hi : i ∈ altStartsFrom offset elems) :
    offset < i ∧ Sound n .alt (elems.drop (i - offset)) := by
  induction elems generalizing offset prev with
  | nil => nomatch hi
  | cons elem elems ih =>
    obtain ⟨_, _, hsound⟩ := h
    have hlater : i ∈ altStartsFrom (offset + 1) elems →
      offset < i ∧ Sound n .alt ((elem :: elems).drop (i - offset)) := by
      intro hi
      obtain ⟨hlt, hdrop⟩ := ih hsound hi
      refine ⟨by omega, ?_⟩
      rwa [show i - offset = i - (offset + 1) + 1 by omega, List.drop_succ_cons]
    rw [altStartsFrom] at hi
    cases htype : elem.type <;> rw [htype] at hi hsound
    case end_ => nomatch hi
    case alt =>
      rcases List.mem_cons.1 hi with rfl | hi
      · refine ⟨Nat.lt_succ_self offset, ?_⟩
        rwa [Nat.add_sub_cancel_left, List.drop_succ_cons, List.drop_zero]
      · exact hlater hi
    all_goals exact hlater hi

/-- From the start of an alternate on, the elements of a sound rule are sound. -/
theorem sound_of_mem_altStarts (h : Sound n .alt rule) (hi : i ∈ altStarts rule) : Sound n .alt (rule.drop i) := by
  rcases List.mem_cons.1 hi with rfl | hi
  · exact h
  · exact (sound_of_mem_altStartsFrom h hi).2

/-! ## Character ranges -/

/-- A range says the characters between its bounds, or any. -/
theorem rangeOf_holds : (rangeOf elem).Holds chr ↔ elem.type = .charAny ∨ elem.value = chr := by
  rw [rangeOf]
  split
  · rename_i h
    simp [CharRange.Holds, h]
  · rename_i h
    simp only [CharRange.Holds, h, false_or]
    omega

/-- The loop finds the characters of the ranges. -/
theorem matchCharLoop_found (chr : Nat) (elems : List Element) :
    (matchCharLoop chr elems).1 = true ↔ ∃ r ∈ rangesAt elems, r.Holds chr := by
  fun_induction matchCharLoop chr elems with
  | case1 => simp [rangesAt]
  | case2 elem upper elems found halt out ih => simp [rangesAt, halt, out, found, ih, CharRange.Holds]
  | case3 elem upper elems found halt => simp [rangesAt, halt, found, CharRange.Holds]
  | case4 elem elems hupper found halt out ih =>
    rw [rangesAt]
    · simp [halt, out, found, ih, rangeOf_holds]
    · exact hupper
  | case5 elem elems hupper found halt =>
    rw [rangesAt]
    · simp [halt, found, rangeOf_holds]
    · exact hupper

/-- A class begins here, or goes on. -/
def InClass (elems : List Element) : Prop :=
  ∃ elem rest, elems = elem :: rest ∧ (elem.type = .char ∨ elem.type = .charNot ∨ elem.type = .charAny ∨
    elem.type = .charAlt)

/-- Where a class goes on, a class is read. -/
theorem inClass_of_alt (h : pointsTo .charAlt elems = true) : InClass elems := by
  cases elems with
  | nil => nomatch h
  | cons elem rest => exact ⟨elem, rest, rfl, .inr (.inr (.inr (of_decide_eq_true h)))⟩

/-- What goes on a class is no symbol of its own. -/
theorem symbolsAt_of_alt (h : pointsTo .charAlt elems = true) : symbolsAt elems = symbolsAt elems.tail := by
  cases elems with
  | nil => nomatch h
  | cons elem rest => simp [symbolsAt, of_decide_eq_true h]

/-- Behind the ranges, the sequence ends or a symbol begins, and what was passed belongs to the class. -/
theorem matchCharLoop_passed (chr : Nat) (h : Sound n prev elems) (hclass : InClass elems) :
    (isEndOfSequence (elems.drop (matchCharLoop chr elems).2) = true ∨
      Begins (elems.drop (matchCharLoop chr elems).2)) ∧
      symbolsAt (elems.drop (matchCharLoop chr elems).2) = symbolsAt elems.tail := by
  fun_induction matchCharLoop chr elems generalizing prev with
  | case1 =>
    obtain ⟨_, _, hnil, _⟩ := hclass
    nomatch hnil
  | case2 =>
    rename_i elem upper elems found halt out ih
    obtain ⟨hbegins, hsymbols⟩ := ih h.2.2.2.2 (inClass_of_alt halt)
    refine ⟨hbegins, ?_⟩
    rw [List.tail_cons, symbolsAt, symbolsAt_of_alt halt]
    exact hsymbols
  | case3 =>
    rename_i elem upper elems found halt
    refine ⟨begins_of_not_pointsTo (h.2.2.2.2.not_pointsTo rfl) (Bool.eq_false_iff.2 halt), ?_⟩
    rw [List.tail_cons, symbolsAt]
    rfl
  | case4 =>
    rename_i elem elems hupper found halt out ih
    obtain ⟨hbegins, hsymbols⟩ := ih h.2.2 (inClass_of_alt halt)
    refine ⟨hbegins, ?_⟩
    rw [List.tail_cons, symbolsAt_of_alt halt]
    exact hsymbols
  | case5 =>
    rename_i elem elems hupper found halt
    refine ⟨begins_of_not_pointsTo ?_ (Bool.eq_false_iff.2 halt), rfl⟩
    cases elems with
    | nil => rfl
    | cons next elems =>
      obtain ⟨type, value⟩ := next
      refine decide_eq_false (fun heq => ?_)
      obtain rfl : type = .charRngUpper := heq
      exact hupper value elems rfl

end

/-!
## Advancing stacks

What `llama_grammar_advance_stack` makes of a stack are the heads of its form, and it makes all of them
(`advanceStack_spec`). It fails only if its recursion is too deep, and then only on a form that is unfolded so often.
-/

section

variable {rules : Rules} {rule : Rule} {pos : Pos} {stack below : Stack} {elem : Element}
  {elems rest : List Element} {prev : GreType}
  {n chr depth : Nat} {newStacks newStacks' : List Stack}

/-- A failure that is not the program's. -/
def isOverflow (e : Failure) : Prop := e = .overflow

/-! ## The range at the top -/

/-- A class begins here. -/
def Opens (elems : List Element) : Prop :=
  ∃ elem rest, elems = elem :: rest ∧ (elem.type = .char ∨ elem.type = .charNot ∨ elem.type = .charAny)

/-- Where a class begins, a class is read. -/
theorem Opens.inClass (h : Opens elems) : InClass elems := by
  obtain ⟨elem, rest, rfl, htype⟩ := h
  refine ⟨elem, rest, rfl, ?_⟩
  rcases htype with h | h | h
  · exact .inl h
  · exact .inr (.inl h)
  · exact .inr (.inr (.inl h))

/-- Where a class begins, it is the first symbol. -/
theorem Opens.symbolsAt (h : Opens elems) : symbolsAt elems = .term (classAt elems) :: Llama.symbolsAt elems.tail := by
  obtain ⟨elem, rest, rfl, htype⟩ := h
  rcases htype with h | h | h <;> simp [Llama.symbolsAt, h]

/-- Where a class begins, whether it is positive is known. -/
theorem Opens.isPositiveChar (h : Opens elems) : isPositiveChar elems = .ok !(classAt elems).inverse := by
  obtain ⟨elem, rest, rfl, htype⟩ := h
  rcases htype with h | h | h <;> simp [Llama.isPositiveChar, classAt, pointsTo, h]

/-- What matching a character says, and what is behind the range. -/
theorem matchChar_spec (hsound : Sound n prev elems) (h : Opens elems) (chr : Nat) :
    ∃ found passed, matchChar elems chr = .ok (found, passed) ∧ (found = true ↔ (classAt elems).Holds chr) ∧
      (isEndOfSequence (elems.drop passed) = true ∨ Begins (elems.drop passed)) ∧
      symbolsAt elems = .term (classAt elems) :: symbolsAt (elems.drop passed) := by
  obtain ⟨hbegins, hsymbols⟩ := matchCharLoop_passed chr hsound h.inClass
  refine ⟨(matchCharLoop chr elems).1 == !(classAt elems).inverse, (matchCharLoop chr elems).2, ?_, ?_, hbegins, ?_⟩
  · rw [matchChar, h.isPositiveChar]
    rfl
  · rw [CharClass.Holds, classAt, ← matchCharLoop_found, beq_iff_eq, ← Bool.not_eq_true', Bool.eq_iff_iff]
  · rw [hsymbols]
    exact h.symbolsAt

/-! ## Settled stacks -/

/-- The empty stack is settled. -/
theorem settled_nil : Settled rules [] := ⟨nofun, trivial⟩

/-- A stack says what is left of its top, and then what is below. -/
theorem form_cons (rules : Rules) (pos : Pos) (below : Stack) :
    form rules (pos :: below) = symbolsAt (rules.from pos) ++ form rules below :=
  List.flatMap_cons

/-- At the top of a settled stack, a class begins. -/
theorem Settled.opens (h : Settled rules (pos :: below)) : Opens (rules.from pos) := by
  obtain ⟨elem, rest, hfrom, htype⟩ := h.1 pos List.mem_cons_self
  refine ⟨elem, rest, hfrom, htype.resolve_left (fun href => ?_)⟩
  have hheaded := h.2
  rw [form_cons, hfrom] at hheaded
  simp [symbolsAt, href, Cfg.Headed] at hheaded

/-- What is below a valid stack's top is valid. -/
theorem Valid.tail (h : Valid rules (pos :: below)) : Valid rules below := (List.forall_mem_cons.1 h).2

/-- A stack with a class at its top is settled. -/
theorem settled_of_opens (h : Valid rules (pos :: below)) (hopens : Opens (rules.from pos)) :
    Settled rules (pos :: below) := by
  refine ⟨h, ?_⟩
  rw [form_cons, hopens.symbolsAt]
  trivial

/-! ## Advancing -/

/-- What advancing a stack adds: the heads of its form. -/
structure Advanced (rules : Rules) (heads : List (CfgSymbol Nat CharClass) → Prop)
    (newStacks newStacks' : List Stack) : Prop where
  settled : ∀ s ∈ newStacks', Settled rules s
  forms : ∀ l, l ∈ newStacks'.map (form rules) ↔ l ∈ newStacks.map (form rules) ∨ heads l

/-- A settled stack is added as it is. -/
theorem advanced_addStack (hnew : ∀ s ∈ newStacks, Settled rules s) (h : Settled rules stack) :
    Advanced rules (rules.cfg.Heads (form rules stack)) newStacks (addStack stack newStacks) := by
  have hmem : ∀ s, s ∈ addStack stack newStacks ↔ s ∈ newStacks ∨ s = stack := by
    intro s
    rw [addStack]
    split
    · rename_i hin
      exact ⟨.inl, fun h => h.elim id (fun heq => heq ▸ hin)⟩
    · rw [List.mem_append, List.mem_singleton]
  refine ⟨fun s hs => ?_, fun l => ?_⟩
  · rcases (hmem s).1 hs with hs | rfl
    · exact hnew s hs
    · exact h
  · rw [Cfg.heads_iff_of_headed h.2]
    simp only [List.mem_map, hmem]
    constructor
    · rintro ⟨s, hs | rfl, rfl⟩
      · exact .inl ⟨s, hs, rfl⟩
      · exact .inr rfl
    · rintro (⟨s, hs, rfl⟩ | rfl)
      · exact ⟨s, .inl hs, rfl⟩
      · exact ⟨stack, .inr rfl, rfl⟩

/-- Stacks are advanced one after another. -/
theorem advanceAll_spec {f : Stack → List Stack → Except Failure (List Stack)} {t : Nat → Stack} {starts : List Nat}
    (hf : ∀ start ∈ starts, ∀ newStacks, (∀ s ∈ newStacks, Settled rules s) →
      Yields isOverflow (Advanced rules (rules.cfg.Heads (form rules (t start))) newStacks) (f (t start) newStacks))
    (hnew : ∀ s ∈ newStacks, Settled rules s) :
    Yields isOverflow (Advanced rules (fun l => ∃ start ∈ starts, rules.cfg.Heads (form rules (t start)) l) newStacks)
      (starts.foldlM (fun newStacks start => f (t start) newStacks) newStacks) := by
  refine yields_foldlM (P := fun done => Advanced rules (fun l => ∃ start ∈ done,
    rules.cfg.Heads (form rules (t start)) l) newStacks)
    ⟨hnew, fun l => by simp⟩ (fun done start hstart newStacks' h => ?_)
  refine (hf start hstart newStacks' h.settled).mono (fun out hout => ⟨hout.settled, fun l => ?_⟩) (fun _ h => h)
  rw [hout.forms, h.forms, or_assoc]
  simp [or_and_right, exists_or]

/-- The stack behind a reference to a rule, with an alternate of the rule on top. -/
theorem ref_stack (hwf : rules.WellFormed) (hvalid : Valid rules (pos :: below)) (hfrom : rules.from pos = elem :: rest)
    (href : elem.type = .ruleRef) (hrule : rules[elem.value]? = some rule) {start : Nat}
    (hstart : start ∈ altStarts rule) :
    Valid rules (pushUnlessEnd rules ⟨elem.value, start⟩ (pushUnlessEnd rules (pos.add 1) below)) ∧
      form rules (pushUnlessEnd rules ⟨elem.value, start⟩ (pushUnlessEnd rules (pos.add 1) below)) =
        symbolsAt (rule.drop start) ++ (symbolsAt rest ++ form rules below) := by
  obtain ⟨prev, hsound⟩ := hwf.sound hfrom
  have hnext : rules.from (pos.add 1) = rest := by
    rw [from_add, hfrom, List.drop_succ_cons, List.drop_zero]
  have hrest : isEndOfSequence rest = true ∨ Begins rest := hsound.2.2.begins (by rw [href]; rfl) (by rw [href]; rfl)
  have halt : isEndOfSequence (rule.drop start) = true ∨ Begins (rule.drop start) :=
    (sound_of_mem_altStarts (hwf rule (List.mem_of_getElem? hrule)) hstart).begins rfl rfl
  constructor
  · refine (hvalid.tail.pushUnlessEnd ?_).pushUnlessEnd ?_
    · rwa [hnext]
    · rwa [from_eq hrule]
  · rw [form_pushUnlessEnd, form_pushUnlessEnd, from_eq hrule, hnext]

/-- The form of a stack with a reference at its top. -/
theorem form_ref (hfrom : rules.from pos = elem :: rest) (href : elem.type = .ruleRef) :
    form rules (pos :: below) = .ref elem.value :: (symbolsAt rest ++ form rules below) := by
  rw [form_cons, hfrom]
  simp [symbolsAt, href]

/-- The grammar has the alternates of a rule that is there. -/
theorem cfg_rules (hrule : rules[n]? = some rule) :
    rules.cfg.rules n = (altStarts rule).map (fun start => symbolsAt (rule.drop start)) := by
  simp [Rules.cfg, hrule]

/-- The alternates behind the first. -/
def laterForms : List Element → List (List (CfgSymbol Nat CharClass))
  | [] => []
  | elem :: elems =>
    match elem.type with
    | .end_ => []
    | .alt => symbolsAt elems :: laterForms elems
    | _ => laterForms elems

/-- The alternates behind the first, read from where they begin. -/
theorem map_altStartsFrom (offset : Nat) (elems : List Element) :
    (altStartsFrom offset elems).map (fun start => symbolsAt (elems.drop (start - offset))) = laterForms elems := by
  have hshift : ∀ (elem : Element) (elems : List Element) offset,
      (altStartsFrom (offset + 1) elems).map (fun start => symbolsAt ((elem :: elems).drop (start - offset))) =
        (altStartsFrom (offset + 1) elems).map (fun start => symbolsAt (elems.drop (start - (offset + 1)))) := by
    intro elem elems offset
    refine List.map_congr_left (fun start hstart => ?_)
    have hlt : ∀ (elems : List Element) offset, ∀ start ∈ altStartsFrom offset elems, offset < start := by
      intro elems
      induction elems with
      | nil => exact fun _ _ h => absurd h List.not_mem_nil
      | cons elem elems ih =>
        intro offset start hstart
        rw [altStartsFrom] at hstart
        split at hstart
        · cases hstart
        · rcases List.mem_cons.1 hstart with rfl | hstart
          · exact Nat.lt_succ_self offset
          · exact Nat.lt_of_succ_lt (ih _ _ hstart)
        · exact Nat.lt_of_succ_lt (ih _ _ hstart)
    have := hlt _ _ _ hstart
    rw [show start - offset = start - (offset + 1) + 1 by omega, List.drop_succ_cons]
  induction elems generalizing offset with
  | nil => rfl
  | cons elem elems ih =>
    rw [altStartsFrom, laterForms]
    cases elem.type
    case end_ => rfl
    case alt =>
      simp only [List.map_cons]
      rw [hshift, ih, Nat.add_sub_cancel_left, List.drop_succ_cons, List.drop_zero]
    all_goals exact (hshift elem elems offset).trans (ih (offset + 1))

/-- The alternates of a rule. -/
theorem cfg_rules_eq (hrule : rules[n]? = some rule) : rules.cfg.rules n = symbolsAt rule :: laterForms rule := by
  rw [cfg_rules hrule, altStarts, List.map_cons, List.drop_zero, ← map_altStartsFrom 0 rule]
  rfl

/-- Advancing a stack adds the heads of its form, or the recursion is too deep. -/
theorem advanceStack_spec (hwf : rules.WellFormed) (hvalid : Valid rules stack)
    (hnew : ∀ s ∈ newStacks, Settled rules s) :
    Yields isOverflow (Advanced rules (rules.cfg.Heads (form rules stack)) newStacks)
      (advanceStack rules depth stack newStacks) := by
  induction depth generalizing stack newStacks with
  | zero => rfl
  | succ depth ih =>
    cases stack with
    | nil => exact advanced_addStack hnew settled_nil
    | cons pos below =>
      obtain ⟨elem, rest, hfrom, htype⟩ := hvalid pos List.mem_cons_self
      rw [advanceStack, hfrom]
      rcases htype with href | hopens
      · obtain ⟨prev, hsound⟩ := hwf.sound hfrom
        have hlt : elem.value < rules.length := hsound.2.1 href
        have hrule : rules[elem.value]? = some rules[elem.value] := List.getElem?_eq_getElem hlt
        simp only [href, hrule]
        have hstack := fun start (hstart : start ∈ altStarts rules[elem.value]) =>
          ref_stack hwf hvalid hfrom href hrule hstart
        refine (advanceAll_spec (f := advanceStack rules depth) (t := fun start =>
            pushUnlessEnd rules ⟨elem.value, start⟩ (pushUnlessEnd rules (pos.add 1) below))
          (fun start hstart newStacks hnew => ih (hstack start hstart).1 hnew) hnew).mono (fun out h =>
            ⟨h.settled, fun l => ?_⟩) (fun _ h => h)
        rw [h.forms, form_ref hfrom href, Cfg.heads_ref_iff, cfg_rules hrule]
        refine or_congr_right ?_
        constructor
        · rintro ⟨start, hstart, hl⟩
          rw [(hstack start hstart).2] at hl
          exact ⟨_, List.mem_map_of_mem hstart, hl⟩
        · rintro ⟨alt, halt, hl⟩
          obtain ⟨start, hstart, rfl⟩ := List.mem_map.1 halt
          refine ⟨start, hstart, ?_⟩
          rwa [(hstack start hstart).2]
      · have hadd := advanced_addStack hnew (settled_of_opens hvalid ⟨elem, rest, hfrom, hopens⟩)
        rcases hopens with h | h | h <;> simp only [h] <;> exact hadd

/-- It is not too deep where the form is unfolded fewer times. -/
theorem advanceStack_of_within (hwf : rules.WellFormed) (hvalid : Valid rules stack)
    (h : rules.cfg.Within depth (form rules stack)) :
    ∃ newStacks', advanceStack rules depth stack newStacks = .ok newStacks' := by
  induction depth generalizing stack newStacks with
  | zero => exact h.elim
  | succ depth ih =>
    cases stack with
    | nil => exact ⟨_, rfl⟩
    | cons pos below =>
      obtain ⟨elem, rest, hfrom, htype⟩ := hvalid pos List.mem_cons_self
      rw [advanceStack, hfrom]
      rcases htype with href | htype
      · obtain ⟨prev, hsound⟩ := hwf.sound hfrom
        have hlt : elem.value < rules.length := hsound.2.1 href
        have hrule : rules[elem.value]? = some rules[elem.value] := List.getElem?_eq_getElem hlt
        simp only [href, hrule]
        rw [form_ref hfrom href] at h
        refine exists_ok_foldlM (fun start hstart newStacks => ?_)
        obtain ⟨hnext, hform⟩ := ref_stack hwf hvalid hfrom href hrule hstart
        refine ih hnext ?_
        rw [hform]
        refine h _ (.mk ?_ _)
        rw [cfg_rules hrule]
        exact List.mem_map_of_mem hstart
      · rcases htype with h | h | h <;> simp only [h] <;> exact ⟨_, rfl⟩

/-- Where advancing a stack comes to an end, its form is unfolded fewer times. -/
theorem within_of_advanceStack (hwf : rules.WellFormed) (hvalid : Valid rules stack)
    (h : advanceStack rules depth stack newStacks = .ok newStacks') :
    rules.cfg.Within depth (form rules stack) := by
  induction depth generalizing stack newStacks newStacks' with
  | zero => nomatch h
  | succ depth ih =>
    cases stack with
    | nil => exact fun l hl => nomatch hl
    | cons pos below =>
      obtain ⟨elem, rest, hfrom, htype⟩ := hvalid pos List.mem_cons_self
      rcases htype with href | hopens
      · obtain ⟨prev, hsound⟩ := hwf.sound hfrom
        have hlt : elem.value < rules.length := hsound.2.1 href
        have hrule : rules[elem.value]? = some rules[elem.value] := List.getElem?_eq_getElem hlt
        rw [advanceStack, hfrom] at h
        simp only [href, hrule] at h
        rw [form_ref hfrom href]
        intro l hl
        cases hl with
        | mk halt =>
          rw [cfg_rules hrule] at halt
          obtain ⟨start, hstart, rfl⟩ := List.mem_map.1 halt
          obtain ⟨hnext, hform⟩ := ref_stack hwf hvalid hfrom href hrule hstart
          obtain ⟨_, _, hcall⟩ := exists_ok_of_foldlM h hstart
          rw [← hform]
          exact ih hnext hcall
      · have hsettled := settled_of_opens hvalid ⟨elem, rest, hfrom, hopens⟩
        exact Cfg.within_of_headed hsettled.2 depth

end

/-!
## What is left after a text

The stacks of a grammar are what is left of its first rule after the characters that were accepted (`After`): so it is
for the first stacks, and so it stays when a character is accepted.
-/

section

variable {rules : Rules} {rule : Rule} {pos : Pos} {stack below : Stack} {root chr depth : Nat} {text u : List Nat}
  {newStacks : List Stack} {stks stks' : List Stack}

/-- The stacks are what is left of a rule after a text. -/
structure After (rules : Rules) (root : Nat) (text : List Nat) (stks : List Stack) : Prop where
  settled : ∀ s ∈ stks, Settled rules s
  forms : ∀ l, l ∈ stks.map (form rules) ↔ rules.cfg.Reads [.ref root] text l

/-- The stack behind the class at the top of a settled stack. -/
theorem stack_behind (hwf : rules.WellFormed) (h : Settled rules (pos :: below)) (chr : Nat) :
    ∃ t found passed, matchChar (rules.from pos) chr = .ok (found, passed) ∧ (found = true ↔ t.Holds chr) ∧
      t = classAt (rules.from pos) ∧ Valid rules (pushUnlessEnd rules (pos.add passed) below) ∧
      form rules (pos :: below) = .term t :: form rules (pushUnlessEnd rules (pos.add passed) below) := by
  have hopens := h.opens
  obtain ⟨elem, rest, hfrom, _⟩ := hopens
  obtain ⟨prev, hsound⟩ := hwf.sound hfrom
  rw [← hfrom] at hsound
  obtain ⟨found, passed, hmatch, hfound, hbegins, hsymbols⟩ := matchChar_spec hsound h.opens chr
  refine ⟨classAt (rules.from pos), found, passed, hmatch, hfound, rfl, ?_, ?_⟩
  · exact h.1.tail.pushUnlessEnd (by rwa [from_add])
  · rw [form_cons, hsymbols, form_pushUnlessEnd, from_add, List.cons_append]

/-- What a stack becomes when a character is accepted. -/
theorem acceptStack_spec (hwf : rules.WellFormed) (h : Settled rules stack) (hnew : ∀ s ∈ newStacks, Settled rules s) :
    Yields isOverflow
      (Advanced rules (fun l => ∃ t k, form rules stack = .term t :: k ∧ t.Holds chr ∧ rules.cfg.Heads k l) newStacks)
      (acceptStack depth rules chr newStacks stack) := by
  cases stack with
  | nil => exact ⟨hnew, fun l => by simp [form]⟩
  | cons pos below =>
    obtain ⟨t, found, passed, hmatch, hfound, _, hvalid, hform⟩ := stack_behind hwf h chr
    rw [acceptStack, hmatch]
    cases found with
    | true =>
      refine (advanceStack_spec hwf hvalid hnew).mono (fun out hout => ⟨hout.settled, fun l => ?_⟩) (fun _ h => h)
      rw [hout.forms, hform]
      refine or_congr_right ⟨fun hl => ⟨t, _, rfl, hfound.1 rfl, hl⟩, ?_⟩
      rintro ⟨t', k, heq, _, hl⟩
      obtain ⟨_, rfl⟩ := List.cons.inj heq
      exact hl
    | false =>
      refine ⟨hnew, fun l => ?_⟩
      rw [hform, or_iff_left]
      rintro ⟨t', k, heq, hholds, _⟩
      obtain ⟨ht, rfl⟩ := List.cons.inj heq
      obtain rfl := CfgSymbol.term.inj ht
      exact Bool.false_ne_true (hfound.2 hholds)

/-- One more character. -/
theorem After.accept (hwf : rules.WellFormed) (h : After rules root text stks) :
    Yields isOverflow (After rules root (text ++ [chr])) (accept depth rules stks chr) := by
  have hfold := yields_foldlM (E := isOverflow) (f := acceptStack depth rules chr) (l := stks)
    (P := fun done => Advanced rules (fun l => ∃ t k, .term t :: k ∈ done.map (form rules) ∧ t.Holds chr ∧
      rules.cfg.Heads k l) [])
    (b := []) ⟨nofun, fun l => by simp⟩ (fun done stack hstack newStacks hdone => by
      refine (acceptStack_spec hwf (h.settled stack hstack) hdone.settled).mono
        (fun out hout => ⟨hout.settled, fun l => ?_⟩) (fun _ h => h)
      rw [hout.forms, hdone.forms, or_assoc]
      simp only [List.map_append, List.mem_append, List.map_cons, List.map_nil, List.mem_singleton, or_and_right,
        exists_or, eq_comm])
  refine hfold.mono (fun out hout => ⟨hout.settled, fun l => ?_⟩) (fun _ h => h)
  rw [hout.forms, Cfg.reads_snoc_iff]
  simp only [List.map_nil, List.not_mem_nil, false_or, h.forms]
  rfl

/-- So many more characters. -/
theorem After.acceptAll (hwf : rules.WellFormed) (h : After rules root text stks) :
    Yields isOverflow (After rules root (text ++ u)) (u.foldlM (Llama.accept depth rules) stks) := by
  refine yields_foldlM (P := fun done => After rules root (text ++ done)) ?_ (fun done chr _ stks hdone => ?_)
  · rwa [List.append_nil]
  · rw [← List.append_assoc]
    exact hdone.accept hwf

/-- An alternate of the first rule, as a stack. -/
theorem root_stack (hwf : rules.WellFormed) (hrule : rules[root]? = some rule) {start : Nat}
    (hstart : start ∈ altStarts rule) :
    Valid rules (pushUnlessEnd rules ⟨root, start⟩ []) ∧ form rules (pushUnlessEnd rules ⟨root, start⟩ []) =
      symbolsAt (rule.drop start) := by
  have hsound := sound_of_mem_altStarts (hwf _ (List.mem_of_getElem? hrule)) hstart
  constructor
  · refine settled_nil.1.pushUnlessEnd ?_
    rw [from_eq hrule]
    exact hsound.begins rfl rfl
  · rw [form_pushUnlessEnd, from_eq hrule]
    exact List.append_nil _

/-- The first stacks. -/
theorem initStacks_spec (hwf : rules.WellFormed) (hroot : root < rules.length) :
    Yields isOverflow (After rules root []) (initStacks depth rules root) := by
  have hrule : rules[root]? = some rules[root] := List.getElem?_eq_getElem hroot
  rw [initStacks, hrule]
  refine (advanceAll_spec (f := advanceStack rules depth) (t := fun start => pushUnlessEnd rules ⟨root, start⟩ [])
    (fun start hstart newStacks hnew => advanceStack_spec hwf (root_stack hwf hrule hstart).1 hnew)
      (fun _ hs => absurd hs List.not_mem_nil)).mono
      (fun out h => ⟨h.settled, fun l => ?_⟩) (fun _ h => h)
  rw [h.forms, Cfg.Reads, Cfg.heads_ref_iff, cfg_rules hrule]
  simp only [List.map_nil, List.not_mem_nil, false_or, List.mem_map, exists_exists_and_eq_and, List.append_nil]
  exact exists_congr (fun start => and_congr_right (fun hstart => by rw [(root_stack hwf hrule hstart).2]))

/-- The texts that can follow are those of the stacks. -/
theorem After.derives_iff (h : After rules root text stks) :
    rules.cfg.Derives [.ref root] (text ++ u) ↔ ∃ s ∈ stks, rules.cfg.Derives (form rules s) u := by
  rw [Cfg.derives_append_text]
  simp only [← h.forms, List.mem_map, exists_exists_and_eq_and]

/-- A stack whose form is empty is empty. -/
theorem Valid.eq_nil (hvalid : Valid rules stack) (h : form rules stack = []) : stack = [] := by
  cases stack with
  | nil => rfl
  | cons pos below =>
    obtain ⟨elem, rest, hfrom, htype⟩ := hvalid pos List.mem_cons_self
    rw [form_cons, hfrom] at h
    rcases htype with htype | htype | htype | htype <;> simp [symbolsAt, htype] at h

/-- A stack is empty exactly if the text is a sentence. -/
theorem After.nil_mem_iff (h : After rules root text stks) : [] ∈ stks ↔ rules.cfg.Derives [.ref root] text := by
  rw [← Cfg.reads_nil_iff, ← h.forms, List.mem_map]
  constructor
  · exact fun hmem => ⟨[], hmem, rfl⟩
  · rintro ⟨s, hs, hform⟩
    rwa [(h.settled s hs).1.eq_nil hform] at hs

end

end Ollama.Llama
