import Mathlib.Data.List.TakeWhile
import Ollama.Llama.Lemmas.Stacks
import Ollama.Llama.Theorems.Language

/-!
# Left recursion

The rules that `llama_grammar_init_impl` refuses are those of which one leads back to itself behind rules with an
empty alternate (`leftRecursive_iff`). Texts can be processed from every rule exactly if no rule leads back to itself
behind what can be nothing (`accept_halts_iff`). Where every rule that can be nothing has an empty alternate, the two
are the same (`leftRecursive_iff_accepts`); elsewhere rules are let through whose stacks cannot be built
(`indirect_overflow`).
-/

namespace Ollama.Llama

open Lib

section

variable {rules : Rules} {rule : Rule} {elem : Element} {elems body : List Element} {prev : GreType}
  {n m calls offset : Nat}
  {flags : Flags} {recurse atStart : Bool} {detect : Nat → Flags → Except Failure (Bool × Flags)}

/-! ## Empty alternates -/

/-- Elements up to an end. -/
def Closed (elems : List Element) : Prop := ∃ body, elems = body ++ [⟨.end_, 0⟩] ∧ ∀ elem ∈ body, elem.type ≠ .end_

/-- A copied rule has its end. -/
theorem closed_copyRule (rule : Rule) : Closed (copyRule rule) :=
  ⟨_, rfl, fun _ h => of_decide_eq_true (List.mem_takeWhile_imp (p := fun elem : Element => elem.type ≠ .end_) h)⟩

/-- At the beginning of an alternate, or behind a rule, no modifier follows. -/
theorem Sound.begins_of_start (h : Sound n prev elems) (hprev : prev = .alt ∨ prev = .ruleRef) :
    isEndOfSequence elems = true ∨ Begins elems := by
  rcases hprev with rfl | rfl <;> exact h.begins rfl rfl

/-- A sequence without symbols is at its end. -/
theorem symbolsAt_eq_nil_iff (hbegins : isEndOfSequence elems = true ∨ Begins elems) :
    symbolsAt elems = [] ↔ isEndOfSequence elems = true := by
  refine ⟨fun h => hbegins.resolve_right ?_, symbolsAt_of_end⟩
  rintro ⟨elem, rest, rfl, htype | htype | htype | htype⟩ <;> simp [symbolsAt, htype] at h

/-- The loop finds an empty alternate. -/
theorem hasEmptyAlternate_iff (hsound : Sound n prev elems) (hclosed : Closed elems)
    (hstart : atStart = true → prev = .alt) :
    hasEmptyAlternate atStart elems = true ↔ (atStart = true ∧ symbolsAt elems = []) ∨ [] ∈ laterForms elems := by
  obtain ⟨body, rfl, hbody⟩ := hclosed
  induction body generalizing prev atStart with
  | nil => simp [hasEmptyAlternate, isEndOfSequence, symbolsAt, laterForms]
  | cons elem body ih =>
    obtain ⟨hne, hbody⟩ := List.forall_mem_cons.1 hbody
    obtain ⟨hfollows, href, hrest⟩ := hsound
    have hsymbols : atStart = true → (symbolsAt (elem :: (body ++ [⟨.end_, 0⟩])) = [] ↔
      isEndOfSequence (elem :: (body ++ [⟨.end_, 0⟩])) = true) :=
      fun h => symbolsAt_eq_nil_iff (Sound.begins_of_start ⟨hfollows, href, hrest⟩ (.inl (hstart h)))
    rw [List.cons_append, hasEmptyAlternate]
    by_cases hend : isEndOfSequence (elem :: (body ++ [⟨.end_, 0⟩])) = true
    · have halt : elem.type = .alt := by
        rw [isEndOfSequence, decide_eq_true_eq] at hend
        exact hend.resolve_left hne
      rw [if_pos hend, laterForms, halt]
      cases atStart with
      | true => simp [(hsymbols rfl).2 hend]
      | false =>
        rw [if_neg Bool.false_ne_true, ih (fun _ => rfl) hbody (halt ▸ hrest), List.mem_cons, eq_comm (a := [])]
        simp
    · have hlater : laterForms (elem :: (body ++ [⟨.end_, 0⟩])) = laterForms (body ++ [⟨.end_, 0⟩]) := by
        rw [laterForms]
        cases htype : elem.type <;> simp_all [isEndOfSequence]
      rw [if_neg hend, ih (fun h : false = true => absurd h Bool.false_ne_true) hbody hrest, hlater]
      refine or_congr_left (iff_of_false (fun h => Bool.false_ne_true h.1) (fun h => hend ((hsymbols h.1).1 h.2)))

/-! ## Leftmost rules -/

/-- A rule that a form has at its beginning, or behind rules with an empty alternate. -/
def Leftmost (rules : Rules) (k : List (CfgSymbol Nat CharClass)) (m : Nat) : Prop :=
  ∃ pre post, k = pre ++ .ref m :: post ∧ ∀ s ∈ pre, ∃ n, s = .ref n ∧ [] ∈ rules.cfg.rules n

/-- Nothing is leftmost in the empty form. -/
theorem not_leftmost_nil : ¬Leftmost rules [] m := by
  rintro ⟨pre, post, h, _⟩
  cases pre <;> nomatch h

/-- No name is leftmost behind a terminal. -/
theorem not_leftmost_term {t : CharClass} {k : List (CfgSymbol Nat CharClass)} : ¬Leftmost rules (.term t :: k) m := by
  rintro ⟨pre, post, h, hpre⟩
  cases pre with
  | nil => nomatch h
  | cons s pre =>
    obtain ⟨rfl, _⟩ := List.cons.inj h
    obtain ⟨_, hs, _⟩ := hpre _ List.mem_cons_self
    nomatch hs

/-- The first name is leftmost, and what follows it if the name has an empty alternate. -/
theorem leftmost_ref_iff {k : List (CfgSymbol Nat CharClass)} :
    Leftmost rules (.ref n :: k) m ↔ m = n ∨ ([] ∈ rules.cfg.rules n ∧ Leftmost rules k m) := by
  constructor
  · rintro ⟨pre, post, h, hpre⟩
    cases pre with
    | nil =>
      obtain ⟨hs, _⟩ := List.cons.inj h
      exact .inl (CfgSymbol.ref.inj hs).symm
    | cons s pre =>
      obtain ⟨rfl, rfl⟩ := List.cons.inj h
      obtain ⟨⟨_, hs, hempty⟩, hpre⟩ := List.forall_mem_cons.1 hpre
      obtain rfl := CfgSymbol.ref.inj hs
      exact .inr ⟨hempty, pre, post, rfl, hpre⟩
  · rintro (rfl | ⟨hempty, pre, post, rfl, hpre⟩)
    · exact ⟨[], k, rfl, nofun⟩
    · exact ⟨.ref n :: pre, post, rfl, List.forall_mem_cons.2 ⟨⟨n, rfl, hempty⟩, hpre⟩⟩

/-- A rule leads directly to the leftmost ones of its alternates. -/
theorem leadsDirectly_iff (hrule : rules[n]? = some rule) :
    rules.cfg.LeadsDirectly n m ↔ Leftmost rules (symbolsAt rule) m ∨ ∃ alt ∈ laterForms rule,
      Leftmost rules alt m := by
  rw [Cfg.LeadsDirectly, cfg_rules_eq hrule]
  exact List.exists_mem_cons_iff ..

/-- The leftmost rules of the alternates that begin behind elements, and of the one they are in, if nothing of it is
before them. -/
def Explored (rules : Rules) (recurse : Bool) (elems : List Element) (m : Nat) : Prop :=
  (recurse = true ∧ Leftmost rules (symbolsAt elems) m) ∨ ∃ alt ∈ laterForms elems, Leftmost rules alt m

/-- The names that are explored in a rule are those it leads to directly. -/
theorem explored_rule (hrule : rules[n]? = some rule) : Explored rules true rule m ↔ rules.cfg.LeadsDirectly n m := by
  rw [leadsDirectly_iff hrule, Explored, eq_self_iff_true, true_and]

/-- Behind a reference that is followed, the search goes on in the alternate if it may be empty. -/
theorem explored_ref (href : elem.type = .ruleRef) :
    Explored rules true (elem :: elems) m ↔
      m = elem.value ∨ ([] ∈ rules.cfg.rules elem.value ∧ Leftmost rules (symbolsAt elems) m) ∨
        ∃ alt ∈ laterForms elems, Leftmost rules alt m := by
  simp only [Explored, symbolsAt, laterForms, href, leftmost_ref_iff, true_and, or_assoc]

/-- Behind any other element, it goes on in the next alternate. -/
theorem explored_cons (hsound : Sound n prev (elem :: elems)) (hstart : recurse = true → prev = .alt ∨ prev = .ruleRef)
    (hne : elem.type ≠ .end_) (hcall : ¬(elem.type = .ruleRef ∧ recurse = true)) :
    Explored rules recurse (elem :: elems) m ↔ Explored rules (isEndOfSequence (elem :: elems)) elems m := by
  have hmodifier : ∀ type, (elem.type = type) → follows .alt type = false → follows .ruleRef type = false →
    recurse = false := by
    rintro type rfl halt href
    have hfollows := hsound.1
    refine Bool.eq_false_iff.2 (fun hrecurse => ?_)
    rcases hstart hrecurse with rfl | rfl
    · exact Bool.false_ne_true (halt.symm.trans hfollows)
    · exact Bool.false_ne_true (href.symm.trans hfollows)
  rw [Explored, Explored, isEndOfSequence, symbolsAt, laterForms]
  cases htype : elem.type
  case end_ => exact absurd htype hne
  case alt => simp [not_leftmost_nil]
  case ruleRef =>
    have hrecurse : recurse = false := Bool.eq_false_iff.2 (fun h => hcall ⟨htype, h⟩)
    simp [hrecurse]
  case char => simp [not_leftmost_term]
  case charNot => simp [not_leftmost_term]
  case charAny => simp [not_leftmost_term]
  case charRngUpper => simp [hmodifier _ htype rfl rfl]
  case charAlt => simp [hmodifier _ htype rfl rfl]

/-! ## The search -/

/-- Every rule leads back directly only through finitely many others. -/
def Ends (rules : Rules) (n : Nat) : Prop := Acc (fun m n => rules.cfg.LeadsDirectly n m) n

/-- What holds of the vectors: a rule that is marked as empty has an empty alternate, and a visited one has been
followed to its end. -/
structure Flagged (rules : Rules) (flags : Flags) : Prop where
  visited : flags.visited.length = rules.length
  inProgress : flags.inProgress.length = rules.length
  mayBeEmpty : flags.mayBeEmpty.length = rules.length
  empty : ∀ k, flags.mayBeEmpty.getD k false = true → [] ∈ rules.cfg.rules k
  ends : ∀ k, flags.visited.getD k false = true → Ends rules k

/-- What a search that finds nothing leaves behind. -/
structure Passed (rules : Rules) (flags flags' : Flags) : Prop where
  flagged : Flagged rules flags'
  same : flags'.inProgress = flags.inProgress
  keeps : ∀ k, flags.mayBeEmpty.getD k false = true → flags'.mayBeEmpty.getD k false = true

/-- A search comes back to a rule that is in progress, or there is one that leads to itself. -/
def Hits (rules : Rules) (inProgress : List Bool) (n : Nat) : Prop :=
  (∃ m, inProgress.getD m false = true ∧ Relation.ReflTransGen rules.cfg.LeadsDirectly n m) ∨
    ∃ m, Relation.TransGen rules.cfg.LeadsDirectly m m

/-- What the search behind a rule says. -/
structure Looked (rules : Rules) (n : Nat) (flags : Flags) (out : Bool × Flags) : Prop where
  hits : out.1 = true → Hits rules flags.inProgress n
  passed : out.1 = false → Passed rules flags out.2
  ends : out.1 = false → Ends rules n
  empty : out.1 = false → [] ∈ rules.cfg.rules n → out.2.mayBeEmpty.getD n false = true

/-- The recursion is too deep, and there are more rules than calls that are not in progress. -/
def TooDeep (calls : Nat) (inProgress : List Bool) (e : Failure) : Prop :=
  e = .overflow ∧ calls ≤ inProgress.count false

/-- A search that does nothing passes. -/
theorem Passed.refl (h : Flagged rules flags) : Passed rules flags flags := ⟨h, rfl, fun _ h => h⟩

/-- Two searches that pass do so one after the other. -/
theorem Passed.trans {flags₁ flags₂ flags₃ : Flags} (h : Passed rules flags₁ flags₂) (h' : Passed rules flags₂ flags₃) :
    Passed rules flags₁ flags₃ :=
  ⟨h'.flagged, h'.same.trans h.same, fun k hk => h'.keeps k (h.keeps k hk)⟩

/-- The loop over the elements looks behind the leftmost rules. -/
theorem detectElements_spec (hsound : Sound rules.length prev elems) (hclosed : Closed elems)
    (hstart : recurse = true → prev = .alt ∨ prev = .ruleRef) {inProgress : List Bool}
    (hdetect : ∀ m < rules.length, ∀ flags, Flagged rules flags → flags.inProgress = inProgress →
      Yields (TooDeep calls inProgress) (Looked rules m flags) (detect m flags))
    (hflags : Flagged rules flags) (hsame : flags.inProgress = inProgress) :
    Yields (TooDeep calls inProgress) (fun out =>
        (out.1 = true → ∃ m, Explored rules recurse elems m ∧ Hits rules inProgress m) ∧
        (out.1 = false → Passed rules flags out.2 ∧ ∀ m, Explored rules recurse elems m → Ends rules m))
      (detectElements detect recurse elems flags) := by
  obtain ⟨body, rfl, hbody⟩ := hclosed
  induction body generalizing prev recurse flags with
  | nil =>
    refine ⟨nofun, fun _ => ⟨.refl hflags, ?_⟩⟩
    rintro m (⟨_, h⟩ | ⟨alt, h, _⟩)
    · exact absurd h not_leftmost_nil
    · nomatch h
  | cons elem body ih =>
    obtain ⟨hne, hbody⟩ := List.forall_mem_cons.1 hbody
    rw [List.cons_append] at hsound ⊢
    rw [detectElements]
    by_cases hcall : elem.type = .ruleRef ∧ recurse = true
    · obtain ⟨href, rfl⟩ := hcall
      rw [if_pos ⟨href, rfl⟩]
      refine (hdetect elem.value (hsound.2.1 href) flags hflags hsame).bind ?_
      rintro ⟨found, flags'⟩ hlooked
      cases found with
      | true => exact ⟨fun _ => ⟨elem.value, (explored_ref href).2 (.inl rfl), hsame ▸ hlooked.hits rfl⟩, nofun⟩
      | false =>
        have hpassed := hlooked.passed rfl
        have hempty : flags'.mayBeEmpty.getD elem.value false = true ↔ [] ∈ rules.cfg.rules elem.value :=
          ⟨hpassed.flagged.empty _, hlooked.empty rfl⟩
        have hexplored : ∀ m, Explored rules true (elem :: (body ++ [⟨.end_, 0⟩])) m ↔
            m = elem.value ∨ Explored rules (flags'.mayBeEmpty.getD elem.value false) (body ++ [⟨.end_, 0⟩]) m := by
          intro m
          rw [explored_ref href, Explored, hempty]
        change Yields _ _ (detectElements detect (flags'.mayBeEmpty.getD elem.value false)
          (body ++ [⟨.end_, 0⟩]) flags')
        refine (ih (fun _ => .inr href) hpassed.flagged (hpassed.same.trans hsame) hbody hsound.2.2).mono ?_
          (fun _ h => h)
        rintro out ⟨hhit, hpass⟩
        refine ⟨fun h => ?_, fun h => ?_⟩
        · obtain ⟨m, hm, hhits⟩ := hhit h
          exact ⟨m, (hexplored m).2 (.inr hm), hhits⟩
        · obtain ⟨hpassed', hends⟩ := hpass h
          refine ⟨hpassed.trans hpassed', fun m hm => ?_⟩
          rcases (hexplored m).1 hm with rfl | hm
          · exact hlooked.ends rfl
          · exact hends m hm
    · rw [if_neg hcall]
      simp only [explored_cons hsound hstart hne hcall]
      refine ih (fun hend => ?_) hflags hsame hbody hsound.2.2
      rw [isEndOfSequence, decide_eq_true_eq] at hend
      exact .inl (hend.resolve_left hne)

/-- After a flag is set it is the one of its index. -/
theorem getD_set (l : List Bool) (i j : Nat) (b : Bool) :
    (l.set i b).getD j false = if i = j ∧ i < l.length then b else l.getD j false := by
  rw [List.getD_eq_getElem?_getD, List.getD_eq_getElem?_getD, List.getElem?_set]
  by_cases hij : i = j
  · subst hij
    by_cases hlt : i < l.length
    · simp [hlt]
    · simp [hlt]
  · simp [hij]

/-- A rule that is entered is in progress, and there are fewer that are not. -/
theorem count_set {l : List Bool} (hlt : n < l.length) (h : l.getD n false = false) :
    (l.set n true).count false + 1 = l.count false := by
  have hget : l[n] = false := by simpa [List.getD_eq_getElem?_getD, hlt] using h
  rw [List.count_set hlt, hget]
  have hpos : 0 < l.count false := List.count_pos_iff.2 (hget ▸ List.getElem_mem hlt)
  simp
  omega

/-- A rule that is left is as it was. -/
theorem set_set_false {l : List Bool} (h : l.getD n false = false) : (l.set n true).set n false = l := by
  rw [List.set_set]
  refine List.ext_getElem? (fun i => ?_)
  rw [List.getElem?_set]
  split
  · rename_i hi
    subst hi
    split
    · rename_i hlt
      have hget : l[n] = false := by simpa [List.getD_eq_getElem?_getD, hlt] using h
      rw [List.getElem?_eq_getElem hlt, hget]
    · rename_i hlt
      rw [List.getElem?_eq_none (Nat.le_of_not_lt hlt)]
  · rfl

/-- A rule is entered, and marked as empty if it has an empty alternate. -/
theorem Flagged.enter (h : Flagged rules flags) (hn : n < rules.length)
    (hempty : atStart = true ↔ [] ∈ rules.cfg.rules n) :
    ∃ flags', (if atStart then { flags with
      inProgress := flags.inProgress.set n true, mayBeEmpty := flags.mayBeEmpty.set n true }
        else { flags with inProgress := flags.inProgress.set n true }) = flags' ∧
      Flagged rules flags' ∧ flags'.inProgress = flags.inProgress.set n true ∧
      (∀ k, flags.mayBeEmpty.getD k false = true → flags'.mayBeEmpty.getD k false = true) ∧
      ([] ∈ rules.cfg.rules n → flags'.mayBeEmpty.getD n false = true) := by
  cases atStart with
  | true =>
    have hmark : ∀ k, (flags.mayBeEmpty.set n true).getD k false = true ↔
      n = k ∨ flags.mayBeEmpty.getD k false = true := by
      intro k
      rw [getD_set, h.mayBeEmpty]
      split <;> simp_all
    refine ⟨_, rfl, ⟨h.visited, by simpa using h.inProgress, by simpa using h.mayBeEmpty, fun k hk => ?_, h.ends⟩, rfl,
      fun k hk => (hmark k).2 (.inr hk), fun _ => (hmark n).2 (.inl rfl)⟩
    rcases (hmark k).1 hk with rfl | hk
    · exact hempty.1 rfl
    · exact h.empty k hk
  | false =>
    exact ⟨_, rfl, ⟨h.visited, by simpa using h.inProgress, h.mayBeEmpty, h.empty, h.ends⟩, rfl, fun _ h => h,
      fun h => nomatch hempty.2 h⟩

/-- The search behind a rule. -/
theorem detectLeftRecursion_spec (hwf : rules.WellFormed) (hclosed : ∀ rule ∈ rules, Closed rule)
    (hn : n < rules.length) (hflags : Flagged rules flags) :
    Yields (TooDeep calls flags.inProgress) (Looked rules n flags) (detectLeftRecursion rules calls n flags) := by
  induction calls generalizing n flags with
  | zero => exact ⟨rfl, Nat.zero_le _⟩
  | succ calls ih =>
    have hrule : rules[n]? = some rules[n] := List.getElem?_eq_getElem hn
    have hsound := hwf rules[n] (List.getElem_mem hn)
    have hclosedRule := hclosed rules[n] (List.getElem_mem hn)
    rw [detectLeftRecursion, hrule]
    cases hprogress : flags.inProgress.getD n false with
    | true => exact ⟨fun _ => .inl ⟨n, hprogress, .refl⟩, nofun, nofun, nofun⟩
    | false =>
      have hempty : hasEmptyAlternate true rules[n] = true ↔ [] ∈ rules.cfg.rules n := by
        rw [hasEmptyAlternate_iff hsound hclosedRule (fun _ => rfl), cfg_rules_eq hrule, List.mem_cons,
          eq_comm (a := [])]
        simp
      obtain ⟨flags₁, henter, hflags₁, hsame₁, hkeeps₁, hempty₁⟩ := hflags.enter hn hempty
      have hcount := count_set (hflags.inProgress ▸ hn) hprogress
      simp only [Bool.false_eq_true, if_false]
      rw [henter]
      have hdeep : ∀ e, TooDeep calls (flags.inProgress.set n true) e → TooDeep (calls + 1) flags.inProgress e := by
        rintro e ⟨he, hle⟩
        exact ⟨he, by omega⟩
      refine ((detectElements_spec hsound hclosedRule (fun _ => .inl rfl)
        (fun m hm flags hflags hsame => hsame ▸ ih hm hflags) hflags₁
        hsame₁).mono (fun _ h => h) hdeep).bind ?_
      rintro ⟨found, flags₂⟩ ⟨hhit, hpass⟩
      cases found with
      | true =>
        refine ⟨fun _ => ?_, nofun, nofun, nofun⟩
        obtain ⟨m, hm, ⟨k, hk, hreaches⟩ | hcycle⟩ := hhit rfl
        · have hleads := (explored_rule hrule).1 hm
          rw [getD_set] at hk
          split at hk
          · rename_i heq
            obtain ⟨rfl, _⟩ := heq
            exact .inr ⟨n, .head' hleads hreaches⟩
          · exact .inl ⟨k, hk, .head hleads hreaches⟩
        · exact .inr hcycle
      | false =>
        obtain ⟨hpassed, hends⟩ := hpass rfl
        have hend : Ends rules n := Acc.intro n (fun m hm => hends m ((explored_rule hrule).2 hm))
        refine ⟨nofun, fun _ => ⟨⟨?_, ?_, hpassed.flagged.mayBeEmpty, hpassed.flagged.empty, fun k hk => ?_⟩, ?_,
          fun k hk => hpassed.keeps k (hkeeps₁ k hk)⟩, fun _ => hend, fun _ h => hpassed.keeps n (hempty₁ h)⟩
        · exact (List.length_set ..).trans hpassed.flagged.visited
        · exact (List.length_set ..).trans hpassed.flagged.inProgress
        · rw [getD_set] at hk
          split at hk
          · rename_i heq
            exact heq.1 ▸ hend
          · exact hpassed.flagged.ends k hk
        · change flags₂.inProgress.set n false = flags.inProgress
          rw [hpassed.same, hsame₁, set_set_false hprogress]

/-- The search behind all rules. -/
theorem detectAll_spec (hwf : rules.WellFormed) (hclosed : ∀ rule ∈ rules, Closed rule) {indexes : List Nat}
    (hindexes : ∀ i ∈ indexes, i < rules.length) (hflags : Flagged rules flags)
    (hnone : ∀ k, flags.inProgress.getD k false = false) :
    Yields (TooDeep calls flags.inProgress)
      (fun found => (found = true → ∃ m, Relation.TransGen rules.cfg.LeadsDirectly m m) ∧
        (found = false → ∀ i ∈ indexes, Ends rules i))
      (detectAll rules calls indexes flags) := by
  induction indexes generalizing flags with
  | nil => exact ⟨nofun, fun _ _ h => nomatch h⟩
  | cons i indexes ih =>
    obtain ⟨hi, hindexes⟩ := List.forall_mem_cons.1 hindexes
    rw [detectAll]
    split
    · rename_i hvisited
      refine (ih hindexes hflags hnone).mono (fun found h => ⟨h.1, fun hfound => ?_⟩) (fun _ h => h)
      exact List.forall_mem_cons.2 ⟨hflags.ends i hvisited, h.2 hfound⟩
    · refine (detectLeftRecursion_spec hwf hclosed hi hflags).bind ?_
      rintro ⟨found, flags'⟩ hlooked
      cases found with
      | true =>
        refine ⟨fun _ => ?_, nofun⟩
        rcases hlooked.hits rfl with ⟨m, hm, _⟩ | hcycle
        · exact nomatch (hnone m).symm.trans hm
        · exact hcycle
      | false =>
        have hpassed := hlooked.passed rfl
        refine (ih hindexes hpassed.flagged (fun k => hpassed.same ▸ hnone k)).mono
          (fun found h => ⟨h.1, fun hfound => ?_⟩)
          (fun e h => hpassed.same ▸ h)
        exact List.forall_mem_cons.2 ⟨hlooked.ends rfl, h.2 hfound⟩

/-- Rules are refused exactly if one of them leads back to itself directly. -/
theorem leftRecursive_spec (hwf : rules.WellFormed) (hclosed : ∀ rule ∈ rules, Closed rule) :
    Yields (fun e => e = .overflow ∧ calls ≤ rules.length)
      (fun found => (found = true → ∃ m, Relation.TransGen rules.cfg.LeadsDirectly m m) ∧
        (found = false → WellFounded (fun m n => rules.cfg.LeadsDirectly n m)))
      (leftRecursive rules calls) := by
  have hnone : ∀ k, (List.replicate rules.length false).getD k false = false := by
    intro k
    rw [List.getD_eq_getElem?_getD, List.getElem?_replicate]
    split <;> rfl
  have hflags : Flagged rules ⟨List.replicate rules.length false, List.replicate rules.length false,
    List.replicate rules.length false⟩ := ⟨List.length_replicate, List.length_replicate, List.length_replicate,
      fun k hk => absurd ((hnone k).symm.trans hk) Bool.false_ne_true,
      fun k hk => absurd ((hnone k).symm.trans hk) Bool.false_ne_true⟩
  refine (detectAll_spec hwf hclosed (fun i hi => List.mem_range.1 hi) hflags hnone).mono
    (fun found h => ⟨h.1, fun hfound => ⟨fun n => ?_⟩⟩)
    (fun e he => ⟨he.1, by simpa [TooDeep] using he.2⟩)
  by_cases hn : n < rules.length
  · exact h.2 hfound n (List.mem_range.2 hn)
  · refine Acc.intro n (fun m hm => ?_)
    obtain ⟨alt, halt, _⟩ := hm
    simp [Rules.cfg, hn] at halt

end

/-! ## Recursion without end -/

section

variable {rules parsed : Rules} {rule : Rule} {root depth depth' calls chr : Nat} {text : List Nat} {stack : Stack}
  {newStacks newStacks' stks stks' : List Stack} {found : Bool}

/-! ## Deeper recursion -/

/-- Where the recursion is not too deep, more depth changes nothing. -/
theorem advanceStack_mono (h : advanceStack rules depth stack newStacks = .ok newStacks') (hle : depth ≤ depth') :
    advanceStack rules depth' stack newStacks = .ok newStacks' := by
  induction depth generalizing stack newStacks newStacks' depth' with
  | zero => nomatch h
  | succ depth ih =>
    obtain ⟨depth', rfl⟩ : ∃ d, depth' = d + 1 := ⟨depth' - 1, by omega⟩
    cases stack with
    | nil => exact h
    | cons pos below =>
      rw [advanceStack] at h ⊢
      cases hfrom : rules.from pos with
      | nil => rwa [hfrom] at h
      | cons elem rest =>
        simp only [hfrom] at h ⊢
        cases htype : elem.type <;> simp only [htype] at h ⊢
        case ruleRef =>
          cases hrule : rules[elem.value]? with
          | none => rwa [hrule] at h
          | some rule =>
            simp only [hrule] at h ⊢
            exact foldlM_ok_mono (fun start _ stks stks' hcall => ih hcall (by omega)) h
        all_goals exact h

/-- The first stacks are the same when more calls fit. -/
theorem initStacks_mono (h : initStacks depth rules root = .ok stks) (hle : depth ≤ depth') :
    initStacks depth' rules root = .ok stks := by
  rw [initStacks] at h ⊢
  cases hrule : rules[root]? with
  | none => rwa [hrule] at h
  | some rule =>
    simp only [hrule] at h ⊢
    exact foldlM_ok_mono (fun _ _ _ _ hcall => advanceStack_mono hcall hle) h

/-- A character is accepted the same when more calls fit. -/
theorem acceptStack_mono (h : acceptStack depth rules chr newStacks stack = .ok newStacks') (hle : depth ≤ depth') :
    acceptStack depth' rules chr newStacks stack = .ok newStacks' := by
  cases stack with
  | nil => exact h
  | cons pos below =>
    rw [acceptStack] at h ⊢
    obtain ⟨⟨found, passed⟩, hmatch, h⟩ := except_bind_eq_ok.1 h
    refine except_bind_eq_ok.2 ⟨(found, passed), hmatch, ?_⟩
    cases found with
    | true => exact advanceStack_mono h hle
    | false => exact h

/-- A text is accepted the same when more calls fit. -/
theorem acceptAll_mono (h : text.foldlM (accept depth rules) stks = .ok stks') (hle : depth ≤ depth') :
    text.foldlM (accept depth' rules) stks = .ok stks' :=
  foldlM_ok_mono (fun _ _ _ _ hcall => foldlM_ok_mono (fun _ _ _ _ hstack => acceptStack_mono hstack hle) hcall) h

/-! ## Enough depth -/

/-- Where the first stacks are built, the first rule is not unfolded forever. -/
theorem halts_of_initStacks (hwf : rules.WellFormed) (hroot : root < rules.length)
    (h : initStacks depth rules root = .ok stks) :
    rules.cfg.Halts [.ref root] := by
  have hrule : rules[root]? = some rules[root] := List.getElem?_eq_getElem hroot
  rw [initStacks, hrule] at h
  refine Acc.intro _ (fun l hl => ?_)
  cases hl with
  | mk halt =>
    rw [cfg_rules hrule] at halt
    obtain ⟨start, hstart, rfl⟩ := List.mem_map.1 halt
    obtain ⟨hvalid, hform⟩ := root_stack hwf hrule hstart
    obtain ⟨_, _, hcall⟩ := exists_ok_of_foldlM h hstart
    rw [List.append_nil, ← hform]
    exact (within_of_advanceStack hwf hvalid hcall).halts

/-- Without left recursion, the first stacks are built. -/
theorem exists_initStacks (hwf : rules.WellFormed) (hroot : root < rules.length) (h : rules.cfg.Halts [.ref root]) :
    ∃ depth stks, initStacks depth rules root = .ok stks := by
  have hrule : rules[root]? = some rules[root] := List.getElem?_eq_getElem hroot
  obtain ⟨depth, hwithin⟩ := h.within
  refine ⟨depth, ?_⟩
  rw [initStacks, hrule]
  refine exists_ok_foldlM (fun start hstart newStacks => ?_)
  obtain ⟨hvalid, hform⟩ := root_stack hwf hrule hstart
  cases depth with
  | zero => exact hwithin.elim
  | succ depth =>
    have hstack : rules.cfg.Within depth (form rules (pushUnlessEnd rules ⟨root, start⟩ [])) := by
      refine hwithin _ ?_
      rw [hform, ← List.append_nil (symbolsAt _)]
      refine .mk ?_ []
      rw [cfg_rules hrule]
      exact List.mem_map_of_mem hstart
    exact advanceStack_of_within hwf hvalid (hstack.mono (Nat.le_succ depth))

/-- Without left recursion, a character is accepted. -/
theorem exists_accept (hwf : rules.WellFormed) (hsettled : ∀ s ∈ stks, Settled rules s)
    (hhalts : ∀ k, rules.cfg.Halts k) (chr : Nat) :
    ∃ depth stks', accept depth rules stks chr = .ok stks' := by
  have hstack : ∀ s ∈ stks, ∃ depth, ∀ depth' ≥ depth, ∀ newStacks, ∃ newStacks',
    acceptStack depth' rules chr newStacks s = .ok newStacks' := by
    intro s hs
    cases s with
    | nil => exact ⟨0, fun _ _ newStacks => ⟨newStacks, rfl⟩⟩
    | cons pos below =>
      obtain ⟨_, found, passed, hmatch, _, _, hvalid, _⟩ := stack_behind hwf (hsettled _ hs) chr
      obtain ⟨depth, hwithin⟩ := (hhalts (form rules (pushUnlessEnd rules (pos.add passed) below))).within
      refine ⟨depth, fun depth' hle newStacks => ?_⟩
      rw [acceptStack, hmatch]
      cases found with
      | true => exact advanceStack_of_within hwf hvalid (hwithin.mono hle)
      | false => exact ⟨newStacks, rfl⟩
  obtain ⟨depth, hdepth⟩ := exists_bound_forall hstack
  exact ⟨depth, exists_ok_foldlM (fun s hs newStacks => hdepth depth (Nat.le_refl depth) s hs newStacks)⟩

/-- The stacks after any text are built, and are the same, in every recursion that is deep enough. -/
def Accepts (rules : Rules) (root : Nat) : Prop :=
  ∀ text : List Nat, ∃ enough stks stks', ∀ depth ≥ enough,
    initStacks depth rules root = .ok stks ∧ text.foldlM (accept depth rules) stks = .ok stks'

/-- Texts are processed from every rule exactly if no rule leads back to itself behind what can be nothing. -/
theorem accept_halts_iff (hwf : rules.WellFormed) :
    (∀ root < rules.length, Accepts rules root) ↔ WellFounded (fun m n => rules.cfg.Leads n m) := by
  constructor
  · refine fun h => Cfg.wellFounded_of_halts (fun n => ?_)
    by_cases hn : n < rules.length
    · obtain ⟨enough, stks, _, hall⟩ := h n hn []
      exact halts_of_initStacks hwf hn (hall enough (Nat.le_refl enough)).1
    · refine Acc.intro _ (fun l hl => ?_)
      cases hl with
      | mk halt => simp [Rules.cfg, hn] at halt
  · intro hleads root hroot text
    have hhalts := Cfg.halts_of_wellFounded hleads
    obtain ⟨first, stks, hinit⟩ := exists_initStacks hwf hroot (hhalts _)
    have hafter := (initStacks_spec hwf hroot).of_ok hinit
    have hrun : ∃ enough stks', text.foldlM (accept enough rules) stks = .ok stks' := by
      induction text using List.reverseRecOn with
      | nil => exact ⟨0, stks, rfl⟩
      | append_singleton text chr ih =>
        obtain ⟨enough, stks', htext⟩ := ih
        obtain ⟨more, stks'', haccept⟩ := exists_accept hwf ((hafter.acceptAll hwf).of_ok htext).settled hhalts chr
        refine ⟨max enough more, stks'', ?_⟩
        rw [List.foldlM_append]
        refine except_bind_eq_ok.2 ⟨stks', acceptAll_mono htext (Nat.le_max_left enough more), ?_⟩
        have hchr : [chr].foldlM (accept more rules) stks' = .ok stks'' := except_bind_eq_ok.2 ⟨stks'', haccept, rfl⟩
        exact acceptAll_mono hchr (Nat.le_max_right enough more)
    obtain ⟨enough, stks', htext⟩ := hrun
    exact ⟨max first enough, stks, stks', fun depth hle =>
      ⟨initStacks_mono hinit (by omega), acceptAll_mono htext (by omega)⟩⟩

/-! ## What is refused -/

/-- The rules of the example have their ends. -/
theorem copyRule_closed : ∀ rule ∈ parsed.map copyRule, Closed rule := by
  intro rule hrule
  obtain ⟨rule, _, rfl⟩ := List.mem_map.1 hrule
  exact closed_copyRule rule

/-- The search comes to an end if there are more calls than rules, and the rules are refused exactly if one leads back
to itself behind rules with an empty alternate. -/
theorem leftRecursive_iff (hwf : Rules.WellFormed (parsed.map copyRule)) :
    (parsed.length < calls → ∃ found, leftRecursive (parsed.map copyRule) calls = .ok found) ∧
      ∀ found, leftRecursive (parsed.map copyRule) calls = .ok found →
        (found = true ↔ ∃ n, Relation.TransGen (Rules.cfg (parsed.map copyRule)).LeadsDirectly n n) := by
  have hspec : Yields _ _ (leftRecursive (parsed.map copyRule) calls) := leftRecursive_spec hwf copyRule_closed
  constructor
  · intro hcalls
    cases hcall : leftRecursive (parsed.map copyRule) calls with
    | ok found => exact ⟨found, rfl⟩
    | error e =>
      have hdeep := (hspec.of_error hcall).2
      rw [List.length_map] at hdeep
      omega
  · intro found hfound
    obtain ⟨hcycle, hends⟩ := hspec.of_ok hfound
    refine ⟨hcycle, fun ⟨n, hn⟩ => ?_⟩
    by_contra hnot
    exact Cfg.not_acc_self (Relation.transGen_swap.2 hn) ((hends (Bool.eq_false_iff.2 hnot)).transGen.apply n)

/-- Numbers in parentheses lead to themselves behind a parenthesis only. -/
theorem leftRecursive_parens : ¬∃ n, Relation.TransGen (Rules.cfg parens).LeadsDirectly n n := by
  have hwf : Rules.WellFormed (parens.map copyRule) := by decide
  have hfound : leftRecursive (parens.map copyRule) 2 = .ok false := by decide
  have hiff := (leftRecursive_iff hwf).2 false hfound
  exact fun h => Bool.false_ne_true (hiff.2 h)

/-- Where every rule that can be nothing has an empty alternate, the rules that are let through are those with which
texts are processed from every rule. -/
theorem leftRecursive_iff_accepts (hwf : Rules.WellFormed (parsed.map copyRule))
    (hnull : ∀ n, (Rules.cfg (parsed.map copyRule)).Nullable [.ref n] → [] ∈ (Rules.cfg (parsed.map copyRule)).rules n)
    (h : leftRecursive (parsed.map copyRule) calls = .ok found) :
    found = false ↔ ∀ root < parsed.length, Accepts (parsed.map copyRule) root := by
  have hiff := accept_halts_iff hwf
  rw [List.length_map] at hiff
  rw [hiff]
  simp only [Cfg.leads_iff_directly hnull]
  obtain ⟨hcycle, hends⟩ := (leftRecursive_spec hwf copyRule_closed).of_ok h
  refine ⟨hends, fun hwell => Bool.eq_false_iff.2 (fun hfound => ?_)⟩
  obtain ⟨n, hn⟩ := hcycle hfound
  exact Cfg.not_acc_self (Relation.transGen_swap.2 hn) (hwell.transGen.apply n)

/-- Every text is processed with numbers in parentheses. -/
theorem leftRecursive_parens_accepts : Accepts parens 0 := by
  have hnull : ∀ n, parens.cfg.Nullable [.ref n] → [] ∈ parens.cfg.rules n := by
    intro n hn
    obtain ⟨alt, halt, hheads⟩ := Cfg.heads_ref_iff.1 ⟨hn, trivial⟩
    rw [List.append_nil] at hheads
    cases n with
    | zero =>
      have hrules : parens.cfg.rules 0 =
          [[.term ⟨false, [.upto 0x28 0x28]⟩, .ref 0, .term ⟨false, [.upto 0x29 0x29]⟩],
          [.term ⟨false, [.upto 0x30 0x39]⟩]] := by decide
      rw [hrules] at halt
      rcases List.mem_cons.1 halt with rfl | halt
      · nomatch Cfg.eq_of_headed (k := .term _ :: _) trivial hheads.1
      · obtain rfl := List.mem_singleton.1 halt
        nomatch Cfg.eq_of_headed (k := [.term _]) trivial hheads.1
    | succ n => nomatch halt
  have hwf : Rules.WellFormed (parens.map copyRule) := by decide
  have hfound : leftRecursive (parens.map copyRule) 2 = .ok false := by decide
  exact (leftRecursive_iff_accepts hwf hnull hfound).1 rfl 0 (by decide)

/-- `root ::= a root "x" | "y"`, where `a` is `b`, and `b` is empty. -/
def indirect : Rules :=
  [[⟨.ruleRef, 1⟩, ⟨.ruleRef, 0⟩, ⟨.char, 0x78⟩, ⟨.alt, 0⟩, ⟨.char, 0x79⟩, ⟨.end_, 0⟩], [⟨.ruleRef, 2⟩, ⟨.end_, 0⟩],
    [⟨.end_, 0⟩]]

/-- A rule that leads to itself behind one that can be nothing through another is let through, and its stacks cannot
be built in any recursion. -/
theorem indirect_overflow :
    leftRecursive indirect 4 = .ok false ∧ ∀ depth, initStacks depth indirect 0 = .error .overflow := by
  have hwf : indirect.WellFormed := by decide
  refine ⟨by decide, fun depth => ?_⟩
  cases hinit : initStacks depth indirect 0 with
  | error e => rw [show e = .overflow from (initStacks_spec hwf (by decide)).of_error hinit]
  | ok stks =>
    have hrule : ∀ n alt, alt ∈ indirect.cfg.rules n → indirect.cfg.Unfolds [.ref n] alt := by
      intro n alt halt
      rw [← List.append_nil alt]
      exact .mk halt []
    have hnull : indirect.cfg.Nullable [.ref 1] :=
      .head (hrule 1 [.ref 2] (by decide)) (.single (hrule 2 [] (by decide)))
    have hself : indirect.cfg.Leads 0 0 :=
      ⟨[.ref 1, .ref 0, .term ⟨false, [.upto 0x78 0x78]⟩], by decide, [.ref 1], _, rfl, hnull⟩
    exact absurd (halts_of_initStacks hwf (by decide) hinit).acc_leads (Cfg.not_acc_self hself)

end

end Ollama.Llama
