import Ollama.Llama.Lemmas.Stacks

/-!
# Candidates that stacks admit

A stack admits a candidate if its characters can be read from what the stack stands for, and an incomplete character
behind them may be completed to one that follows. The candidates that no stack admits are rejected
(`rejectCandidates_spec`).
-/

namespace Ollama.Llama

open Lib

variable {rules : Rules} {pos : Pos} {stack below : Stack} {elem : Element} {elems rest : List Element} {prev : GreType}
  {n root depth calls low high : Nat} {newStacks newStacks' stks : List Stack} {tok tok' : Candidate}
    {candidates : List Candidate}
  {p : PartialUtf8} {t : CharClass} {k : List (CfgSymbol Nat CharClass)}

/-! ## Incomplete characters -/

/-- A range and the code points between two have some in common, if the range is in order. -/
def CharRange.Meets (low high : Nat) : CharRange → Prop
  | .any => True
  | .upto lo hi => lo ≤ high ∧ low ≤ hi

/-- What the program takes for: the incomplete character may be completed to one of the class. -/
def CharClass.MayHold (t : CharClass) (p : PartialUtf8) : Prop :=
  0 ≤ p.nRemain ∧ ¬(p.nRemain = 1 ∧ p.value < 2) ∧ ((∃ r ∈ t.ranges, r.Meets (lowOf p) (highOf p)) ↔ t.inverse = false)

theorem rangeOf_meets :
    (rangeOf elem).Meets low high ↔ elem.type = .charAny ∨ (low ≤ elem.value ∧ elem.value ≤ high) := by
  rw [rangeOf]
  split
  · rename_i h
    simp [CharRange.Meets, h]
  · rename_i h
    simp only [CharRange.Meets, h, false_or]
    exact and_comm

/-- The loop ends early exactly if a range meets the code points, and at a `.` only if it begins with it. -/
theorem matchPartialLoop_spec (low high : Nat) (elems : List Element) :
    ((matchPartialLoop low high elems).isSome = true ↔ ∃ r ∈ rangesAt elems, r.Meets low high) ∧
      (matchPartialLoop low high elems = some true → pointsTo .charAny elems = true) := by
  have hany : ∀ elems, pointsTo .charAlt elems = true → ¬pointsTo .charAny elems = true := by
    intro elems halt hany
    cases elems with
    | nil => nomatch halt
    | cons elem elems =>
      have htype := (of_decide_eq_true halt).symm.trans (of_decide_eq_true hany)
      nomatch htype
  fun_induction matchPartialLoop low high elems with
  | case1 => simp [rangesAt]
  | case2 elem upper elems hmeets => simp [rangesAt, CharRange.Meets, hmeets]
  | case3 elem upper elems hmeets halt ih =>
    refine ⟨?_, fun h => absurd (ih.2 h) (hany _ halt)⟩
    rw [ih.1]
    simp [rangesAt, CharRange.Meets, hmeets, halt]
  | case4 elem upper elems hmeets halt => simp [rangesAt, CharRange.Meets, hmeets, halt]
  | case5 elem elems hupper htype =>
    rw [rangesAt]
    · simp [rangeOf_meets, htype, pointsTo]
    · exact hupper
  | case6 elem elems hupper htype hmeets =>
    rw [rangesAt]
    · simp [rangeOf_meets, hmeets]
    · exact hupper
  | case7 elem elems hupper htype hmeets halt ih =>
    refine ⟨?_, fun h => absurd (ih.2 h) (hany _ halt)⟩
    rw [ih.1, rangesAt]
    · simp [rangeOf_meets, htype, hmeets, halt]
    · exact hupper
  | case8 elem elems hupper htype hmeets halt =>
    rw [rangesAt]
    · simp [rangeOf_meets, htype, hmeets, halt]
    · exact hupper

/-- What matching an incomplete character says. -/
theorem matchPartialChar_spec (h : Opens elems) (p : PartialUtf8) :
    ∃ ok, matchPartialChar elems p = .ok ok ∧ (ok = true ↔ (classAt elems).MayHold p) := by
  obtain ⟨hmeets, hany⟩ := matchPartialLoop_spec (lowOf p) (highOf p) elems
  rw [matchPartialChar, h.isPositiveChar]
  by_cases hinvalid : p.nRemain < 0 ∨ (p.nRemain = 1 ∧ p.value < 2)
  · refine ⟨false, if_pos hinvalid, ?_⟩
    constructor
    · intro h
      nomatch h
    · rintro ⟨hle, hlong, _⟩
      exact (hinvalid.elim (fun h => by omega) hlong).elim
  · rw [not_or, not_lt] at hinvalid
    have hmay : (classAt elems).MayHold p ↔
      ((∃ r ∈ rangesAt elems, r.Meets (lowOf p) (highOf p)) ↔ (classAt elems).inverse = false) :=
      ⟨fun h => h.2.2, fun h => ⟨hinvalid.1, hinvalid.2, h⟩⟩
    simp only [bind, Except.bind]
    rw [if_neg (by omega)]
    rw [← hmeets] at hmay
    cases hloop : matchPartialLoop (lowOf p) (highOf p) elems with
    | none =>
      refine ⟨_, rfl, ?_⟩
      rw [hmay, hloop]
      simp
    | some any =>
      refine ⟨_, rfl, ?_⟩
      rw [hmay, hloop]
      cases any with
      | false => simp
      | true =>
        -- a `.` is no inverse range
        have hclass : (classAt elems).inverse = false := by
          obtain ⟨elem, rest, rfl, _⟩ := h
          have htype := of_decide_eq_true (hany hloop)
          simp [classAt, pointsTo, htype]
        simp [hclass]

/-! ## One stack -/

/-- The characters of a candidate that are left to read. -/
def Candidate.toRead (tok : Candidate) : List Nat := (tok.codePoints.drop tok.pos).takeWhile (· ≠ 0)

/-- The candidate at its next character. -/
def Candidate.next (tok : Candidate) : Candidate := { tok with pos := tok.pos + 1 }

/-- A form admits characters and an incomplete one behind them. -/
def Admits (rules : Rules) (k : List (CfgSymbol Nat CharClass)) (chars : List Nat) (p : PartialUtf8) : Prop :=
  ∃ l, rules.cfg.Reads k chars l ∧ (p.nRemain = 0 ∨ ∃ t l', l = .term t :: l' ∧ t.MayHold p)

theorem toRead_of_eq (h : tok.codePoint = 0) : tok.toRead = [] := by
  rw [Candidate.codePoint, List.getD_eq_getElem?_getD] at h
  rw [Candidate.toRead]
  cases hdrop : tok.codePoints.drop tok.pos with
  | nil => rfl
  | cons c rest =>
    have hget : tok.codePoints[tok.pos]? = some c := by
      rw [← List.head?_drop, hdrop, List.head?_cons]
    rw [hget, Option.getD_some] at h
    rw [h, List.takeWhile_cons_of_neg (by simp)]

theorem toRead_of_ne (h : tok.codePoint ≠ 0) :
    tok.pos < tok.codePoints.length ∧ tok.toRead = tok.codePoint :: tok.next.toRead := by
  have hlt : tok.pos < tok.codePoints.length := by
    by_contra hge
    rw [Candidate.codePoint, List.getD_eq_getElem?_getD, List.getElem?_eq_none (by omega), Option.getD_none] at h
    exact h rfl
  have hget : tok.codePoint = tok.codePoints[tok.pos] := by
    rw [Candidate.codePoint, List.getD_eq_getElem?_getD, List.getElem?_eq_getElem hlt, Option.getD_some]
  refine ⟨hlt, ?_⟩
  rw [hget] at h
  rw [Candidate.toRead, List.drop_eq_getElem_cons hlt, List.takeWhile_cons_of_pos (by simpa using h), hget]
  rfl

/-- A class does not take the next character of a candidate, or the incomplete one at its end. -/
def RejectedBy (t : CharClass) (tok : Candidate) : Prop :=
  (tok.codePoint = 0 ∧ tok.partialUtf8.nRemain ≠ 0 ∧ ¬t.MayHold tok.partialUtf8) ∨
    (tok.codePoint ≠ 0 ∧ ¬t.Holds tok.codePoint)

/-- A class takes the next character of a candidate. -/
def TakenBy (t : CharClass) (tok : Candidate) : Prop := tok.codePoint ≠ 0 ∧ t.Holds tok.codePoint

/-- One candidate is checked. -/
theorem checkCandidate_spec (hsound : Sound n prev elems) (h : Opens elems) {rejects next : List Candidate}
    (hrest : checkCandidates elems candidates = .ok (rejects, next)) (tok : Candidate) :
    ∃ rejected taken, checkCandidates elems (tok :: candidates) =
        .ok (if rejected then tok :: rejects else rejects, if taken then tok.next :: next else next) ∧
      (rejected = true ↔ RejectedBy (classAt elems) tok) ∧ (taken = true ↔ TakenBy (classAt elems) tok) := by
  rw [checkCandidates, hrest]
  by_cases hzero : tok.codePoint = 0
  · rw [if_pos hzero, endsWell]
    by_cases hremain : tok.partialUtf8.nRemain = 0
    · refine ⟨false, false, ?_, ?_, ?_⟩
      · rw [if_neg (by simpa using hremain)]
        rfl
      · simp [RejectedBy, hzero, hremain]
      · simp [TakenBy, hzero]
    · obtain ⟨ok, hmatch, hok⟩ := matchPartialChar_spec h tok.partialUtf8
      refine ⟨!ok, false, ?_, ?_, ?_⟩
      · rw [if_pos hremain, hmatch]
        cases ok <;> rfl
      · simp [RejectedBy, hzero, hremain, ← hok]
      · simp [TakenBy, hzero]
  · obtain ⟨found, passed, hmatch, hfound, _⟩ := matchChar_spec hsound h tok.codePoint
    refine ⟨!found, found, ?_, ?_, ?_⟩
    · rw [if_neg hzero, hmatch]
      cases found <;> rfl
    · simp [RejectedBy, hzero, ← hfound]
    · simp [TakenBy, hzero, ← hfound]

/-- The candidates of a stack with a class at its top: those that are rejected at once, and those with more characters
to read. -/
theorem checkCandidates_spec (hsound : Sound n prev elems) (h : Opens elems) (candidates : List Candidate) :
    ∃ rejects next, checkCandidates elems candidates = .ok (rejects, next) ∧
      (∀ tok, tok ∈ rejects ↔ tok ∈ candidates ∧ RejectedBy (classAt elems) tok) ∧
      ∀ tok', tok' ∈ next ↔ ∃ tok ∈ candidates, tok' = tok.next ∧ TakenBy (classAt elems) tok := by
  induction candidates with
  | nil => exact ⟨[], [], rfl, by simp, by simp⟩
  | cons tok candidates ih =>
    obtain ⟨rejects, next, hrest, hrejects, hnext⟩ := ih
    obtain ⟨rejected, taken, hcheck, hrejected, htaken⟩ := checkCandidate_spec hsound h hrest tok
    have hmem : ∀ (b : Bool) (x y : Candidate) (l : List Candidate), x ∈ (if b then y :: l else l) ↔
      (b = true ∧ x = y) ∨ x ∈ l := by
      intro b x y l
      cases b <;> simp
    refine ⟨_, _, hcheck, fun tok' => ?_, fun tok' => ?_⟩
    · rw [hmem, hrejects, hrejected, List.mem_cons, or_and_right]
      refine or_congr_left ⟨?_, ?_⟩
      · rintro ⟨h, rfl⟩
        exact ⟨rfl, h⟩
      · rintro ⟨rfl, h⟩
        exact ⟨h, rfl⟩
    · rw [hmem, hnext, htaken]
      simp only [List.mem_cons, exists_eq_or_imp]
      exact or_congr_left and_comm

/-- Advancing stacks leaves some stack, if advancing one does. -/
theorem advanceAll_ne_nil {f : Nat → List Stack → Except Failure (List Stack)}
    (hf : ∀ start stks out, f start stks = .ok out → out ≠ []) {start : Nat} {starts : List Nat}
    (h : (start :: starts).foldlM (fun stks start => f start stks) newStacks = .ok newStacks') :
    newStacks' ≠ [] := by
  rw [List.foldlM_cons] at h
  obtain ⟨first, hfirst, h⟩ := except_bind_eq_ok.1 h
  refine (yields_foldlM (E := fun _ => True) (P := fun _ stks => stks ≠ []) (f := fun stks start => f start stks)
    (hf start newStacks first hfirst) (fun _ start _ stks _ => ?_)).of_ok h
  cases hcall : f start stks with
  | error e => trivial
  | ok out => exact hf start stks out hcall

/-- Advancing a stack leaves some stack. -/
theorem advanceStack_ne_nil (h : advanceStack rules depth stack newStacks = .ok newStacks') : newStacks' ≠ [] := by
  have hadd : ∀ stack newStacks, addStack stack newStacks ≠ [] := by
    intro stack newStacks
    rw [addStack]
    split
    · rename_i hmem
      exact List.ne_nil_of_mem hmem
    · exact List.append_ne_nil_of_right_ne_nil _ (List.cons_ne_nil _ _)
  induction depth generalizing stack newStacks newStacks' with
  | zero => cases h
  | succ depth ih =>
    cases stack with
    | nil =>
      obtain rfl := Except.ok.inj h
      exact hadd _ _
    | cons pos below =>
      rw [advanceStack] at h
      cases hfrom : rules.from pos with
      | nil =>
        rw [hfrom] at h
        cases h
      | cons elem rest =>
        simp only [hfrom] at h
        cases htype : elem.type <;> simp only [htype] at h
        case ruleRef =>
          cases hrule : rules[elem.value]? with
          | none =>
            rw [hrule] at h
            cases h
          | some rule =>
            simp only [hrule] at h
            exact advanceAll_ne_nil (f := fun start => advanceStack rules depth
              (pushUnlessEnd rules ⟨elem.value, start⟩ (pushUnlessEnd rules (pos.add 1) below))) (fun _ _ _ => ih) h
        case char =>
          obtain rfl := Except.ok.inj h
          exact hadd _ _
        case charNot =>
          obtain rfl := Except.ok.inj h
          exact hadd _ _
        case charAny =>
          obtain rfl := Except.ok.inj h
          exact hadd _ _
        all_goals cases h

theorem initStacks_ne_nil (h : initStacks depth rules root = .ok stks) : stks ≠ [] := by
  rw [initStacks] at h
  cases hrule : rules[root]? with
  | none =>
    rw [hrule] at h
    cases h
  | some rule =>
    rw [hrule] at h
    exact advanceAll_ne_nil (f := fun start => advanceStack rules depth (pushUnlessEnd rules ⟨root, start⟩ []))
      (fun _ _ _ => advanceStack_ne_nil) h

/-- The stacks behind a stack with a class at its top are not empty. -/
theorem stacks_behind (hwf : rules.WellFormed) (hvalid : Valid rules stack) :
    Yields isOverflow (fun next => next ≠ [] ∧ (∀ s ∈ next, Settled rules s) ∧
        ∀ l, l ∈ next.map (form rules) ↔ rules.cfg.Heads (form rules stack) l) (advanceStack rules depth stack []) := by
  have hspec : Yields isOverflow (Advanced rules (rules.cfg.Heads (form rules stack)) [])
    (advanceStack rules depth stack []) := advanceStack_spec hwf hvalid (fun _ hs => absurd hs List.not_mem_nil)
  cases hcall : advanceStack rules depth stack [] with
  | error e => exact hspec.of_error hcall
  | ok next =>
    have hadvanced := hspec.of_ok hcall
    refine ⟨advanceStack_ne_nil hcall, hadvanced.settled, fun l => ?_⟩
    rw [hadvanced.forms]
    simp

theorem admits_nil_iff : Admits rules (.term t :: k) [] p ↔ p.nRemain = 0 ∨ t.MayHold p := by
  simp only [Admits, Cfg.Reads, Cfg.heads_iff_of_headed (k := CfgSymbol.term t :: k) trivial]
  constructor
  · rintro ⟨_, rfl, h | ⟨t', l', heq, h⟩⟩
    · exact .inl h
    · obtain rfl := CfgSymbol.term.inj (List.cons.inj heq).1
      exact .inr h
  · rintro (h | h)
    · exact ⟨_, rfl, .inl h⟩
    · exact ⟨_, rfl, .inr ⟨t, k, rfl, h⟩⟩

theorem admits_cons_iff {c : Nat} {chars : List Nat} (hheads : ∀ l, l ∈ stks.map (form rules) ↔ rules.cfg.Heads k l) :
    Admits rules (.term t :: k) (c :: chars) p ↔ t.Holds c ∧ ∃ s ∈ stks, Admits rules (form rules s) chars p := by
  simp only [Admits, Cfg.Reads, Cfg.heads_iff_of_headed (k := CfgSymbol.term t :: k) trivial]
  constructor
  · rintro ⟨l, ⟨t', k', heq, hc, hreads⟩, h⟩
    obtain ⟨ht, rfl⟩ := List.cons.inj heq
    obtain rfl := CfgSymbol.term.inj ht
    obtain ⟨k'', hheads', hreads⟩ := Cfg.reads_iff_heads.1 hreads
    obtain ⟨s, hs, rfl⟩ := List.mem_map.1 ((hheads k'').2 hheads')
    exact ⟨hc, s, hs, l, hreads, h⟩
  · rintro ⟨hc, s, hs, l, hreads, h⟩
    exact ⟨l, ⟨t, k, rfl, hc, Cfg.reads_iff_heads.2 ⟨_, (hheads _).1 (List.mem_map_of_mem hs), hreads⟩⟩, h⟩

/-- What a stack makes of the candidates, if what it makes of their next characters is known. -/
theorem rejectForStack_spec {rejectNext : List Stack → List Candidate → Except Failure (List Candidate)}
    (hwf : rules.WellFormed) (h : Settled rules stack)
    (hnext : ∀ stks, stks ≠ [] → (∀ s ∈ stks, Settled rules s) → ∀ next : List Candidate,
      Yields isOverflow (fun rejects => ∀ tok, tok ∈ rejects ↔
        tok ∈ next ∧ ∀ s ∈ stks, ¬Admits rules (form rules s) tok.toRead tok.partialUtf8) (rejectNext stks next)) :
    Yields isOverflow (fun rejects => ∀ tok, tok ∈ rejects ↔ tok ∈ candidates ∧
      ¬Admits rules (form rules stack) tok.toRead tok.partialUtf8)
      (rejectForStack rejectNext depth rules candidates stack) := by
  cases stack with
  | nil =>
    intro tok
    rw [List.mem_filter, decide_eq_true_eq]
    refine and_congr_right (fun _ => ?_)
    by_cases hzero : tok.codePoint = 0
    · rw [toRead_of_eq hzero]
      simp [hzero, Admits, Cfg.Reads, form, Cfg.heads_iff_of_headed (k := []) trivial]
    · rw [(toRead_of_ne hzero).2]
      simp [hzero, Admits, Cfg.Reads, form, Cfg.heads_iff_of_headed (k := []) trivial]
  | cons pos below =>
    obtain ⟨t, _, passed, hmatch, _, ht, hvalid, hform⟩ := stack_behind hwf h 0
    obtain ⟨elem, rest, hfrom, _⟩ := h.opens
    obtain ⟨prev, hsound⟩ := hwf.sound hfrom
    rw [← hfrom] at hsound
    obtain ⟨rejects, next, hcheck, hrejects, htaken⟩ := checkCandidates_spec hsound h.opens candidates
    rw [← ht] at hrejects htaken
    rw [rejectForStack, hcheck]
    simp only [bind, Except.bind, hmatch]
    refine (stacks_behind hwf hvalid).bind (fun stks hstks => ?_)
    obtain ⟨hne, hsettled, hheads⟩ := hstks
    refine (hnext stks hne hsettled next).bind (fun nextRejects hnextRejects => ?_)
    -- the candidates that come back are those of the next characters, with their pointers set back
    have hback : ∀ tok, tok ∈ nextRejects.map (fun tok => { tok with pos := tok.pos - 1 }) ↔
        tok ∈ candidates ∧ TakenBy t tok ∧ ∀ s ∈ stks,
        ¬Admits rules (form rules s) tok.next.toRead tok.partialUtf8 := by
      intro tok
      rw [List.mem_map]
      constructor
      · rintro ⟨tok', htok', rfl⟩
        obtain ⟨hmem, hadmits⟩ := (hnextRejects tok').1 htok'
        obtain ⟨tok, htok, rfl, htake⟩ := (htaken tok').1 hmem
        exact ⟨htok, htake, hadmits⟩
      · rintro ⟨htok, htake, hadmits⟩
        exact ⟨tok.next, (hnextRejects _).2 ⟨(htaken _).2 ⟨tok, htok, rfl, htake⟩, hadmits⟩, rfl⟩
    intro tok
    rw [List.mem_append, hrejects, hback, ← and_or_left]
    refine and_congr_right (fun _ => ?_)
    rw [hform]
    by_cases hzero : tok.codePoint = 0
    · rw [toRead_of_eq hzero, admits_nil_iff]
      simp [RejectedBy, TakenBy, hzero]
    · rw [(toRead_of_ne hzero).2, admits_cons_iff hheads]
      simp only [RejectedBy, TakenBy, hzero, false_and, false_or, not_false_eq_true, true_and, not_and,
        not_exists, ne_eq]
      exact ⟨fun h hc => h.elim (fun hnot => absurd hc hnot) (fun h => h.2),
        fun h => (em (t.Holds tok.codePoint)).symm.imp id (fun hc => ⟨hc, h hc⟩)⟩

/-! ## All stacks -/

/-- Candidates are rejected exactly if no stack admits them. -/
theorem rejectCandidates_spec (hwf : rules.WellFormed) (hne : stks ≠ []) (hsettled : ∀ s ∈ stks, Settled rules s) :
    Yields isOverflow (fun rejects => ∀ tok, tok ∈ rejects ↔
        tok ∈ candidates ∧ ∀ s ∈ stks, ¬Admits rules (form rules s) tok.toRead tok.partialUtf8)
      (rejectCandidates depth rules calls stks candidates) := by
  induction calls generalizing stks candidates with
  | zero => rfl
  | succ calls ih =>
    cases stks with
    | nil => exact absurd rfl hne
    | cons stack stks =>
      rw [rejectCandidates]
      split
      · rename_i hnil
        subst hnil
        intro tok
        simp
      have hone : ∀ candidates s, Settled rules s → Yields isOverflow
          (fun rejects => ∀ tok, tok ∈ rejects ↔ tok ∈ candidates ∧
            ¬Admits rules (form rules s) tok.toRead tok.partialUtf8)
          (rejectForStack (rejectCandidates depth rules calls) depth rules candidates s) :=
        fun candidates s hs => rejectForStack_spec hwf hs (fun stks' hne' hsettled' next => ih hne' hsettled')
      obtain ⟨hstack, hsettled⟩ := List.forall_mem_cons.1 hsettled
      refine (hone candidates stack hstack).bind (fun rejects hrejects => ?_)
      refine (yields_foldlM (P := fun done rejects => ∀ tok, tok ∈ rejects ↔
          tok ∈ candidates ∧ ∀ s ∈ stack :: done, ¬Admits rules (form rules s) tok.toRead tok.partialUtf8) ?_
        (fun done s hs rejects hdone => ?_)).mono (fun _ h => h) (fun _ h => h)
      · intro tok
        rw [hrejects]
        simp
      · refine (hone rejects s (hsettled s hs)).mono (fun out hout tok => ?_) (fun _ h => h)
        rw [hout, hdone, and_assoc, ← List.cons_append]
        simp only [List.forall_mem_append, List.forall_mem_singleton]

/-- The stacks after a text admit what the first rule admits behind the text. -/
theorem After.admits_iff {text chars : List Nat} (h : After rules root text stks) :
    (∃ s ∈ stks, Admits rules (form rules s) chars p) ↔ Admits rules [.ref root] (text ++ chars) p := by
  simp only [Admits, Cfg.reads_append_iff, ← h.forms, List.mem_map]
  constructor
  · rintro ⟨s, hs, l, hreads, hend⟩
    exact ⟨l, ⟨_, ⟨s, hs, rfl⟩, hreads⟩, hend⟩
  · rintro ⟨l, ⟨_, ⟨s, hs, rfl⟩, hreads⟩, hend⟩
    exact ⟨s, hs, l, hreads, hend⟩

end Ollama.Llama
