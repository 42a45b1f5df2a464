import Ollama.Parser.Lemmas.Quote

/-!
# Reading a line

What the machine does with the parts of a line: the name of a command, the name of a parameter, a role and a value.
-/

namespace Ollama.Parser

open Lib

/-! ## Runes -/

/-- `isAlpha`, as a range. -/
theorem isAlpha_bounds {r : Char} (h : isAlpha r = true) : 0x41 ≤ r.toNat ∧ r.toNat ≤ 0x7a := by
  unfold isAlpha at h
  simp only [Bool.or_eq_true, Bool.and_eq_true, decide_eq_true_eq, Char.le_def, UInt32.le_iff_toNat_le] at h
  change (97 ≤ r.toNat ∧ r.toNat ≤ 122) ∨ (65 ≤ r.toNat ∧ r.toNat ≤ 90) at h
  omega

/-- `isNumber`, as a range. -/
theorem isNumber_bounds {r : Char} (h : isNumber r = true) : 0x30 ≤ r.toNat ∧ r.toNat ≤ 0x39 := by
  unfold isNumber at h
  simp only [Bool.and_eq_true, decide_eq_true_eq, Char.le_def, UInt32.le_iff_toNat_le] at h
  exact h

/-- A rune of the name of a parameter. -/
def isNameRune (r : Char) : Bool := isAlpha r || isNumber r || r == '_'

/-- `isAlpha` holds of runes of names. -/
theorem isNameRune_of_isAlpha {r : Char} (h : isAlpha r = true) : isNameRune r = true := by
  unfold isNameRune
  rw [h, Bool.true_or, Bool.true_or]

/-- The runes of names, as a range. -/
theorem isNameRune_bounds {r : Char} (h : isNameRune r = true) : 0x30 ≤ r.toNat ∧ r.toNat ≤ 0x7a := by
  unfold isNameRune at h
  rw [Bool.or_eq_true, Bool.or_eq_true, beq_iff_eq] at h
  rcases h with (h | h) | rfl
  · have := isAlpha_bounds h
    omega
  · have := isNumber_bounds h
    omega
  · decide

/-- The runes of names can be printed. -/
theorem isPrint_of_isNameRune (T : PrintTable) {r : Char} (h : isNameRune r = true) : T.isPrint r = true := by
  obtain ⟨hlo, hhi⟩ := isNameRune_bounds h
  rw [T.ascii r (by omega), Bool.and_eq_true, decide_eq_true_eq, decide_eq_true_eq]
  omega

/-- The runes of names are not line breaks. -/
theorem isNewline_of_isNameRune {r : Char} (h : isNameRune r = true) : isNewline r = false := by
  by_contra hnl
  rw [Bool.not_eq_false] at hnl
  have hlo := (isNameRune_bounds h).1
  rcases newline_cases hnl with rfl | rfl
  · exact absurd hlo (by decide)
  · exact absurd hlo (by decide)

/-- A line break is no blank of a line. -/
theorem isSpace_of_isNewline {r : Char} (h : isNewline r = true) : isSpace r = false := by
  rcases newline_cases h with rfl | rfl
  · rfl
  · rfl

/-- A line break cannot be printed. -/
theorem isPrint_of_isNewline (T : PrintTable) {r : Char} (h : isNewline r = true) : T.isPrint r = false := by
  rcases newline_cases h with rfl | rfl
  · exact T.ascii '\r' (by decide)
  · exact T.ascii '\n' (by decide)

/-- No rune is written for none. -/
@[simp] theorem Scanner.put_noRune (T : PrintTable) (p : Scanner) : p.put T noRune = p := by
  have hprint : T.isPrint noRune = false := T.ascii noRune (by decide)
  rw [Scanner.put, hprint]
  rfl

/-- A line break is not written. -/
theorem Scanner.put_newline (T : PrintTable) (p : Scanner) {r : Char} (h : isNewline r = true) : p.put T r = p := by
  rw [Scanner.put, isPrint_of_isNewline T h]
  rfl

/-- A rune that can be printed is written. -/
theorem Scanner.put_isPrint {T : PrintTable} (p : Scanner) {r : Char} (h : T.isPrint r = true) :
    p.put T r = { p with b := p.b ++ [r] } := by
  rw [Scanner.put, if_pos h]

/-! ## Steps -/

section Steps

variable {T : PrintTable} {p : Scanner}

/-- The loop over two texts. -/
theorem Scanner.run_append (p : Scanner) (u v : List Char) :
    p.run T (u ++ v) = (p.run T u).bind (fun p' => p'.run T v) := by
  induction u generalizing p with
  | nil => rfl
  | cons r u ih =>
    rw [List.cons_append, Scanner.run, Scanner.run]
    cases p.step T r with
    | error e => rfl
    | ok p' => exact ih p'

/-- The loop goes on after a text that has been read. -/
theorem Scanner.run_append_ok {p' : Scanner} {u : List Char} (h : p.run T u = .ok p') (v : List Char) :
    p.run T (u ++ v) = p'.run T v := by
  rw [Scanner.run_append, h]
  rfl

/-- The loop goes on after a turn. -/
theorem Scanner.run_cons_ok {p' : Scanner} {r : Char} (h : p.step T r = .ok p') (u : List Char) :
    p.run T (r :: u) = p'.run T u := by
  rw [Scanner.run, h]
  rfl

/-- A turn that stays in its state writes its rune. -/
theorem Scanner.step_same {r : Char} (hnl : isNewline r = false) (hparse : parseRuneForState r p.curr = .ok (p.curr, r))
    (hprint : T.isPrint r = true) : p.step T r = .ok { p with b := p.b ++ [r] } := by
  unfold Scanner.step
  simp only [hnl, Bool.false_eq_true, if_false, hparse, if_true]
  rw [Scanner.put_isPrint p hprint]

/-- Turns that stay in their state write their runes. -/
theorem Scanner.run_same {u : List Char} (hnl : ∀ r ∈ u, isNewline r = false)
    (hparse : ∀ r ∈ u, parseRuneForState r p.curr = .ok (p.curr, r)) (hprint : ∀ r ∈ u, T.isPrint r = true) :
    p.run T u = .ok { p with b := p.b ++ u } := by
  induction u generalizing p with
  | nil => rw [List.append_nil]; rfl
  | cons r u ih =>
    have hmem : ∀ x ∈ u, x ∈ r :: u := fun x hx => List.mem_cons_of_mem r hx
    rw [Scanner.run, Scanner.step_same (hnl r (List.mem_cons_self ..)) (hparse r (List.mem_cons_self ..))
      (hprint r (List.mem_cons_self ..))]
    refine (ih (p := { p with b := p.b ++ [r] }) (fun x hx => hnl x (hmem x hx)) (fun x hx => hparse x (hmem x hx))
      (fun x hx => hprint x (hmem x hx))).trans ?_
    rw [List.append_assoc, List.singleton_append]

/-- A turn that ends its state at a blank. -/
theorem Scanner.step_space (next : State) {c : Char} (hc : isSpace c = true)
    (hparse : parseRuneForState c p.curr = .ok (next, noRune)) (hnext : next ≠ p.curr) :
    p.step T c = p.transition T next noRune := by
  have hnl : isNewline c = false := by
    by_contra hnl
    rw [isSpace_of_isNewline (Bool.not_eq_false _ ▸ hnl)] at hc
    exact Bool.false_ne_true hc
  unfold Scanner.step
  simp only [hnl, Bool.false_eq_true, if_false, hparse, if_neg hnext]

/-- The name of a command and the blank after it. -/
theorem Scanner.run_command {k : List Char} (hcurr : p.curr = .nil) (hne : k ≠ []) (halpha : ∀ r ∈ k, isAlpha r = true)
    (hvalid : isValidCommand k = true) :
    p.run T (k ++ [' ']) = .ok (({ p with curr := .name, b := k } : Scanner).command (toLower k) .value) := by
  rcases k with _ | ⟨c, k⟩
  · exact absurd rfl hne
  · have hc := isNameRune_of_isAlpha (halpha c (List.mem_cons_self ..))
    have hk : ∀ r ∈ k, isAlpha r = true := fun r hr => halpha r (List.mem_cons_of_mem c hr)
    have hlo := (isNameRune_bounds hc).1
    have hhash : c ≠ '#' := by
      rintro rfl
      exact absurd hlo (by decide)
    have hspace : isSpace c = false := by
      by_contra hspace
      rw [Bool.not_eq_false, isSpace, Bool.or_eq_true, beq_iff_eq, beq_iff_eq] at hspace
      rcases hspace with rfl | rfl
      · exact absurd hlo (by decide)
      · exact absurd hlo (by decide)
    have hparse : parseRuneForState c .nil = .ok (.name, c) := by
      rw [parseRuneForState, if_neg hhash, hspace, isNewline_of_isNameRune hc]
      rfl
    have hfirst : p.step T c = .ok { p with curr := .name, b := [c] } := by
      have hne' : State.name ≠ State.nil := State.noConfusion
      unfold Scanner.step
      simp only [isNewline_of_isNameRune hc, Bool.false_eq_true, if_false, hcurr, hparse, if_neg hne',
        Scanner.transition]
      rw [Scanner.put_isPrint _ (isPrint_of_isNameRune T hc)]
      rfl
    have hrest : Scanner.run T { p with curr := .name, b := [c] } k = .ok { p with curr := .name, b := c :: k } := by
      refine Scanner.run_same (p := { p with curr := .name, b := [c] })
        (fun r hr => isNewline_of_isNameRune (isNameRune_of_isAlpha (hk r hr)))
        (fun r hr => ?_) (fun r hr => isPrint_of_isNameRune T (isNameRune_of_isAlpha (hk r hr)))
      rw [parseRuneForState, if_pos (hk r hr)]
    rw [List.cons_append, Scanner.run_cons_ok hfirst]
    rw [Scanner.run_append_ok hrest, Scanner.run,
      Scanner.step_space (p := { p with curr := .name, b := c :: k }) .value rfl rfl State.noConfusion]
    simp only [Scanner.transition, hvalid, if_true, Scanner.put_noRune]
    rfl

/-- The name of a parameter and the blank after it. -/
theorem Scanner.run_parameter {name : List Char} (hcurr : p.curr = .parameter) (hb : p.b = [])
    (hname : ∀ r ∈ name, isNameRune r = true) :
    p.run T (name ++ [' ']) = .ok { p with cmd.name := name, curr := .value, b := [] } := by
  have hrun : p.run T name = .ok { p with b := name } := by
    refine (Scanner.run_same (fun r hr => isNewline_of_isNameRune (hname r hr)) (fun r hr => ?_)
      (fun r hr => isPrint_of_isNameRune T (hname r hr))).trans ?_
    · have hr' := hname r hr
      unfold isNameRune at hr'
      rw [hcurr, parseRuneForState, if_pos hr']
    · rw [hb, List.nil_append]
  rw [Scanner.run_append_ok hrun, Scanner.run,
    Scanner.step_space (p := { p with b := name }) .value rfl (by rw [hcurr]; rfl)
    (by rw [hcurr]; exact State.noConfusion)]
  simp only [Scanner.transition, hcurr, Scanner.put_noRune]
  rfl

/-- The letters of a role. -/
theorem Scanner.run_letters {role : List Char} (hcurr : p.curr = .message) (hb : p.b = [])
    (halpha : ∀ r ∈ role, isAlpha r = true) :
    p.run T role = .ok { p with b := role } := by
  refine (Scanner.run_same (fun r hr => isNewline_of_isNameRune (isNameRune_of_isAlpha (halpha r hr))) (fun r hr => ?_)
    (fun r hr => isPrint_of_isNameRune T (isNameRune_of_isAlpha (halpha r hr)))).trans ?_
  · rw [hcurr, parseRuneForState, if_pos (halpha r hr)]
  · rw [hb, List.nil_append]

/-- A role and the blank after it. -/
theorem Scanner.run_role {role : List Char} {c : Char} (hcurr : p.curr = .message) (hb : p.b = [])
    (halpha : ∀ r ∈ role, isAlpha r = true) (hc : isSpace c = true) :
    p.run T (role ++ [c]) =
      if isValidMessageRole role then .ok { p with role := role, curr := .value, b := [] }
      else .error (.parserError p.currLine errInvalidMessageRole) := by
  have hparse : parseRuneForState c .message = .ok (.value, noRune) := by
    have halpha' : isAlpha c = false := by
      rw [isSpace, Bool.or_eq_true, beq_iff_eq, beq_iff_eq] at hc
      rcases hc with rfl | rfl
      · rfl
      · rfl
    rw [parseRuneForState, halpha', hc]
    rfl
  rw [Scanner.run_append_ok (Scanner.run_letters hcurr hb halpha), Scanner.run,
    Scanner.step_space (p := { p with b := role }) .value hc (by rw [hcurr]; exact hparse)
    (by rw [hcurr]; exact State.noConfusion)]
  simp only [Scanner.transition, hcurr]
  by_cases hvalid : isValidMessageRole role = true
  · rw [if_pos hvalid, if_pos hvalid, Scanner.put_noRune]
    rfl
  · rw [if_neg hvalid, if_neg hvalid]
    rfl

/-! ## Values -/

/-- The runes of a value up to a line break. -/
theorem Scanner.step_value {r : Char} (hcurr : p.curr = .value) (hnl : isNewline r = false) :
    p.step T r = .ok (if isSpace r then { p with b := p.b ++ [r] } else p.put T r) := by
  unfold Scanner.step
  by_cases hspace : isSpace r = true
  · have hne : State.nil ≠ State.value := State.noConfusion
    simp only [hnl, Bool.false_eq_true, if_false, hcurr, parseRuneForState, hspace, if_true, if_neg hne,
      Scanner.transition]
    cases unquote (trimSpace p.b) with
    | none => rfl
    | some s => rfl
  · simp only [hnl, Bool.false_eq_true, if_false, hcurr, parseRuneForState, hspace, if_true]

/-- The runes of a value that get into the buffer. -/
theorem Scanner.step_kept {r : Char} (hcurr : p.curr = .value) (hnl : isNewline r = false) (hk : Kept T r) :
    p.step T r = .ok { p with b := p.b ++ [r] } := by
  rw [Scanner.step_value hcurr hnl]
  by_cases hspace : isSpace r = true
  · rw [if_pos hspace]
  · rw [if_neg hspace]
    rcases hk with hk | hk | hk
    · exact absurd hk hspace
    · rw [hnl] at hk
      exact absurd hk Bool.false_ne_true
    · rw [Scanner.put_isPrint p hk]

/-- A line break in a value: it gets into the buffer, or the value ends. -/
theorem Scanner.step_newline {r : Char} (hcurr : p.curr = .value) (hnl : isNewline r = true) :
    p.step T r = .ok (match unquote (trimSpace p.b) with
      | none => { p with currLine := p.currLine + 1, b := p.b ++ [r] }
      | some s => (({ p with currLine := p.currLine + 1 } : Scanner).append s).enter .nil) := by
  have hne : State.nil ≠ State.value := State.noConfusion
  unfold Scanner.step
  simp only [hnl, if_true, hcurr, parseRuneForState, if_neg hne, Scanner.transition]
  cases unquote (trimSpace p.b) with
  | none => rfl
  | some s =>
    simp only [isSpace_of_isNewline hnl, Bool.false_eq_true, if_false, Scanner.put_newline T _ hnl]

/-- A text in which the value does not end gets into the buffer. -/
theorem Scanner.run_open {u : List Char} (hcurr : p.curr = .value) (hk : ∀ r ∈ u, Kept T r) (hopen : Open (p.b ++ u)) :
    p.run T u = .ok { p with currLine := p.currLine + u.countP isNewline, b := p.b ++ u } := by
  induction u generalizing p with
  | nil => rw [List.append_nil]; rfl
  | cons r u ih =>
    have hk' : ∀ x ∈ u, Kept T x := fun x hx => hk x (List.mem_cons_of_mem r hx)
    have hassoc : p.b ++ r :: u = p.b ++ [r] ++ u := by rw [List.append_assoc, List.singleton_append]
    rw [hassoc] at hopen ⊢
    rw [Scanner.run]
    by_cases hnl : isNewline r = true
    · rw [Scanner.step_newline hcurr hnl, hopen p.b r u (by rw [List.append_assoc, List.singleton_append]) hnl]
      refine (ih (p := { p with currLine := p.currLine + 1, b := p.b ++ [r] }) hcurr hk' hopen).trans ?_
      rw [List.countP_cons, if_pos hnl, Nat.add_assoc, Nat.add_comm 1]
    · rw [Scanner.step_kept hcurr (Bool.not_eq_true _ ▸ hnl) (hk r (List.mem_cons_self ..))]
      refine (ih (p := { p with b := p.b ++ [r] }) hcurr hk' hopen).trans ?_
      rw [List.countP_cons, if_neg hnl, Nat.add_zero]

end Steps

/-- A text in which no value ends, one rune more. -/
theorem Open.concat {u : List Char} {r : Char} (h : Open u)
    (hr : isNewline r = true → unquote (trimSpace u) = none) : Open (u ++ [r]) := by
  intro v nl w hsplit hnl
  rcases List.eq_nil_or_concat w with rfl | ⟨w', x, rfl⟩
  · obtain ⟨rfl, hx⟩ := List.append_inj' hsplit rfl
    rw [List.singleton_inj] at hx
    exact hr (hx ▸ hnl)
  · rw [List.concat_eq_append, ← List.cons_append, ← List.append_assoc] at hsplit
    exact h v nl w' (List.append_inj' hsplit rfl).1 hnl

/-- In a text either no value ends, or one ends at the first line break at which one can. -/
theorem open_or_ends (u : List Char) :
    Open u ∨ ∃ v nl w s, u = v ++ nl :: w ∧ Open v ∧ isNewline nl = true ∧ unquote (trimSpace v) = some s := by
  induction u using List.reverseRecOn with
  | nil =>
    left
    intro v nl w h
    exact absurd h.symm (by simp)
  | append_singleton u r ih =>
    rcases ih with ih | ⟨v, nl, w, s, rfl, hv, hnl, hs⟩
    · by_cases hr : isNewline r = true → unquote (trimSpace u) = none
      · exact Or.inl (ih.concat hr)
      · rw [Classical.not_imp] at hr
        obtain ⟨s, hs⟩ := Option.ne_none_iff_exists'.1 hr.2
        exact Or.inr ⟨u, r, [], s, rfl, ih, hr.1, hs⟩
    · exact Or.inr ⟨v, nl, w ++ [r], s, by rw [List.append_assoc, List.cons_append], hv, hnl, hs⟩

end Ollama.Parser
