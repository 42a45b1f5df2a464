import Ollama.Parser.Lemmas.Scan

/-!
# The commands of a file

Commands are only ever added. Every command that is read has a name of letters, digits and underscores and an argument
of runes that get into the buffer of a value, with no line break after three quotes and blanks.
-/

namespace Ollama.Parser

open Lib

variable {T : PrintTable} {p p' : Scanner}

/-- The four ways in which the name of a command is taken: the name that the command has then, and the state. -/
theorem Scanner.command_cases (s : List Char) (next : State) (p : Scanner) :
    (s = "from".toList ∧ p.command s next = { p with cmd.name := "model".toList, b := [], curr := next }) ∨
    (s = "parameter".toList ∧ p.command s next = { p with b := [], curr := .parameter }) ∨
    (s = "message".toList ∧ p.command s next = { p with cmd.name := s, b := [], curr := .message }) ∨
    p.command s next = { p with cmd.name := s, b := [], curr := next } := by
  unfold Scanner.command
  by_cases hfrom : s = "from".toList
  · rw [if_pos hfrom]
    exact Or.inl ⟨hfrom, rfl⟩
  rw [if_neg hfrom]
  by_cases hparameter : s = "parameter".toList
  · rw [if_pos hparameter]
    exact Or.inr (Or.inl ⟨hparameter, rfl⟩)
  rw [if_neg hparameter]
  by_cases hmessage : s = "message".toList
  · rw [if_pos hmessage]
    exact Or.inr (Or.inr (Or.inl ⟨hmessage, rfl⟩))
  · rw [if_neg hmessage]
    exact Or.inr (Or.inr (Or.inr rfl))

/-- What a turn can do, but for the count of lines. -/
inductive Turn (T : PrintTable) (p : Scanner) : Scanner → Prop where
  /-- The state stays, between commands and in comments. -/
  | idle (line : Nat) {b : List Char} {next : State} (hcurr : p.curr = .nil ∨ p.curr = .comment)
      (hnext : next = .nil ∨ next = .comment ∨ next = .name) :
        Turn T p { p with currLine := line, b := b, curr := next }
  /-- A letter of the name of a command or of a role. -/
  | letter (line : Nat) {b : List Char} (hcurr : p.curr = .name ∨ p.curr = .message) :
      Turn T p { p with currLine := line, b := b }
  /-- The name of a command has been read. -/
  | command (line : Nat) (hcurr : p.curr = .name) (hvalid : isValidCommand p.b = true) :
      Turn T p (({ p with currLine := line } : Scanner).command (toLower p.b) .value)
  /-- A rune of the name of a parameter. -/
  | rune (line : Nat) {r : Char} (hcurr : p.curr = .parameter) (hr : isNameRune r = true) :
      Turn T p { p with currLine := line, b := p.b ++ [r] }
  /-- The name of a parameter has been read. -/
  | parameter (line : Nat) (hcurr : p.curr = .parameter) :
      Turn T p { p with currLine := line, cmd.name := p.b, b := [], curr := .value }
  /-- A role has been read. -/
  | role (line : Nat) (hcurr : p.curr = .message) (hvalid : isValidMessageRole p.b = true) :
      Turn T p { p with currLine := line, role := p.b, b := [], curr := .value }
  /-- A rune of a value that does not get into the buffer. -/
  | skip (line : Nat) (hcurr : p.curr = .value) : Turn T p { p with currLine := line }
  /-- A rune of a value: no value ends at it. -/
  | value (line : Nat) {r : Char} (hcurr : p.curr = .value) (hk : Kept T r)
      (hopen : isNewline r = true → unquote (trimSpace p.b) = none) :
        Turn T p { p with currLine := line, b := p.b ++ [r] }
  /-- A value ends. -/
  | append (line : Nat) {s : List Char} (hcurr : p.curr = .value) (hs : unquote (trimSpace p.b) = some s) :
      Turn T p ((({ p with currLine := line } : Scanner).append s).enter .nil)

/-- A turn that keeps its state and writes, for a state whose buffer is not looked at. -/
theorem Scanner.exists_put (T : PrintTable) (p : Scanner) (r : Char) : ∃ b, p.put T r = { p with b := b } := by
  unfold Scanner.put
  split
  · exact ⟨_, rfl⟩
  · exact ⟨p.b, rfl⟩

/-- What follows between commands and in comments. -/
theorem parse_idle {r : Char} {curr : State} (hcurr : curr = .nil ∨ curr = .comment) :
    ∃ next r', parseRuneForState r curr = .ok (next, r') ∧ (next = .nil ∨ next = .comment ∨ next = .name) := by
  rcases hcurr with rfl | rfl
  · rw [parseRuneForState]
    by_cases hhash : r = '#'
    · rw [if_pos hhash]
      exact ⟨.comment, noRune, rfl, Or.inr (Or.inl rfl)⟩
    rw [if_neg hhash]
    by_cases hblank : (isSpace r || isNewline r) = true
    · rw [if_pos hblank]
      exact ⟨.nil, noRune, rfl, Or.inl rfl⟩
    · rw [if_neg hblank]
      exact ⟨.name, r, rfl, Or.inr (Or.inr rfl)⟩
  · rw [parseRuneForState]
    by_cases hnl : isNewline r = true
    · rw [if_pos hnl]
      exact ⟨.nil, noRune, rfl, Or.inl rfl⟩
    · rw [if_neg hnl]
      exact ⟨.comment, noRune, rfl, Or.inr (Or.inl rfl)⟩

/-- A turn without the count of lines. -/
theorem Scanner.step_eq (T : PrintTable) (p : Scanner) (r : Char) :
    ∃ line, p.step T r = match parseRuneForState r p.curr with
      | .error .unexpectedEOF => .error (.unexpectedEOFAfter p.b)
      | .error .invalidCommand => .error (.parserError line errInvalidCommand)
      | .ok (next, r') =>
        if next = p.curr then .ok (({ p with currLine := line } : Scanner).put T r')
        else ({ p with currLine := line } : Scanner).transition T next r' := by
  unfold Scanner.step
  by_cases hnl : isNewline r = true
  · rw [if_pos hnl]
    exact ⟨p.currLine + 1, rfl⟩
  · rw [if_neg hnl]
    exact ⟨p.currLine, rfl⟩

/-- Every turn is one of those. -/
theorem turn_of_step {r : Char} (h : p.step T r = .ok p') : Turn T p p' := by
  obtain ⟨line, hstep⟩ := Scanner.step_eq T p r
  rw [hstep] at h
  have hidle : p.curr = .nil ∨ p.curr = .comment → Turn T p p' := by
    intro hcurr
    obtain ⟨next, r', hparse, hnext⟩ := parse_idle (r := r) hcurr
    rw [hparse] at h
    dsimp only at h
    by_cases hsame : next = p.curr
    · rw [if_pos hsame] at h
      obtain ⟨b, hb⟩ := Scanner.exists_put T { p with currLine := line } r'
      rw [hb] at h
      have hturn : Turn T p { p with currLine := line, b := b, curr := next } := .idle line hcurr hnext
      rw [hsame] at hturn
      exact Except.ok.inj h ▸ hturn
    · rw [if_neg hsame] at h
      have htransition : Scanner.transition T next r' { p with currLine := line } =
          .ok ((({ p with currLine := line } : Scanner).enter next).put T r') := by
        unfold Scanner.transition
        rcases hcurr with hcurr | hcurr
        · simp only [hcurr]
        · simp only [hcurr]
      obtain ⟨b, hb⟩ := Scanner.exists_put T (({ p with currLine := line } : Scanner).enter next) r'
      rw [htransition, hb] at h
      exact Except.ok.inj h ▸ .idle line hcurr hnext
  have hstay : parseRuneForState r p.curr = .ok (p.curr, r) → ({ p with currLine := line } : Scanner).put T r = p' := by
    intro hparse
    rw [hparse] at h
    simp only [if_true] at h
    exact Except.ok.inj h
  have hletter : isAlpha r = true → p.curr = .name ∨ p.curr = .message → Turn T p p' := by
    intro halpha hcurr
    obtain ⟨b, hb⟩ := Scanner.exists_put T { p with currLine := line } r
    have hparse : parseRuneForState r p.curr = .ok (p.curr, r) := by
      rcases hcurr with hcurr | hcurr
      · rw [hcurr, parseRuneForState, if_pos halpha]
      · rw [hcurr, parseRuneForState, if_pos halpha]
    rw [← hstay hparse, hb]
    exact .letter line hcurr
  cases hcurr : p.curr with
  | nil => exact hidle (Or.inl hcurr)
  | comment => exact hidle (Or.inr hcurr)
  | name =>
    by_cases halpha : isAlpha r = true
    · exact hletter halpha (Or.inl hcurr)
    rw [hcurr, parseRuneForState, if_neg halpha] at h
    by_cases hspace : isSpace r = true
    · rw [if_pos hspace] at h
      have hne : State.value ≠ State.name := State.noConfusion
      simp only [if_neg hne, Scanner.transition, Scanner.put_noRune] at h
      by_cases hvalid : isValidCommand p.b = true
      · rw [if_pos hvalid] at h
        exact Except.ok.inj h ▸ .command line hcurr hvalid
      · rw [if_neg hvalid] at h
        cases h
    · rw [if_neg hspace] at h
      cases h
  | parameter =>
    by_cases hname : (isAlpha r || isNumber r || r == '_') = true
    · rw [← hstay (by rw [hcurr, parseRuneForState, if_pos hname]),
        Scanner.put_isPrint _ (isPrint_of_isNameRune T hname)]
      exact .rune line hcurr hname
    rw [hcurr, parseRuneForState, if_neg hname] at h
    by_cases hspace : isSpace r = true
    · rw [if_pos hspace] at h
      have hne : State.value ≠ State.parameter := State.noConfusion
      simp only [if_neg hne, Scanner.transition, Scanner.put_noRune] at h
      exact Except.ok.inj h ▸ .parameter line hcurr
    · rw [if_neg hspace] at h
      cases h
  | message =>
    by_cases halpha : isAlpha r = true
    · exact hletter halpha (Or.inr hcurr)
    rw [hcurr, parseRuneForState, if_neg halpha] at h
    by_cases hspace : isSpace r = true
    · rw [if_pos hspace] at h
      have hne : State.value ≠ State.message := State.noConfusion
      simp only [if_neg hne, Scanner.transition, Scanner.put_noRune] at h
      by_cases hvalid : isValidMessageRole p.b = true
      · rw [if_pos hvalid] at h
        exact Except.ok.inj h ▸ .role line hcurr hvalid
      · rw [if_neg hvalid] at h
        cases h
    · rw [if_neg hspace] at h
      cases h
  | value =>
    rw [← hstep] at h
    by_cases hnl : isNewline r = true
    · rw [Scanner.step_newline hcurr hnl] at h
      cases hs : unquote (trimSpace p.b) with
      | none =>
        rw [hs] at h
        exact Except.ok.inj h ▸ .value _ hcurr (Or.inr (Or.inl hnl)) (fun _ => hs)
      | some s =>
        rw [hs] at h
        exact Except.ok.inj h ▸ .append _ hcurr hs
    · rw [Scanner.step_value hcurr (Bool.not_eq_true _ ▸ hnl)] at h
      by_cases hspace : isSpace r = true
      · rw [if_pos hspace] at h
        exact Except.ok.inj h ▸ .value p.currLine hcurr (Or.inl hspace) (fun hnl' => absurd hnl' hnl)
      rw [if_neg hspace] at h
      by_cases hprint : T.isPrint r = true
      · rw [Scanner.put_isPrint p hprint] at h
        exact Except.ok.inj h ▸ .value p.currLine hcurr (Or.inr (Or.inr hprint)) (fun hnl' => absurd hnl' hnl)
      · rw [Scanner.put, if_neg hprint] at h
        exact Except.ok.inj h ▸ .skip p.currLine hcurr

/-! ## Commands are only added -/

/-- A turn keeps the commands. -/
theorem Turn.commands (h : Turn T p p') : p.commands <+: p'.commands := by
  cases h with
  | command line hcurr hvalid =>
    rcases Scanner.command_cases (toLower p.b) .value { p with currLine := line } with ⟨-, h⟩ | ⟨-, h⟩ | ⟨-, h⟩ | h
    all_goals
      rw [h]
  | append line hcurr hs => exact List.prefix_append _ _
  | _ => exact List.prefix_refl _

/-- The loop keeps the commands. -/
theorem Scanner.run_commands {u : List Char} (h : p.run T u = .ok p') : p.commands <+: p'.commands := by
  induction u generalizing p with
  | nil =>
    rw [Except.ok.inj h]
  | cons r u ih =>
    rw [Scanner.run] at h
    cases hstep : p.step T r with
    | error e =>
      rw [hstep] at h
      cases h
    | ok p₁ =>
      rw [hstep] at h
      exact (turn_of_step hstep).commands.trans (ih h)

/-- The end of the input keeps the commands. -/
theorem Scanner.finish_commands {cs : List Command} (h : p.finish = .ok cs) : p.commands <+: cs := by
  unfold Scanner.finish at h
  cases hcurr : p.curr with
  | nil =>
    rw [hcurr] at h
    exact Except.ok.inj h ▸ List.prefix_refl _
  | comment =>
    rw [hcurr] at h
    exact Except.ok.inj h ▸ List.prefix_refl _
  | value =>
    rw [hcurr] at h
    cases hs : unquote (trimSpace p.b) with
    | none =>
      rw [hs] at h
      exact absurd h nofun
    | some s =>
      rw [hs] at h
      exact Except.ok.inj h ▸ List.prefix_append _ _
  | _ =>
    rw [hcurr] at h
    exact absurd h nofun

/-- The first command that is read from a value on: its argument is read from a beginning `v` of the text. -/
theorem Scanner.first_command {u : List Char} {cs : List Command} (hcurr : p.curr = .value) (hb : p.b = [])
    (hk : ∀ r ∈ u, Kept T r) (hrun : p.run T u = .ok p') (hfinish : p'.finish = .ok cs) :
    ∃ v w s rest, u = v ++ w ∧ Open v ∧ unquote (trimSpace v) = some s ∧
      cs = p.commands ++ { p.cmd with args := p.argument s } :: rest := by
  rcases open_or_ends u with hopen | ⟨v, nl, w, s, rfl, hopen, hnl, hs⟩
  · rw [Scanner.run_open hcurr hk (by rw [hb, List.nil_append]; exact hopen), hb, List.nil_append] at hrun
    rw [← Except.ok.inj hrun, Scanner.finish] at hfinish
    simp only [hcurr] at hfinish
    cases hs : unquote (trimSpace u) with
    | none =>
      rw [hs] at hfinish
      exact absurd hfinish nofun
    | some s =>
      rw [hs] at hfinish
      exact ⟨u, [], s, [], by rw [List.append_nil], hopen, hs, (Except.ok.inj hfinish).symm⟩
  · have hkv : ∀ r ∈ v, Kept T r := fun r hr => hk r (List.mem_append_left _ hr)
    have hvalue := Scanner.run_open hcurr hkv (by rw [hb, List.nil_append]; exact hopen)
    rw [hb, List.nil_append] at hvalue
    rw [Scanner.run_append_ok hvalue, Scanner.run,
      Scanner.step_newline (p := { p with currLine := p.currLine + v.countP isNewline, b := v }) hcurr hnl] at hrun
    simp only [hs] at hrun
    obtain ⟨rest, hrest⟩ := (Scanner.run_commands hrun).trans (Scanner.finish_commands hfinish)
    refine ⟨v, nl :: w, s, rest, rfl, hopen, hs, ?_⟩
    rw [← hrest]
    change p.commands ++ [{ p.cmd with args := p.argument s }] ++ rest = _
    rw [List.append_assoc, List.singleton_append]

/-! ## What the commands are -/

/-- A command that can be read: its name and its argument. -/
structure Readable (T : PrintTable) (c : Command) : Prop where
  name : ∀ r ∈ c.name, isNameRune r = true
  args : ∀ r ∈ c.args, Kept T r
  unbroken : Unbroken c.args

/-- What the variables of `ParseFile` are on the way. -/
structure Scanner.Valid (T : PrintTable) (p : Scanner) : Prop where
  name : ∀ r ∈ p.cmd.name, isNameRune r = true
  commands : ∀ c ∈ p.commands, Readable T c
  role : p.role = [] ∨ isValidMessageRole p.role = true
  parameter : p.curr = .parameter → ∀ r ∈ p.b, isNameRune r = true
  kept : p.curr = .value → ∀ r ∈ p.b, Kept T r
  value : p.curr = .value → Open p.b

/-- The names of commands are those of the list. -/
theorem name_of_isValidCommand {s : List Char} (h : isValidCommand s = true) :
    ∀ r ∈ toLower s, isNameRune r = true := by
  unfold isValidCommand at h
  rw [List.contains_iff_mem] at h
  have hall : ["from".toList, "license".toList, "template".toList, "system".toList, "adapter".toList,
    "parameter".toList, "message".toList].all (fun k => k.all isNameRune) = true := by decide
  exact List.all_eq_true.1 (List.all_eq_true.1 hall _ h)

/-- The roles. -/
theorem role_cases {role : List Char} (h : isValidMessageRole role = true) :
    role = "system".toList ∨ role = "user".toList ∨ role = "assistant".toList := by
  unfold isValidMessageRole at h
  simp only [Bool.or_eq_true, beq_iff_eq] at h
  tauto

/-- A role is a word of letters. -/
theorem isAlpha_of_role {role : List Char} (h : isValidMessageRole role = true) : ∀ r ∈ role, isAlpha r = true := by
  rcases role_cases h with rfl | rfl | rfl
  · exact List.all_eq_true.1 (by decide)
  · exact List.all_eq_true.1 (by decide)
  · exact List.all_eq_true.1 (by decide)

/-- The runes of what `unquote` gives are runes of the text. -/
theorem mem_of_unquote {b s : List Char} (h : unquote (trimSpace b) = some s) {r : Char} (hr : r ∈ s) : r ∈ b := by
  refine mem_of_mem_trim (p := unicodeIsSpace) ?_
  change r ∈ trimSpace b
  rcases unquote_cases h with ht | ⟨-, ht⟩ | ⟨-, ht⟩
  · rw [ht]
    exact List.mem_append_right _ (List.mem_append_left _ hr)
  · rw [ht]
    exact List.mem_cons_of_mem _ (List.mem_append_left _ hr)
  · rw [ht]
    exact hr

/-- A part that has no quote, before a text, breaks nothing. -/
theorem Unbroken.append_left {a s : List Char} (h : Unbroken s) (ha : '"' ∉ a) : Unbroken (a ++ s) := by
  intro u ws nl w hsplit hws
  have hcons : a ++ s = u ++ '"' :: (['"', '"'] ++ (ws ++ nl :: w)) := hsplit
  obtain ⟨u', -, hs⟩ := split_right hcons ha
  exact h u' ws nl w hs hws

/-- A part of a text that is not broken is not. -/
theorem Unbroken.of_append {a s : List Char} (h : Unbroken (a ++ s)) : Unbroken s := by
  intro u ws nl w hsplit hws
  exact h (a ++ u) ws nl w (by rw [hsplit, List.append_assoc]) hws

/-- The runes of names get into the buffer. -/
theorem kept_of_isNameRune (T : PrintTable) {r : Char} (h : isNameRune r = true) : Kept T r :=
  Or.inr (Or.inr (isPrint_of_isNameRune T h))

/-- The command that ends with a value can be read. -/
theorem Scanner.Valid.readable (h : p.Valid T) {s : List Char} (hcurr : p.curr = .value)
    (hs : unquote (trimSpace p.b) = some s) :
    Readable T { p.cmd with args := p.argument s } := by
  have hkept : ∀ r ∈ s, Kept T r := fun r hr => h.kept hcurr r (mem_of_unquote hs hr)
  have hunbroken := unbroken_of_open (h.value hcurr) hs
  refine ⟨h.name, ?_, ?_⟩
  · intro r hr
    change r ∈ p.argument s at hr
    unfold Scanner.argument at hr
    by_cases hrole : p.role = []
    · rw [if_neg (not_not.2 hrole)] at hr
      exact hkept r hr
    · rw [if_pos hrole, List.mem_append, List.mem_append] at hr
      rcases hr with (hr | hr) | hr
      · have halpha := isAlpha_of_role (h.role.resolve_left hrole) r hr
        exact kept_of_isNameRune T (isNameRune_of_isAlpha halpha)
      · have hcolon : r = ':' ∨ r = ' ' := by simpa using hr
        rcases hcolon with rfl | rfl
        · exact Or.inr (Or.inr (T.ascii ':' (by decide)))
        · exact Or.inl rfl
      · exact hkept r hr
  · change Unbroken (p.argument s)
    unfold Scanner.argument
    by_cases hrole : p.role = []
    · rw [if_neg (not_not.2 hrole)]
      exact hunbroken
    · rw [if_pos hrole]
      refine hunbroken.append_left ?_
      rcases role_cases (h.role.resolve_left hrole) with hr | hr | hr
      · rw [hr]; decide
      · rw [hr]; decide
      · rw [hr]; decide

/-- A turn keeps the variables valid. -/
theorem Scanner.Valid.turn (h : p.Valid T) (hturn : Turn T p p') : p'.Valid T := by
  cases hturn with
  | @idle line b next hcurr hnext =>
    have hother : next ≠ .parameter ∧ next ≠ .value := by
      rcases hnext with rfl | rfl | rfl
      all_goals exact ⟨State.noConfusion, State.noConfusion⟩
    exact ⟨h.name, h.commands, h.role, fun hp => absurd hp hother.1, fun hv => absurd hv hother.2,
      fun hv => absurd hv hother.2⟩
  | @letter line b hcurr =>
    have hother : p.curr ≠ .parameter ∧ p.curr ≠ .value := by
      rcases hcurr with hcurr | hcurr
      all_goals
        rw [hcurr]
        exact ⟨State.noConfusion, State.noConfusion⟩
    exact ⟨h.name, h.commands, h.role, fun hp => absurd hp hother.1, fun hv => absurd hv hother.2,
      fun hv => absurd hv hother.2⟩
  | command line hcurr hvalid =>
    have hname := name_of_isValidCommand hvalid
    have hmodel : ∀ r ∈ "model".toList, isNameRune r = true := List.all_eq_true.1 (by decide)
    have hnil : Open [] := fun u nl w hu => absurd hu.symm (by simp)
    rcases Scanner.command_cases (toLower p.b) .value { p with currLine := line } with ⟨-, hc⟩ | ⟨-, hc⟩ | ⟨-, hc⟩ | hc
    · rw [hc]
      exact ⟨hmodel, h.commands, h.role, nofun, fun _ => nofun, fun _ => hnil⟩
    · rw [hc]
      exact ⟨h.name, h.commands, h.role, fun _ => nofun, nofun, nofun⟩
    · rw [hc]
      exact ⟨hname, h.commands, h.role, nofun, nofun, nofun⟩
    · rw [hc]
      exact ⟨hname, h.commands, h.role, nofun, fun _ => nofun, fun _ => hnil⟩
  | @rune line r hcurr hr =>
    refine ⟨h.name, h.commands, h.role, fun _ x hx => ?_, fun hv => ?_, fun hv => ?_⟩
    · rcases List.mem_append.1 hx with hx | hx
      · exact h.parameter hcurr x hx
      · exact List.mem_singleton.1 hx ▸ hr
    · exact absurd (hcurr.symm.trans hv) State.noConfusion
    · exact absurd (hcurr.symm.trans hv) State.noConfusion
  | parameter line hcurr =>
    exact ⟨h.parameter hcurr, h.commands, h.role, nofun, fun _ => nofun, fun _ u nl w hu => absurd hu.symm (by simp)⟩
  | role line hcurr hvalid =>
    exact ⟨h.name, h.commands, Or.inr hvalid, nofun, fun _ => nofun, fun _ u nl w hu => absurd hu.symm (by simp)⟩
  | skip line hcurr =>
    exact ⟨h.name, h.commands, h.role, h.parameter, h.kept, h.value⟩
  | @value line r hcurr hk hopen =>
    refine ⟨h.name, h.commands, h.role, fun hp => ?_, fun _ x hx => ?_, fun _ => (h.value hcurr).concat hopen⟩
    · exact absurd (hcurr.symm.trans hp) State.noConfusion
    · rcases List.mem_append.1 hx with hx | hx
      · exact h.kept hcurr x hx
      · exact List.mem_singleton.1 hx ▸ hk
  | @append line s hcurr hs =>
    refine ⟨h.name, fun c hc => ?_, Or.inl rfl, nofun, nofun, nofun⟩
    rcases List.mem_append.1 hc with hc | hc
    · exact h.commands c hc
    · rw [List.mem_singleton.1 hc]
      exact h.readable hcurr hs

/-- The loop keeps the variables valid. -/
theorem Scanner.Valid.run {u : List Char} (h : p.Valid T) (hrun : p.run T u = .ok p') : p'.Valid T := by
  induction u generalizing p with
  | nil => exact Except.ok.inj hrun ▸ h
  | cons r u ih =>
    rw [Scanner.run] at hrun
    cases hstep : p.step T r with
    | error e =>
      rw [hstep] at hrun
      cases hrun
    | ok p₁ =>
      rw [hstep] at hrun
      exact ih (h.turn (turn_of_step hstep)) hrun

/-- Every command of a file can be read. -/
theorem Scanner.Valid.finish {cs : List Command} (h : p.Valid T) (hfinish : p.finish = .ok cs) :
    ∀ c ∈ cs, Readable T c := by
  unfold Scanner.finish at hfinish
  cases hcurr : p.curr with
  | nil =>
    rw [hcurr] at hfinish
    exact Except.ok.inj hfinish ▸ h.commands
  | comment =>
    rw [hcurr] at hfinish
    exact Except.ok.inj hfinish ▸ h.commands
  | value =>
    rw [hcurr] at hfinish
    cases hs : unquote (trimSpace p.b) with
    | none =>
      rw [hs] at hfinish
      exact absurd hfinish nofun
    | some s =>
      rw [hs] at hfinish
      have hcs : (p.append s).commands = cs := Except.ok.inj hfinish
      intro c hc
      rw [← hcs] at hc
      rcases List.mem_append.1 hc with hc | hc
      · exact h.commands c hc
      · rw [List.mem_singleton.1 hc]
        exact h.readable hcurr hs
  | _ =>
    rw [hcurr] at hfinish
    exact absurd hfinish nofun

/-- The variables at the beginning are valid. -/
theorem valid_init (T : PrintTable) : ({} : Scanner).Valid T := ⟨nofun, nofun, Or.inl rfl, nofun, nofun, nofun⟩

end Ollama.Parser
