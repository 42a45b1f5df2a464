import Ollama.Parser.Lemmas.Commands

/-!
# What is read back of a Modelfile

A Modelfile that has been read is written as a text again, a line for each command. `parseFile_string_iff` says for
which Modelfiles the text is read as the same commands: an argument must have got quotes around it, or stand as it is
in a line (`Plain`), and `FROM` never puts quotes around its argument. A message must have its role.
-/

namespace Ollama.Parser

open Lib

/-- The commands that are read back from their lines. -/
def Command.Restored (c : Command) : Prop :=
  if c.name = "model".toList then Plain c.args
  else if c.name = "message".toList then
    ∃ role s, isValidMessageRole role = true ∧ c.args = role ++ ": ".toList ++ s ∧ (NeedsQuotes s ∨ Plain s)
  else NeedsQuotes c.args ∨ Plain c.args

namespace ModelfileAux

/-! ## The parts of a line -/

/-- What `Command.String` writes before the argument. -/
def keyword (c : Command) : List Char :=
  if c.name = "model".toList then "FROM".toList ++ [' ']
  else if c.name = "license".toList then "LICENSE".toList ++ [' ']
  else if c.name = "template".toList then "TEMPLATE".toList ++ [' ']
  else if c.name = "system".toList then "SYSTEM".toList ++ [' ']
  else if c.name = "adapter".toList then "ADAPTER".toList ++ [' ']
  else if c.name = "message".toList then "MESSAGE".toList ++ [' '] ++ ((cut c.args ": ".toList).1 ++ [' '])
  else "PARAMETER".toList ++ [' '] ++ (c.name ++ [' '])

/-- The role of a message. -/
def roleOf (c : Command) : List Char := if c.name = "message".toList then (cut c.args ": ".toList).1 else []

/-- The part of an argument that is written as the value of the line. -/
def part (c : Command) : List Char := if c.name = "message".toList then (cut c.args ": ".toList).2 else c.args

/-- The value of a line. -/
def written (c : Command) : List Char := if c.name = "model".toList then c.args else quote (part c)

/-- A line is what is written before the value, and the value. -/
theorem string_eq (c : Command) : c.string = keyword c ++ written c := by
  unfold Command.string keyword written part
  by_cases h₁ : c.name = "model".toList
  · rw [if_pos h₁, if_pos h₁, if_pos h₁]
    rfl
  rw [if_neg h₁, if_neg h₁, if_neg h₁]
  by_cases h₂ : c.name = "license".toList
  · rw [if_pos h₂, if_pos h₂, if_neg (by rw [h₂]; decide)]
    rfl
  rw [if_neg h₂, if_neg h₂]
  by_cases h₃ : c.name = "template".toList
  · rw [if_pos h₃, if_pos h₃, if_neg (by rw [h₃]; decide)]
    rfl
  rw [if_neg h₃, if_neg h₃]
  by_cases h₄ : c.name = "system".toList
  · rw [if_pos h₄, if_pos h₄, if_neg (by rw [h₄]; decide)]
    rfl
  rw [if_neg h₄, if_neg h₄]
  by_cases h₅ : c.name = "adapter".toList
  · rw [if_pos h₅, if_pos h₅, if_neg (by rw [h₅]; decide)]
    rfl
  rw [if_neg h₅, if_neg h₅]
  by_cases h₆ : c.name = "message".toList
  · rw [if_pos h₆, if_pos h₆, if_pos h₆]
    simp
  · rw [if_neg h₆, if_neg h₆, if_neg h₆]
    simp

/-- What is written before a value does not begin with a byte order mark. -/
theorem keyword_head (c : Command) (t : List Char) : (keyword c ++ t).head? ≠ some '\ufeff' := by
  unfold keyword
  split_ifs
  all_goals exact fun h => absurd (Option.some.inj h) (by decide)

/-! ## Roles -/

/-- A message is cut after its role. -/
theorem cut_role {role : List Char} (h : isValidMessageRole role = true) (s : List Char) :
    cut (role ++ ": ".toList ++ s) ": ".toList = (role, s) := by
  have hcolon : ':' ∉ role := fun hmem => absurd (isAlpha_of_role h ':' hmem) (by decide)
  have hindex : index ": ".toList (role ++ (": ".toList ++ s)) = some role.length := by
    rw [index_append]
    · have hzero : index ": ".toList (": ".toList ++ s) = some 0 :=
        index_eq_some_iff.2 ⟨Nat.zero_le _, List.prefix_append _ s, fun j hj => absurd hj (Nat.not_lt_zero j)⟩
      rw [hzero]
      rfl
    · rintro ⟨a, b, hab⟩
      refine hcolon (hab ▸ ?_)
      simp
    · rintro u v huv hu ⟨a, ha⟩
      rcases u with _ | ⟨d, u⟩
      · exact hu rfl
      · have hd : d = ':' := (List.cons.inj huv).1.symm
        refine hcolon (ha ▸ ?_)
        rw [hd]
        simp
  unfold cut
  rw [List.append_assoc, hindex]
  dsimp only
  rw [List.take_left' rfl, ← List.append_assoc]
  exact congrArg (Prod.mk role) (List.drop_left' (by simp))

/-- A role is not empty. -/
theorem role_ne_nil {role : List Char} (h : isValidMessageRole role = true) : role ≠ [] := by
  rintro rfl
  exact absurd h (by decide)

variable {T : PrintTable} {p p' : Scanner} {c : Command}

/-- What is before a value is read: the command gets its name, and a message its role. -/
theorem run_keyword (hcurr : p.curr = .nil) (hrole : p.role = []) (hname : ∀ r ∈ c.name, isNameRune r = true)
    (hmessage : c.name = "message".toList → isValidMessageRole (roleOf c) = true) :
    p.run T (keyword c) = .ok { p with cmd.name := c.name, curr := .value, b := [], role := roleOf c } := by
  have hplain : c.name ≠ "message".toList → roleOf c = p.role := by
    intro h
    rw [roleOf, if_neg h, hrole]
  have hword : ∀ k name : List Char, k ≠ [] → (∀ r ∈ k, isAlpha r = true) → isValidCommand k = true →
      (∀ q : Scanner, q.command (toLower k) .value = { q with cmd.name := name, b := [], curr := .value }) →
      c.name = name →
      name ≠ "message".toList → p.run T (k ++ [' ']) =
        .ok { p with cmd.name := c.name, curr := .value, b := [], role := roleOf c } := by
    intro k name hne halpha hvalid hcommand hc hno
    rw [Scanner.run_command hcurr hne halpha hvalid, hcommand, hplain (hc ▸ hno), hc]
  unfold keyword
  by_cases h₁ : c.name = "model".toList
  · rw [if_pos h₁]
    exact hword _ _ (by decide) (List.all_eq_true.1 (by decide)) (by decide) (fun q => rfl) h₁ (by decide)
  rw [if_neg h₁]
  by_cases h₂ : c.name = "license".toList
  · rw [if_pos h₂]
    exact hword _ _ (by decide) (List.all_eq_true.1 (by decide)) (by decide) (fun q => rfl) h₂ (by decide)
  rw [if_neg h₂]
  by_cases h₃ : c.name = "template".toList
  · rw [if_pos h₃]
    exact hword _ _ (by decide) (List.all_eq_true.1 (by decide)) (by decide) (fun q => rfl) h₃ (by decide)
  rw [if_neg h₃]
  by_cases h₄ : c.name = "system".toList
  · rw [if_pos h₄]
    exact hword _ _ (by decide) (List.all_eq_true.1 (by decide)) (by decide) (fun q => rfl) h₄ (by decide)
  rw [if_neg h₄]
  by_cases h₅ : c.name = "adapter".toList
  · rw [if_pos h₅]
    exact hword _ _ (by decide) (List.all_eq_true.1 (by decide)) (by decide) (fun q => rfl) h₅ (by decide)
  rw [if_neg h₅]
  by_cases h₆ : c.name = "message".toList
  · have hvalid := hmessage h₆
    have hcut : (cut c.args ": ".toList).1 = roleOf c := by rw [roleOf, if_pos h₆]
    have hcommand : ∀ q : Scanner,
        q.command (toLower "MESSAGE".toList) .value =
        { q with cmd.name := "message".toList, b := [], curr := .message } := fun q => rfl
    rw [if_pos h₆, hcut, Scanner.run_append,
      Scanner.run_command hcurr (by decide) (List.all_eq_true.1 (by decide)) (by decide), hcommand]
    refine (Scanner.run_role (p := { p with cmd.name := "message".toList, b := [], curr := .message }) rfl rfl
      (isAlpha_of_role hvalid) rfl).trans ?_
    rw [if_pos hvalid, h₆]
  · have hcommand : ∀ q : Scanner, q.command (toLower "PARAMETER".toList) .value =
      { q with b := [], curr := .parameter } := fun q => rfl
    rw [if_neg h₆, Scanner.run_append,
      Scanner.run_command hcurr (by decide) (List.all_eq_true.1 (by decide)) (by decide), hcommand, hplain h₆]
    exact Scanner.run_parameter (p := { p with b := [], curr := .parameter }) rfl rfl hname

/-- Where the role of a message is looked for, the first command that is read has one. -/
theorem first_message {u : List Char} {cs : List Command} (hcurr : p.curr = .message) (hb : p.b = [])
    (hk : ∀ r ∈ u, Kept T r) (hrun : p.run T u = .ok p') (hfinish : p'.finish = .ok cs) :
    ∃ role s rest, isValidMessageRole role = true ∧
      cs = p.commands ++ { p.cmd with args := role ++ ": ".toList ++ s } :: rest := by
  have halpha : ∀ r ∈ u.takeWhile isAlpha, isAlpha r = true := fun r hr => List.mem_takeWhile_imp hr
  have hletters := Scanner.run_letters (T := T) hcurr hb halpha
  rcases hrest : u.dropWhile isAlpha with _ | ⟨c, w⟩
  · have hu : u = u.takeWhile isAlpha := by
      conv_lhs => rw [← List.takeWhile_append_dropWhile (p := isAlpha) (l := u), hrest, List.append_nil]
    rw [hu, hletters] at hrun
    rw [← Except.ok.inj hrun, Scanner.finish] at hfinish
    simp only [hcurr] at hfinish
    cases hfinish
  · have hu : u = u.takeWhile isAlpha ++ ([c] ++ w) := by
      rw [List.singleton_append, ← hrest, List.takeWhile_append_dropWhile]
    have hc : isAlpha c = false := by
      have hnot := List.head?_dropWhile_not isAlpha u
      rw [hrest] at hnot
      exact hnot
    by_cases hspace : isSpace c = true
    · rw [hu, ← List.append_assoc, Scanner.run_append, Scanner.run_role hcurr hb halpha hspace] at hrun
      by_cases hvalid : isValidMessageRole (u.takeWhile isAlpha) = true
      · rw [if_pos hvalid] at hrun
        have hkw : ∀ r ∈ w, Kept T r := fun r hr => hk r (hu ▸ List.mem_append_right _ (List.mem_append_right _ hr))
        obtain ⟨v, w', s, rest, -, -, -, hcs⟩ :=
          Scanner.first_command (p := { p with role := u.takeWhile isAlpha, curr := .value, b := [] }) rfl rfl hkw
            hrun hfinish
        refine ⟨u.takeWhile isAlpha, s, rest, hvalid, ?_⟩
        rw [hcs, Scanner.argument, if_pos (role_ne_nil hvalid)]
      · rw [if_neg hvalid] at hrun
        cases hrun
    · rw [hu, Scanner.run_append_ok hletters, List.singleton_append, Scanner.run] at hrun
      have hparse : parseRuneForState c p.curr = .error .unexpectedEOF := by
        rw [hcurr, parseRuneForState, hc, if_neg Bool.false_ne_true, if_neg hspace]
      obtain ⟨line, hstep⟩ := Scanner.step_eq T { p with b := u.takeWhile isAlpha } c
      rw [hstep, hparse] at hrun
      cases hrun

/-! ## Runes of a line -/

/-- The runes that `quote` writes. -/
theorem mem_quote {s : List Char} {r : Char} (h : r ∈ quote s) : r = '"' ∨ r ∈ s := by
  unfold quote at h
  split_ifs at h
  · simp only [List.mem_append] at h
    rcases h with h | h | h
    · exact Or.inl (mem_tripleQuote h)
    · exact Or.inr h
    · exact Or.inl (mem_tripleQuote h)
  · simp only [List.mem_append, List.mem_singleton] at h
    tauto
  · exact Or.inr h

/-- The runes that `cut` gives. -/
theorem mem_cut {s sep : List Char} {r : Char} (h : r ∈ (cut s sep).1 ∨ r ∈ (cut s sep).2) : r ∈ s := by
  unfold cut at h
  rcases hindex : index sep s with _ | i
  · rw [hindex] at h
    exact h.resolve_right List.not_mem_nil
  · rw [hindex] at h
    rcases h with h | h
    · exact List.mem_of_mem_take h
    · exact List.mem_of_mem_drop h

/-- The runes of a value are runes of the argument, or quotes. -/
theorem kept_written (hread : Readable T c) : ∀ r ∈ written c, Kept T r := by
  have hquote : Kept T '"' := Or.inr (Or.inr (T.ascii '"' (by decide)))
  have hpart : ∀ r ∈ part c, Kept T r := by
    intro r hr
    unfold part at hr
    split_ifs at hr
    · exact hread.args r (mem_cut (Or.inr hr))
    · exact hread.args r hr
  intro r hr
  unfold written at hr
  split_ifs at hr
  · exact hread.args r hr
  · rcases mem_quote hr with rfl | hr
    · exact hquote
    · exact hpart r hr

/-- The runes before a value. -/
theorem kept_keyword (hread : Readable T c) : ∀ r ∈ keyword c, Kept T r := by
  have hspace : Kept T ' ' := Or.inl rfl
  have hword : ∀ k : List Char, (∀ r ∈ k, isAlpha r = true) → ∀ r ∈ k ++ [' '], Kept T r := by
    intro k hk r hr
    rcases List.mem_append.1 hr with hr | hr
    · exact kept_of_isNameRune T (isNameRune_of_isAlpha (hk r hr))
    · exact List.mem_singleton.1 hr ▸ hspace
  intro r hr
  unfold keyword at hr
  split_ifs at hr
  · exact hword _ (List.all_eq_true.1 (by decide)) r hr
  · exact hword _ (List.all_eq_true.1 (by decide)) r hr
  · exact hword _ (List.all_eq_true.1 (by decide)) r hr
  · exact hword _ (List.all_eq_true.1 (by decide)) r hr
  · exact hword _ (List.all_eq_true.1 (by decide)) r hr
  · rcases List.mem_append.1 hr with hr | hr
    · exact hword _ (List.all_eq_true.1 (by decide)) r hr
    · rcases List.mem_append.1 hr with hr | hr
      · exact hread.args r (mem_cut (Or.inl hr))
      · exact List.mem_singleton.1 hr ▸ hspace
  · rcases List.mem_append.1 hr with hr | hr
    · exact hword _ (List.all_eq_true.1 (by decide)) r hr
    · rcases List.mem_append.1 hr with hr | hr
      · exact kept_of_isNameRune T (hread.name r hr)
      · exact List.mem_singleton.1 hr ▸ hspace

/-- The runes of a text of commands. -/
theorem kept_string {cs : List Command} (hread : ∀ c ∈ cs, Readable T c) :
    ∀ r ∈ (Modelfile.mk cs).string, Kept T r := by
  intro r hr
  obtain ⟨c, hc, hr⟩ := List.mem_flatMap.1 hr
  rcases List.mem_append.1 hr with hr | hr
  · rw [string_eq] at hr
    rcases List.mem_append.1 hr with hr | hr
    · exact kept_keyword (hread c hc) r hr
    · exact kept_written (hread c hc) r hr
  · rw [List.mem_singleton.1 hr]
    exact Or.inr (Or.inl rfl)

/-! ## Lines -/

/-- What a command that is restored has: a role where it is a message, and a value that is read back as the part it is
written from. -/
theorem restored_reads (hread : Readable T c) (h : c.Restored) :
    (c.name = "message".toList → isValidMessageRole (roleOf c) = true ∧ c.args = roleOf c ++ ": ".toList ++ part c) ∧
      Open (written c) ∧ unquote (trimSpace (written c)) = some (part c) := by
  have hquoted : ∀ s : List Char, (∀ r ∈ s, Kept T r) → Unbroken s → NeedsQuotes s ∨ Plain s →
      Open (quote s) ∧ unquote (trimSpace (quote s)) = some s := by
    intro s hk hu hs
    by_cases hneeds : NeedsQuotes s
    · exact quote_reads hneeds hu
    · have hraw : quote s = s := if_neg hneeds
      rw [hraw]
      exact plain_reads hk (hs.resolve_left hneeds)
  unfold Command.Restored at h
  by_cases h₁ : c.name = "model".toList
  · have hno : c.name ≠ "message".toList := by
      rw [h₁]
      decide
    rw [if_pos h₁] at h
    rw [written, if_pos h₁, part, if_neg hno]
    exact ⟨fun hmessage => absurd hmessage hno, plain_reads hread.args h⟩
  rw [if_neg h₁] at h
  by_cases h₂ : c.name = "message".toList
  · rw [if_pos h₂] at h
    obtain ⟨role, s, hvalid, hargs, hs⟩ := h
    have hcut := cut_role hvalid s
    rw [← hargs] at hcut
    have hrole : roleOf c = role := by rw [roleOf, if_pos h₂, hcut]
    have hpart : part c = s := by rw [part, if_pos h₂, hcut]
    rw [written, if_neg h₁, hrole, hpart]
    have hk : ∀ r ∈ s, Kept T r := fun r hr => hread.args r (hargs ▸ List.mem_append_right _ hr)
    have hu : Unbroken s := (hargs ▸ hread.unbroken : Unbroken (role ++ ": ".toList ++ s)).of_append
    exact ⟨fun _ => ⟨hvalid, hargs⟩, hquoted s hk hu hs⟩
  · rw [if_neg h₂] at h
    rw [written, if_neg h₁, part, if_neg h₂]
    exact ⟨fun hmessage => absurd hmessage h₂, hquoted c.args hread.args hread.unbroken h⟩

/-- The argument that a value gives. -/
theorem argument_eq {q : Scanner} (hq : q.role = roleOf c) (s : List Char) :
    (c.name = "message".toList → isValidMessageRole (roleOf c) = true) →
      q.argument s = if c.name = "message".toList then roleOf c ++ ": ".toList ++ s else s := by
  intro hmessage
  unfold Scanner.argument
  rw [hq]
  by_cases h : c.name = "message".toList
  · rw [if_pos h, if_pos (role_ne_nil (hmessage h))]
  · rw [if_neg h, roleOf, if_neg h, if_neg (not_not.2 rfl)]

/-- The line of a command that is restored is read as the command. -/
theorem run_line (hcurr : p.curr = .nil) (hrole : p.role = []) (hread : Readable T c) (h : c.Restored) :
    ∃ p', p.run T (c.string ++ ['\n']) = .ok p' ∧ p'.curr = .nil ∧ p'.role = [] ∧ p'.commands = p.commands ++ [c] := by
  obtain ⟨hmessage, hopen, hreads⟩ := restored_reads hread h
  have hvalid : c.name = "message".toList → isValidMessageRole (roleOf c) = true := fun hc => (hmessage hc).1
  let p₁ : Scanner := { p with cmd.name := c.name, curr := .value, b := [], role := roleOf c }
  let p₂ : Scanner := { p₁ with currLine := p₁.currLine + (written c).countP isNewline, b := written c }
  have hkeyword : p.run T (keyword c) = .ok p₁ := run_keyword hcurr hrole hread.name hvalid
  have hvalue : p₁.run T (written c) = .ok p₂ := Scanner.run_open (p := p₁) rfl (kept_written hread) hopen
  have hline : p₂.step T '\n' =
    .ok ((({ p₂ with currLine := p₂.currLine + 1 } : Scanner).append (part c)).enter .nil) := by
    rw [Scanner.step_newline (p := p₂) rfl rfl, hreads]
  have hargs : p₂.argument (part c) = c.args := by
    rw [argument_eq (c := c) rfl (part c) hvalid]
    by_cases hc : c.name = "message".toList
    · rw [if_pos hc, ← (hmessage hc).2]
    · rw [if_neg hc, part, if_neg hc]
  refine ⟨(({ p₂ with currLine := p₂.currLine + 1 } : Scanner).append (part c)).enter .nil, ?_, rfl, rfl, ?_⟩
  · rw [string_eq, List.append_assoc, Scanner.run_append_ok hkeyword, Scanner.run_append_ok hvalue,
      Scanner.run_cons_ok hline]
    rfl
  · change p.commands ++ [⟨c.name, p₂.argument (part c)⟩] = p.commands ++ [c]
    rw [hargs]

/-- A command that is read from its line, whatever follows, is restored. -/
theorem restored_of_run {rest : List Char} {cs : List Command} (hcurr : p.curr = .nil) (hrole : p.role = [])
    (hread : Readable T c) (hkrest : ∀ r ∈ rest, Kept T r) (hrun : p.run T (c.string ++ '\n' :: rest) = .ok p')
    (hfinish : p'.finish = .ok (p.commands ++ c :: cs)) : c.Restored := by
  have hkvalue : ∀ r ∈ written c ++ '\n' :: rest, Kept T r := by
    intro r hr
    rcases List.mem_append.1 hr with hr | hr
    · exact kept_written hread r hr
    · rcases List.mem_cons.1 hr with rfl | hr
      · exact Or.inr (Or.inl rfl)
      · exact hkrest r hr
  rw [string_eq, List.append_assoc] at hrun
  -- the command that is read has a role if it is a message, and so the one that was written has it
  have hmessage : c.name = "message".toList → ∃ role s, isValidMessageRole role = true ∧
    c.args = role ++ ": ".toList ++ s := by
    intro hc
    have hk : keyword c = "MESSAGE".toList ++ [' '] ++ ((cut c.args ": ".toList).1 ++ [' ']) := by
      unfold keyword
      rw [hc]
      rfl
    have hkrole : ∀ r ∈ (cut c.args ": ".toList).1 ++ [' '] ++ (written c ++ '\n' :: rest), Kept T r := by
      intro r hr
      rcases List.mem_append.1 hr with hr | hr
      · exact kept_keyword hread r (hk ▸ List.mem_append_right _ hr)
      · exact hkvalue r hr
    have hcommand : ∀ q : Scanner,
        q.command (toLower "MESSAGE".toList) .value =
        { q with cmd.name := "message".toList, b := [], curr := .message } := fun q => rfl
    rw [hk, List.append_assoc, Scanner.run_append,
      Scanner.run_command hcurr (by decide) (List.all_eq_true.1 (by decide)) (by decide), hcommand] at hrun
    obtain ⟨role, s, cs', hvalid, hcs⟩ :=
      first_message (p := { p with cmd.name := "message".toList, b := [], curr := .message }) rfl rfl hkrole
        hrun hfinish
    have hhead := (List.cons.inj (List.append_cancel_left hcs)).1
    exact ⟨role, s, hvalid, congrArg Command.args hhead⟩
  have hvalid : c.name = "message".toList → isValidMessageRole (roleOf c) = true := by
    intro hc
    obtain ⟨role, s, hrole', hargs⟩ := hmessage hc
    rw [roleOf, if_pos hc, hargs, cut_role hrole']
    exact hrole'
  rw [Scanner.run_append_ok (run_keyword hcurr hrole hread.name hvalid)] at hrun
  obtain ⟨v, w, s, cs', hsplit, hopen, hs, hcs⟩ :=
    Scanner.first_command (p := { p with cmd.name := c.name, curr := .value, b := [], role := roleOf c }) rfl rfl
      hkvalue hrun hfinish
  have hargs := congrArg Command.args (List.cons.inj (List.append_cancel_left hcs)).1
  change c.args = Scanner.argument s _ at hargs
  rw [argument_eq (c := c) rfl s hvalid] at hargs
  -- what is read is the part that the value was written from
  have hpart : part c = s := by
    unfold part
    by_cases hc : c.name = "message".toList
    · rw [if_pos hc] at hargs ⊢
      rw [hargs, cut_role (hvalid hc)]
    · rw [if_neg hc] at hargs ⊢
      exact hargs
  have hraw : written c = s → Plain s := fun hw => plain_of_reads (hw ▸ hsplit) hopen hs
  have hquoted : written c = quote s → NeedsQuotes s ∨ Plain s := by
    intro hw
    by_cases hneeds : NeedsQuotes s
    · exact Or.inl hneeds
    · exact Or.inr (hraw (hw.trans (if_neg hneeds)))
  unfold Command.Restored
  by_cases h₁ : c.name = "model".toList
  · have hno : c.name ≠ "message".toList := by
      rw [h₁]
      decide
    rw [if_neg hno] at hargs
    rw [if_pos h₁, hargs]
    exact hraw (by rw [written, if_pos h₁, hargs])
  have hw : written c = quote s := by rw [written, if_neg h₁, hpart]
  rw [if_neg h₁]
  by_cases h₂ : c.name = "message".toList
  · rw [if_pos h₂] at hargs ⊢
    exact ⟨roleOf c, s, hvalid h₂, hargs, hquoted hw⟩
  · rw [if_neg h₂] at hargs ⊢
    rw [hargs]
    exact hquoted hw

/-! ## Texts -/

/-- The lines of commands that are restored are read as the commands. -/
theorem run_string {cs : List Command} (hcurr : p.curr = .nil) (hrole : p.role = []) (hread : ∀ c ∈ cs, Readable T c)
    (h : ∀ c ∈ cs, c.Restored) :
    ∃ p', p.run T (Modelfile.mk cs).string = .ok p' ∧ p'.curr = .nil ∧ p'.commands = p.commands ++ cs := by
  induction cs generalizing p with
  | nil => exact ⟨p, rfl, hcurr, (List.append_nil _).symm⟩
  | cons c cs ih =>
    obtain ⟨p₁, hrun, hcurr₁, hrole₁, hcommands⟩ :=
      run_line hcurr hrole (hread c (List.mem_cons_self ..)) (h c (List.mem_cons_self ..))
    obtain ⟨p₂, hrun₂, hcurr₂, hcommands₂⟩ := ih hcurr₁ hrole₁ (fun x hx => hread x (List.mem_cons_of_mem c hx))
      (fun x hx => h x (List.mem_cons_of_mem c hx))
    refine ⟨p₂, ?_, hcurr₂, by rw [hcommands₂, hcommands, List.append_assoc, List.singleton_append]⟩
    have hsplit : (Modelfile.mk (c :: cs)).string = (c.string ++ ['\n']) ++ (Modelfile.mk cs).string :=
      List.flatMap_cons
    rw [hsplit, Scanner.run_append_ok hrun]
    exact hrun₂

/-- Commands that are read from their lines are restored. -/
theorem restored_of_string {cs : List Command} (hcurr : p.curr = .nil) (hrole : p.role = [])
    (hread : ∀ c ∈ cs, Readable T c) (hrun : p.run T (Modelfile.mk cs).string = .ok p')
    (hfinish : p'.finish = .ok (p.commands ++ cs)) : ∀ c ∈ cs, c.Restored := by
  induction cs generalizing p with
  | nil => exact nofun
  | cons c cs ih =>
    have hc := hread c (List.mem_cons_self ..)
    have hcs : ∀ x ∈ cs, Readable T x := fun x hx => hread x (List.mem_cons_of_mem c hx)
    have hsplit : (Modelfile.mk (c :: cs)).string = (c.string ++ ['\n']) ++ (Modelfile.mk cs).string :=
      List.flatMap_cons
    rw [hsplit] at hrun
    have hfirst : c.Restored := by
      rw [List.append_assoc] at hrun
      exact restored_of_run hcurr hrole hc (kept_string hcs) hrun hfinish
    obtain ⟨p₁, hline, hcurr₁, hrole₁, hcommands⟩ := run_line hcurr hrole hc hfirst
    rw [Scanner.run_append_ok hline] at hrun
    have hrest := ih hcurr₁ hrole₁ hcs hrun (by rw [hcommands, List.append_assoc]; exact hfinish)
    intro x hx
    rcases List.mem_cons.1 hx with rfl | hx
    · exact hfirst
    · exact hrest x hx

/-- What a file that is read gives. -/
theorem exists_of_parseRunes {input : List Char} {m : Modelfile} (h : parseRunes T input = .ok m) :
    ∃ p, ({} : Scanner).run T input = .ok p ∧ p.finish = .ok m.commands ∧
      m.commands.any (fun c => c.name == "model".toList) = true := by
  unfold parseRunes at h
  cases hrun : ({} : Scanner).run T input with
  | error e =>
    rw [hrun] at h
    exact absurd h nofun
  | ok p =>
    rw [hrun] at h
    change p.finish.bind _ = _ at h
    cases hfinish : p.finish with
    | error e =>
      rw [hfinish] at h
      exact absurd h nofun
    | ok commands =>
      rw [hfinish] at h
      change (if commands.any (fun c => c.name == "model".toList) = true then _ else _) = _ at h
      by_cases hmodel : commands.any (fun c => c.name == "model".toList) = true
      · rw [if_pos hmodel] at h
        rw [← Except.ok.inj h]
        exact ⟨p, rfl, hfinish, hmodel⟩
      · rw [if_neg hmodel] at h
        exact absurd h nofun

end ModelfileAux

open ModelfileAux

/-- A text that does not begin with a byte order mark is read from its bytes. -/
theorem parseFile_encode (T : PrintTable) (D : Decoder) {s : List Char} (h : s.head? ≠ some '\ufeff') :
    parseFile T D (encode s) = parseRunes T s := by
  rw [parseFile, D.utf8 s h]

/-- The text of a Modelfile that has been read is read as the same commands exactly if every command is restored: the
argument of `FROM` stands as it is in a line, a message has a role, and what else is written either gets quotes or
stands as it is in a line. -/
theorem parseFile_string_iff (T : PrintTable) (D : Decoder) {input : Bytes} {m : Modelfile}
    (h : parseFile T D input = .ok m) :
    parseFile T D (encode m.string) = .ok m ↔ ∀ c ∈ m.commands, c.Restored := by
  obtain ⟨p, hrun, hfinish, hmodel⟩ := exists_of_parseRunes h
  have hread : ∀ c ∈ m.commands, Readable T c := ((valid_init T).run hrun).finish hfinish
  have hhead : m.string.head? ≠ some '\ufeff' := by
    rcases m with ⟨_ | ⟨c, cs⟩⟩
    · exact absurd hmodel (by decide)
    · have hsplit : (Modelfile.mk (c :: cs)).string =
        keyword c ++ (written c ++ ['\n'] ++ (Modelfile.mk cs).string) := by
        rw [Modelfile.string, List.flatMap_cons, string_eq, List.append_assoc, List.append_assoc, List.append_assoc]
        rfl
      rw [hsplit]
      exact keyword_head c _
  rw [parseFile_encode T D hhead]
  constructor
  · intro hback
    obtain ⟨p', hrun', hfinish', -⟩ := exists_of_parseRunes hback
    exact restored_of_string (p := {}) rfl rfl hread hrun' hfinish'
  · intro hrestored
    obtain ⟨p', hrun', hcurr, hcommands⟩ := run_string (T := T) (p := {}) rfl rfl hread hrestored
    have hfinish' : p'.finish = .ok m.commands := by
      rw [Scanner.finish, hcurr, hcommands]
      rfl
    unfold parseRunes
    rw [hrun']
    change p'.finish.bind _ = _
    rw [hfinish']
    change (if m.commands.any (fun c => c.name == "model".toList) = true then _ else _) = _
    rw [if_pos hmodel]

/-! ## Two Modelfiles -/

/-- `strconv.IsPrint` on ASCII. -/
def asciiTable : PrintTable where
  isPrint r := decide (0x20 ≤ r.toNat) && decide (r.toNat ≤ 0x7e)
  ascii _ _ := rfl
  blank r h hr := by
    have hne : r.toNat ≠ 0x20 := fun heq => hr (Char.toNat_inj.1 heq)
    unfold unicodeIsSpace at h
    simp only [Bool.or_eq_true, Bool.and_eq_true, decide_eq_true_eq, beq_iff_eq] at h
    rw [Bool.and_eq_false_iff, decide_eq_false_iff_not, decide_eq_false_iff_not]
    omega

/-- The decoder of UTF-8, where nothing is a byte order mark. -/
def utf8Decoder : Decoder where
  decode bs := (Utf8.runes bs).map Char.ofNat
  utf8 s _ := by
    have hvalid : ∀ r ∈ s.map Char.toNat, Utf8.validRune r := by
      intro r hr
      obtain ⟨c, -, rfl⟩ := List.mem_map.1 hr
      rcases c.valid with h | ⟨h, h'⟩
      · exact Or.inl h
      · exact Or.inr ⟨h, h'⟩
    rw [encode, Utf8.runes_ofRunes hvalid, List.map_map]
    exact (List.map_congr_left (fun c _ => Char.ofNat_toNat c)).trans (List.map_id s)

/-- `FROM a`, and a system prompt in quotes with a line break, are read back. -/
theorem parseFile_string_iff_system :
    parseFile asciiTable utf8Decoder (encode "FROM a\nSYSTEM \"b\nc\"\n".toList) =
        .ok ⟨[⟨"model".toList, "a".toList⟩, ⟨"system".toList, "b\nc".toList⟩]⟩ ∧
      parseFile asciiTable utf8Decoder
        (encode (Modelfile.mk [⟨"model".toList, "a".toList⟩, ⟨"system".toList, "b\nc".toList⟩]).string) =
          .ok ⟨[⟨"model".toList, "a".toList⟩, ⟨"system".toList, "b\nc".toList⟩]⟩ := by
  have h : parseFile asciiTable utf8Decoder (encode "FROM a\nSYSTEM \"b\nc\"\n".toList) =
      .ok ⟨[⟨"model".toList, "a".toList⟩, ⟨"system".toList, "b\nc".toList⟩]⟩ := by
    rw [parseFile_encode _ _ (by decide)]
    decide
  refine ⟨h, (parseFile_string_iff asciiTable utf8Decoder h).2 ?_⟩
  intro c hc
  rcases List.mem_cons.1 hc with rfl | hc
  · have hone : ∀ r, some 'a' = some r → isSpace r = false := by
      intro r hr
      rw [← Option.some.inj hr]
      rfl
    refine ⟨fun r hr => ?_, by decide, hone, hone⟩
    rw [List.mem_singleton.1 hr]
    rfl
  · rw [List.mem_singleton.1 hc]
    exact Or.inl (Or.inl (by decide))

/-- The blanks of `FROM "  a"` are lost. -/
theorem from_blanks_lost :
    parseFile asciiTable utf8Decoder (encode "FROM \"  a\"\n".toList) = .ok ⟨[⟨"model".toList, "  a".toList⟩]⟩ ∧
      parseFile asciiTable utf8Decoder (encode (Modelfile.mk [⟨"model".toList, "  a".toList⟩]).string) =
        .ok ⟨[⟨"model".toList, "a".toList⟩]⟩ ∧
      (⟨[⟨"model".toList, "a".toList⟩]⟩ : Modelfile) ≠ ⟨[⟨"model".toList, "  a".toList⟩]⟩ := by
  refine ⟨?_, ?_, by decide⟩
  · rw [parseFile_encode _ _ (by decide)]
    decide
  · rw [parseFile_encode _ _ (by decide)]
    decide

end Ollama.Parser
