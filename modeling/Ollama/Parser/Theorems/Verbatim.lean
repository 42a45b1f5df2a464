import Ollama.Parser.Theorems.Modelfile

/-!
# Triple quotes

A text in triple quotes that has none of its own is the argument of its command as it stands, as long as every rune of
it gets into the buffer: the parser writes the blanks and the line breaks of a value, and of the other runes those
that can be printed. No argument has another rune (`parseFile_verbatim_iff`).
-/

namespace Ollama.Parser

open Lib

/-- The Modelfile with a system prompt in triple quotes. -/
def quotedSystem (t : List Char) : List Char :=
  "FROM".toList ++ [' '] ++ ("x".toList ++ ['\n']) ++
    ("SYSTEM".toList ++ [' '] ++ ((tripleQuote ++ (t ++ tripleQuote)) ++ ['\n']))

namespace VerbatimAux

variable {T : PrintTable} {p : Scanner}

/-- A text without three quotes in a row has no line break after three quotes and blanks. -/
theorem unbroken_of_not_mem {t : List Char} (h : ¬tripleQuote <:+: t) : Unbroken t := by
  rintro u ws nl w rfl -
  exact absurd ⟨u, ws ++ nl :: w, by simp⟩ h

/-- A command on a line of its own, with the value `v`. -/
theorem run_line (k name : List Char) {v s : List Char} (hcurr : p.curr = .nil) (hrole : p.role = []) (hne : k ≠ [])
    (halpha : ∀ r ∈ k, isAlpha r = true) (hvalid : isValidCommand k = true)
    (hcommand : ∀ q : Scanner, q.command (toLower k) .value = { q with cmd.name := name, b := [], curr := .value })
    (hkept : ∀ r ∈ v, Kept T r) (hopen : Open v) (hs : unquote (trimSpace v) = some s) :
    ∃ p', p.run T (k ++ [' '] ++ (v ++ ['\n'])) = .ok p' ∧ p'.curr = .nil ∧ p'.role = [] ∧
      p'.commands = p.commands ++ [⟨name, s⟩] := by
  let p₁ : Scanner := { p with cmd.name := name, b := [], curr := .value }
  let p₂ : Scanner := { p₁ with currLine := p₁.currLine + v.countP isNewline, b := v }
  have hk : p.run T (k ++ [' ']) = .ok p₁ := by
    rw [Scanner.run_command hcurr hne halpha hvalid, hcommand]
  have hv : p₁.run T v = .ok p₂ := Scanner.run_open (p := p₁) rfl hkept hopen
  have hline : p₂.step T '\n' = .ok ((({ p₂ with currLine := p₂.currLine + 1 } : Scanner).append s).enter .nil) := by
    rw [Scanner.step_newline (p := p₂) rfl rfl, hs]
  have hargument : p₂.argument s = s := if_neg (not_not.2 hrole)
  refine ⟨(({ p₂ with currLine := p₂.currLine + 1 } : Scanner).append s).enter .nil, ?_, rfl, rfl, ?_⟩
  · rw [Scanner.run_append_ok hk, Scanner.run_append_ok hv, Scanner.run_cons_ok hline]
    rfl
  · change p.commands ++ [⟨name, p₂.argument s⟩] = p.commands ++ [⟨name, s⟩]
    rw [hargument]

/-- The runes of triple quotes get into the buffer. -/
theorem kept_quoted {t : List Char} (h : ∀ r ∈ t, Kept T r) : ∀ r ∈ tripleQuote ++ (t ++ tripleQuote), Kept T r := by
  have hquote : ∀ r ∈ tripleQuote, Kept T r := by
    intro r hr
    rw [mem_tripleQuote hr]
    exact .inr (.inr (T.ascii '"' (by decide)))
  intro r hr
  rcases List.mem_append.1 hr with hr | hr
  · exact hquote r hr
  · rcases List.mem_append.1 hr with hr | hr
    · exact h r hr
    · exact hquote r hr

/-- The Modelfile is read as its two commands. -/
theorem parseRunes_quotedSystem {t : List Char} (h : ¬tripleQuote <:+: t) (hkept : ∀ r ∈ t, Kept T r) :
    parseRunes T (quotedSystem t) = .ok ⟨[⟨"model".toList, "x".toList⟩, ⟨"system".toList, t⟩]⟩ := by
  have hx : ∀ r ∈ "x".toList, Kept T r := by
    intro r hr
    rw [List.mem_singleton.1 hr]
    exact .inr (.inr (T.ascii 'x' (by decide)))
  have hplain : Plain "x".toList := by
    have hone : ∀ r, some 'x' = some r → isSpace r = false := by
      rintro r ⟨⟩
      rfl
    refine ⟨fun r hr => ?_, by decide, hone, hone⟩
    rw [List.mem_singleton.1 hr]
    rfl
  obtain ⟨hopen₁, hs₁⟩ := plain_reads hx hplain
  obtain ⟨p₁, hrun₁, hcurr₁, hrole₁, hcommands₁⟩ := run_line (T := T) (p := {}) "FROM".toList "model".toList rfl rfl
    (by decide) (List.all_eq_true.1 (by decide)) (by decide) (fun _ => rfl) hx hopen₁ hs₁
  have hs₂ : unquote (trimSpace (tripleQuote ++ (t ++ tripleQuote))) = some t := by
    rw [trimSpace, trim_of_tight (tight_triple t), unquote_triple]
  obtain ⟨p₂, hrun₂, hcurr₂, -, hcommands₂⟩ := run_line (T := T) (p := p₁) "SYSTEM".toList "system".toList hcurr₁ hrole₁
    (by decide) (List.all_eq_true.1 (by decide)) (by decide) (fun _ => rfl) (kept_quoted hkept)
      (open_triple (unbroken_of_not_mem h)) hs₂
  have hfinish : p₂.finish = .ok [⟨"model".toList, "x".toList⟩, ⟨"system".toList, t⟩] := by
    rw [Scanner.finish, hcurr₂, hcommands₂, hcommands₁]
    rfl
  unfold parseRunes quotedSystem
  rw [Scanner.run_append_ok hrun₁, hrun₂]
  change p₂.finish.bind _ = _
  rw [hfinish]
  rfl

/-- The arguments of a file that is read have only runes that get into the buffer. -/
theorem kept_of_parseRunes {input : List Char} {m : Modelfile} (h : parseRunes T input = .ok m) {c : Command}
    (hc : c ∈ m.commands) :
    ∀ r ∈ c.args, Kept T r := by
  obtain ⟨p, hrun, hfinish, -⟩ := ModelfileAux.exists_of_parseRunes h
  exact (((valid_init T).run hrun).finish hfinish c hc).args

end VerbatimAux

open VerbatimAux

/-- For a text without three quotes in a row: the Modelfile with the text in triple quotes as its system prompt is
read, with a system command that has exactly the text, if and only if every rune of the text is a blank, a tab, a line
break or can be printed. -/
theorem parseFile_verbatim_iff (T : PrintTable) (D : Decoder) {t : List Char} (h : ¬tripleQuote <:+: t) :
    (∃ m, parseFile T D (encode (quotedSystem t)) = .ok m ∧ ∃ c ∈ m.commands, c.name = "system".toList ∧ c.args = t) ↔
      ∀ r ∈ t, Kept T r := by
  have hhead : (quotedSystem t).head? ≠ some '\ufeff' := by
    rintro ⟨⟩
  rw [parseFile_encode T D hhead]
  constructor
  · rintro ⟨m, hm, c, hc, -, rfl⟩
    exact kept_of_parseRunes hm hc
  · intro hkept
    exact ⟨_, parseRunes_quotedSystem h hkept, ⟨"system".toList, t⟩, by simp, rfl, rfl⟩

/-- A text with quotes, blanks and a line break of its own is read as it stands. -/
theorem parseFile_verbatim_quotes :
    ∃ m, parseFile asciiTable utf8Decoder (encode (quotedSystem " a\n\t\"b\"\"\r".toList)) = .ok m ∧
    ∃ c ∈ m.commands, c.name = "system".toList ∧ c.args = " a\n\t\"b\"\"\r".toList := by
  refine (parseFile_verbatim_iff asciiTable utf8Decoder (by decide)).2 ?_
  have hall : " a\n\t\"b\"\"\r".toList.all (fun r => isSpace r || isNewline r || asciiTable.isPrint r) = true := by
    decide
  intro r hr
  have hr' := List.all_eq_true.1 hall r hr
  rw [Bool.or_eq_true, Bool.or_eq_true] at hr'
  exact or_assoc.1 hr'

/-- The no-break space of a text is lost. -/
theorem parseFile_drops_blank :
    parseFile asciiTable utf8Decoder (encode (quotedSystem "a\u00a0b".toList)) =
        .ok ⟨[⟨"model".toList, "x".toList⟩, ⟨"system".toList, "ab".toList⟩]⟩ ∧
      ¬tripleQuote <:+: "a\u00a0b".toList ∧ "ab".toList ≠ "a\u00a0b".toList := by
  refine ⟨?_, by decide, by decide⟩
  rw [parseFile_encode _ _ (by decide)]
  decide

end Ollama.Parser
