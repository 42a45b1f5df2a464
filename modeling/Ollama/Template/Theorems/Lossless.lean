import Ollama.Lib.Page
import Ollama.Template.Theorems.Safety

/-!
# Messages in a template without messages

`Execute` goes over the messages with a variable for each of the three roles, and executes the template when a message
has a variable behind its own that is not empty. The variables are a row of cells, and the executions are the rows
before it: a message is lost where one of its role is written over it, with no message between them that ends the row
(`carries_iff`).
-/

namespace Ollama.Template

open Lib Server SafetyAux

/-- The roles that a template can have without messages, in the order of its fields. -/
inductive Role where
  | system
  | user
  | assistant
  deriving DecidableEq

def Role.rank : Role → Nat
  | system => 0
  | user => 1
  | assistant => 2

instance instLinearOrderRole : LinearOrder Role :=
  LinearOrder.lift' Role.rank (fun a b h => by cases a <;> cases b <;> first | rfl | cases h)

/-- A content, unless it is empty. -/
def nonempty (content : Bytes) : Option Bytes := if content = [] then none else some content

def entry (role : Role) (content : Bytes) : List (Role × Bytes) := (Page.cell (role, nonempty content)).toList

/-- `System`, `Prompt` and `Response`, where they are not empty. -/
def Rendering.fields (r : Rendering) : List (Role × Bytes) :=
  entry .system r.system ++ entry .user r.prompt ++ entry .assistant r.response

/-- What an execution has of the messages. Of a prompt with a suffix there is nothing in them, and a template with
messages has them as they are. -/
def Data.fields {τ : Type} : Data τ → List (Role × Bytes)
  | .legacy r => r.fields
  | _ => []

def Role.ofMessage (m : Message) : Option Role :=
  if m.role = ascii "system" then some .system
  else if m.role = ascii "user" then some .user
  else if m.role = ascii "assistant" then some .assistant
  else none

/-- The variable that a message writes, and its content. -/
def writeOf (m : Message) : Option (Role × Option Bytes) :=
  (Role.ofMessage m).map (fun role => (role, nonempty m.content))

/-- The messages with a role of the three that are not empty. -/
def spoken (msgs : List Message) : List (Role × Bytes) := (msgs.filterMap writeOf).filterMap Page.cell

/-- Each of these messages is the field of its role in exactly one execution, and the executions follow their order. -/
def Tmpl.Carries {τ : Type} (P : Package τ) (t : Tmpl) (write : Bytes → Option Bytes) (v : Values τ) : Prop :=
  ∃ out, t.execute P write v = some out ∧ out.renderings.flatMap Data.fields = spoken (collate v.messages).2

namespace LosslessAux

variable {τ : Type} {P : Package τ} {t : Tmpl} {s s' : Turn} {r : Rendering} {m : Message}
  {write : Bytes → Option Bytes} {v : Values τ}

/-! ## The variables are a row -/

/-- The system message stands before the user's in a row. -/
theorem system_lt_user : Role.system < Role.user := by decide

/-- The system message stands before the assistant's in a row. -/
theorem system_lt_assistant : Role.system < Role.assistant := by decide

/-- The user's message stands before the assistant's in a row. -/
theorem user_lt_assistant : Role.user < Role.assistant := by decide

/-- The entry of a role is its content, where that is not empty. -/
theorem mem_entry {e : Role × Bytes} {role : Role} {content : Bytes} :
    e ∈ entry role content ↔ content ≠ [] ∧ e = (role, content) := by
  rw [entry, Option.mem_toList, Page.cell, nonempty]
  by_cases h : content = []
  · rw [if_pos h]
    exact ⟨fun hmem => (by cases hmem), fun hmem => absurd h hmem.1⟩
  · rw [if_neg h]
    exact ⟨fun hmem => ⟨h, (Option.some.inj hmem).symm⟩, fun hmem => congrArg some hmem.2.symm⟩

/-- An empty content is no entry. -/
theorem entry_nil (role : Role) : entry role [] = [] := rfl

/-- The entry of a role is before a column if the role is. -/
theorem filter_entry (role k : Role) (content : Bytes) :
    (entry role content).filter (fun e => e.1 < k) = if role < k then entry role content else [] := by
  split
  · rename_i h
    refine List.filter_eq_self.2 (fun e he => decide_eq_true ?_)
    rw [(mem_entry.1 he).2]
    exact h
  · rename_i h
    refine List.filter_eq_nil_iff.2 (fun e he => ?_)
    rw [(mem_entry.1 he).2, decide_eq_true_eq]
    exact h

/-- A system message ends the row if there is a prompt or a response in it. -/
theorem ends_system : Page.Ends r.fields .system ↔ r.prompt ≠ [] ∨ r.response ≠ [] := by
  constructor
  · rintro ⟨e, he, hlt⟩
    rw [Rendering.fields, List.append_assoc, List.mem_append, List.mem_append, mem_entry, mem_entry, mem_entry] at he
    rcases he with he | he | he
    · rw [he.2] at hlt
      exact absurd hlt (lt_irrefl _)
    · exact .inl he.1
    · exact .inr he.1
  · rintro (h | h)
    · exact ⟨(.user, r.prompt), List.mem_append_left _ (List.mem_append_right _ (mem_entry.2 ⟨h, rfl⟩)), system_lt_user⟩
    · exact ⟨(.assistant, r.response), List.mem_append_right _ (mem_entry.2 ⟨h, rfl⟩), system_lt_assistant⟩

/-- A user's message ends the row if there is a response in it. -/
theorem ends_user : Page.Ends r.fields .user ↔ r.response ≠ [] := by
  constructor
  · rintro ⟨e, he, hlt⟩
    rw [Rendering.fields, List.mem_append, List.mem_append, mem_entry, mem_entry, mem_entry] at he
    rcases he with (he | he) | he
    · rw [he.2] at hlt
      exact absurd hlt (lt_asymm system_lt_user)
    · rw [he.2] at hlt
      exact absurd hlt (lt_irrefl _)
    · exact he.1
  · intro h
    exact ⟨(.assistant, r.response), List.mem_append_right _ (mem_entry.2 ⟨h, rfl⟩), user_lt_assistant⟩

/-- An assistant's message ends no row: there is no column behind its own. -/
theorem not_ends_assistant : ¬Page.Ends r.fields .assistant := by
  rintro ⟨e, _, hlt⟩
  cases hrole : e.1 <;> rw [hrole] at hlt <;> exact absurd hlt (by decide)

/-- The executions so far, and the variables. -/
def pageOf (s : Turn) : Page Role Bytes := { rows := s.renderings.map Rendering.fields, row := s.vars.fields }

/-- The fields of the executions and those of the variables are what is on the page. -/
theorem all_pageOf (s : Turn) : (pageOf s).all = (s.renderings ++ [s.vars]).flatMap Rendering.fields := by
  rw [Page.all, pageOf, List.flatMap_append, List.flatMap_def]
  exact congrArg _ (List.append_nil _).symm

/-! ## A message writes its variable -/

/-- An execution that is made when the row ends, and then the variable that is written. -/
theorem flush_eq {p : Prop} [Decidable p] {f : Turn → Turn}
    (h : (if p then s.execute P t else some (.ok s)).map (fun out => out.map f) = some (.ok s')) :
    p ∧ (∃ b, s' = f { b := b, renderings := s.renderings ++ [s.vars] }) ∨ ¬p ∧ s' = f s := by
  obtain ⟨out, hout, hmap⟩ := Option.map_eq_some_iff.1 h
  split at hout
  · rename_i hp
    refine .inl ⟨hp, ?_⟩
    rw [Turn.execute] at hout
    split at hout
    · cases hout
    · cases hout
      cases hmap
    · cases hout
      cases hmap
      exact ⟨_, rfl⟩
  · rename_i hp
    cases hout
    cases hmap
    exact .inr ⟨hp, rfl⟩

/-- A message is a write to the page. -/
theorem pageOf_message (h : s.message P t m = some (.ok s')) : pageOf s' = (pageOf s).writes (writeOf m).toList := by
  rw [Turn.message] at h
  rw [writeOf, Role.ofMessage]
  split at h
  · rename_i hrole
    rw [if_pos hrole]
    change _ = (pageOf s).write (.system, nonempty m.content)
    rcases flush_eq h with ⟨hends, b, rfl⟩ | ⟨hends, rfl⟩
    · refine Eq.trans ?_ (Page.write_of_ends (p := pageOf s) (ends_system.2 hends)).symm
      simp only [pageOf, Rendering.fields, entry_nil, List.map_append, List.map_cons, List.map_nil, List.append_nil]
      rfl
    · refine Eq.trans ?_ (Page.write_of_not_ends (p := pageOf s) (fun h => hends (ends_system.1 h))).symm
      obtain ⟨hprompt, hresponse⟩ := not_or.1 hends
      rw [not_not] at hprompt hresponse
      simp only [pageOf, Rendering.fields, hprompt, hresponse, entry_nil, List.append_nil, filter_entry, lt_irrefl,
        if_false, List.nil_append]
      rfl
  · rename_i hsystem
    split at h
    · rename_i hrole
      rw [if_neg hsystem, if_pos hrole]
      change _ = (pageOf s).write (.user, nonempty m.content)
      rcases flush_eq h with ⟨hends, b, rfl⟩ | ⟨hends, rfl⟩
      · refine Eq.trans ?_ (Page.write_of_ends (p := pageOf s) (ends_user.2 hends)).symm
        simp only [pageOf, Rendering.fields, entry_nil, List.map_append, List.map_cons, List.map_nil,
          List.append_nil, List.nil_append]
        rfl
      · refine Eq.trans ?_ (Page.write_of_not_ends (p := pageOf s) (fun h => hends (ends_user.1 h))).symm
        rw [not_not] at hends
        simp only [pageOf, Rendering.fields, hends, entry_nil, List.append_nil, List.filter_append, filter_entry,
          system_lt_user, lt_irrefl, if_true, if_false]
        rfl
    · rename_i huser
      split at h
      · rename_i hrole
        cases h
        rw [if_neg hsystem, if_neg huser, if_pos hrole]
        change _ = (pageOf s).write (.assistant, nonempty m.content)
        refine Eq.trans ?_ (Page.write_of_not_ends (p := pageOf s) not_ends_assistant).symm
        simp only [pageOf, Rendering.fields, List.filter_append, filter_entry, system_lt_assistant,
          user_lt_assistant, lt_irrefl, if_true, if_false, List.append_nil]
        rfl
      · rename_i hassistant
        cases h
        rw [if_neg hsystem, if_neg huser, if_neg hassistant]
        rfl

/-- The loop writes the messages. -/
theorem pageOf_loop {msgs : List Message} (h : s.loop P t msgs = some (.ok s')) :
    pageOf s' = (pageOf s).writes (msgs.filterMap writeOf) := by
  induction msgs generalizing s with
  | nil =>
    cases h
    rfl
  | cons m msgs ih =>
    rw [Turn.loop] at h
    split at h
    · cases h
    · cases h
    · rename_i s₁ hmessage
      have hcons : (m :: msgs).filterMap writeOf = (writeOf m).toList ++ msgs.filterMap writeOf := by
        rw [List.filterMap_cons]
        cases writeOf m <;> rfl
      rw [ih h, pageOf_message hmessage, hcons]
      exact (List.foldl_append ..).symm

/-! ## Executing -/

/-- The variables are executed at the end, after the executions so far. -/
theorem renderings_finish {out : Outcome τ} (h : s.finish P t write = some out) :
    out.renderings = (s.renderings ++ [s.vars]).map .legacy := by
  rw [Turn.finish] at h
  split at h
  · cases h
  · split at h
    · cases h
    · cases h
      rfl
    · cases h
      rfl

/-- The fields of executions are the fields of their variables. -/
theorem flatMap_legacy (rs : List Rendering) :
    (rs.map (Data.legacy : Rendering → Data τ)).flatMap Data.fields = rs.flatMap Rendering.fields := by
  rw [List.flatMap_map]
  rfl

/-- The loop carries the messages if and only if they are separated, and its end returns if and only if the first
response is not stranded. -/
theorem carries_of_loop (hwf : t.WellFormed) (hlegacy : t.Legacy P v)
    (hloop : Turn.loop P t {} (collate v.messages).2 = some (.ok s)) :
    t.Carries P write v ↔ listStranded t.root = false ∧ Page.Separated ((collate v.messages).2.filterMap writeOf) := by
  have hpage : (s.renderings ++ [s.vars]).flatMap Rendering.fields = spoken (collate v.messages).2 ↔
      Page.Separated ((collate v.messages).2.filterMap writeOf) := by
    rw [← all_pageOf, pageOf_loop hloop]
    exact Page.all_writes_iff
  rw [Tmpl.Carries, execute_of_loop hlegacy hloop]
  constructor
  · rintro ⟨out, hout, hfields⟩
    rw [renderings_finish hout, flatMap_legacy] at hfields
    refine ⟨Bool.eq_false_iff.2 (fun hs => ?_), hpage.1 hfields⟩
    rw [(finish_eq_none_iff hwf.root s).2 hs] at hout
    cases hout
  · rintro ⟨hs, hsep⟩
    have hsome : s.finish P t write ≠ none := fun hnone => by
      rw [(finish_eq_none_iff hwf.root s).1 hnone] at hs
      cases hs
    obtain ⟨out, hout⟩ := Option.ne_none_iff_exists'.1 hsome
    refine ⟨out, hout, ?_⟩
    rw [renderings_finish hout, flatMap_legacy]
    exact hpage.2 hsep

/-- A prompt with a suffix has nothing of the messages. -/
theorem carries_of_suffix (hwf : t.WellFormed) (h : v.prompt ≠ [] ∧ v.suffix ≠ []) :
    t.Carries P write v ↔ spoken (collate v.messages).2 = [] := by
  have hexec : t.execute P write v = executeOn P t write (.suffix v.prompt v.suffix []) := by
    rw [Tmpl.execute]
    dsimp only
    rw [if_pos h]
  have hfields : ∀ out, executeOn P t write (.suffix v.prompt v.suffix []) = some out →
    out.renderings.flatMap Data.fields = [] := by
    intro out hout
    rw [executeOn] at hout
    split at hout
    · cases hout
    · cases hout
      rfl
    · cases hout
      rfl
  rw [Tmpl.Carries, hexec]
  constructor
  · rintro ⟨out, hout, heq⟩
    rw [← heq, hfields out hout]
  · intro hspoken
    obtain ⟨out, hout⟩ := Option.ne_none_iff_exists'.1 (executeOn_ne_none hwf write (.suffix v.prompt v.suffix []))
    exact ⟨out, hout, by rw [hfields out hout, hspoken]⟩

end LosslessAux

open LosslessAux

/-- A template without messages that is accepted, and that no message makes fail, carries all of them if and only if
its first response is not stranded, and between a system, user or assistant message that is not empty and the next one
of its role there is one of an earlier role, or one of a later role that is not empty. With a prompt and a suffix it
carries them only if they are all empty. -/
theorem carries_iff {τ : Type} (P : Package τ) {text : Bytes} {t : Tmpl} (h : Parse P text = some (.ok t))
    (hvars : ∀ vars, t.vars P = some vars → ascii "messages" ∉ vars) (write : Bytes → Option Bytes) (v : Values τ)
    (hloop : ∃ s, Turn.loop P t {} (collate v.messages).2 = some (.ok s)) :
    t.Carries P write v ↔
      if v.prompt ≠ [] ∧ v.suffix ≠ [] then spoken (collate v.messages).2 = []
      else listStranded t.root = false ∧ Page.Separated ((collate v.messages).2.filterMap writeOf) := by
  obtain ⟨hwf, vars, hsome⟩ := accepted h
  obtain ⟨s, hs⟩ := hloop
  split
  · rename_i hsuffix
    exact carries_of_suffix hwf hsuffix
  · rename_i hsuffix
    exact carries_of_loop hwf ⟨hsuffix, .inr ⟨vars, hsome, hvars vars hsome⟩⟩ hs

/-! In `{{ .System }}{{ .Prompt }}{{ .Response }}` the second user message writes over the first one, when the answer
between them is empty. -/

namespace Unanswered

def text : Bytes := ascii "{{ .System }}{{ .Prompt }}{{ .Response }}"

def tmpl : Tmpl := { root := ["System", "Prompt", "Response"].map (fun name => .action (Stranded.field name)) }

/-- The template is well formed. -/
theorem tmpl_wellFormed : tmpl.WellFormed := by
  refine ⟨fun n hn => ?_, List.forall_mem_nil _⟩
  obtain ⟨name, _, rfl⟩ := List.mem_map.1 hn
  exact .action (cmdsWellFormed_field [ascii name])

def package : Package Unit := .small text tmpl tmpl_wellFormed

def values : Values Unit where
  messages := [⟨ascii "user", ascii "a", [], []⟩, ⟨ascii "assistant", [], [], []⟩, ⟨ascii "user", ascii "b", [], []⟩]
  tools := ()

/-- The text is parsed to the template. -/
theorem parse_text : Parse package text = some (.ok tmpl) := rfl

/-- The template does not use `messages`. -/
theorem not_mem_vars (vars : List Bytes) (h : tmpl.vars package = some vars) : ascii "messages" ∉ vars := by
  obtain rfl : [ascii "system", ascii "prompt", ascii "response"] = vars := Option.some.inj h
  decide

end Unanswered

open Unanswered in
/-- Without an answer to write, the template carries the messages exactly in these cases. -/
theorem carries_iff_unanswered : tmpl.Carries package (fun _ => none) values ↔
    if values.prompt ≠ [] ∧ values.suffix ≠ [] then spoken (collate values.messages).2 = []
    else listStranded tmpl.root = false ∧ Page.Separated ((collate values.messages).2.filterMap writeOf) :=
  carries_iff package parse_text not_mem_vars (fun _ => none) values ⟨_, rfl⟩

open Unanswered in
/-- Of two user's messages in a row the first is lost. -/
theorem carries_loses_prompt :
    Parse package text = some (.ok tmpl) ∧ spoken (collate values.messages).2 =
      [(.user, ascii "a"), (.user, ascii "b")] ∧
      (tmpl.execute package (fun _ => none) values).map Outcome.output = some (ascii "b") ∧
        ¬tmpl.Carries package (fun _ => none) values := by
  refine ⟨parse_text, rfl, rfl, fun hcarries => ?_⟩
  obtain ⟨out, hout, hfields⟩ := hcarries
  obtain rfl : ⟨[.legacy { prompt := ascii "b" }], ascii "b", none⟩ = out := Option.some.inj hout
  exact absurd (congrArg List.length hfields) (by decide)

end Ollama.Template
