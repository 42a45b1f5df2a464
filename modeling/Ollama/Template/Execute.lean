import Ollama.Server.Prompt
import Ollama.Template.Tree

/-!
# Templates

`Parse`, `Vars`, `collate` and `Execute` of `template/template.go`. What `text/template` makes of a text and of a tree
is given, and so is `strings.ToLower`. What is written is bytes; the error of a writer is given with it. A panic has
no outcome.
-/

namespace Ollama.Template

open Lib Server

/-- `template.Template`: the tree at its root, the trees of the templates that are defined in it, and whether it has
`funcs` and the option that `Parse` gives it. -/
structure Tmpl where
  root : List Node
  others : List (Bytes × List Node) := []
  funcs : Bool := true

/-- The trees are those of a text. -/
structure Tmpl.WellFormed (t : Tmpl) : Prop where
  root : ListWellFormed t.root
  others : ∀ other ∈ t.others, ListWellFormed other.2

/-- What a template of a prompt is executed on. -/
structure Rendering where
  system : Bytes := []
  prompt : Bytes := []
  response : Bytes := []
  deriving DecidableEq

/-- The data that a template is executed on. `τ` is the type of the tools. -/
inductive Data (τ : Type) where
  | suffix (prompt suffix response : Bytes)
  | messages (system : Bytes) (messages : List Message) (tools : τ) (response : Bytes)
  | legacy (r : Rendering)

/-- `text/template` and `strings.ToLower`. A text has well-formed trees, and a template with well-formed trees can be
executed: what is written is returned, with an error if there is one. -/
structure Package (τ : Type) where
  parse : Bytes → Except Bytes Tmpl
  exec : Tmpl → Data τ → Option (Bytes × Option Bytes)
  toLower : Bytes → Bytes
  parse_wellFormed : ∀ s t, parse s = .ok t → t.WellFormed
  exec_wellFormed : ∀ t d, t.WellFormed → exec t d ≠ none

/-- `Values`. -/
structure Values (τ : Type) where
  messages : List Message := []
  tools : τ
  prompt : Bytes := []
  suffix : Bytes := []
  forceLegacy : Bool := false

variable {τ : Type} (P : Package τ)

/-! ## Parsing -/

/-- The identifiers in all the templates. -/
def Tmpl.identifiers (t : Tmpl) : Option (List Bytes) :=
  match listIdentifiers t.root, (t.others.mapM (fun other => listIdentifiers other.2) : Option (List (List Bytes))) with
  | some names, some others => some (names ++ others.flatten)
  | _, _ => none

/-- `Vars`. That the names are sorted is left out. -/
def Tmpl.vars (t : Tmpl) : Option (List Bytes) := t.identifiers.map (fun names => (names.map P.toLower).dedup)

/-- `response`. -/
def response : Node := .action { cmds := [[.field [ascii "Response"]]] }

/-- `Parse`. -/
def Parse (s : Bytes) : Option (Except Bytes Tmpl) :=
  match P.parse s with
  | .error err => some (.error err)
  | .ok t =>
    match t.vars P with
    | none => none
    | some vars =>
      if ascii "messages" ∉ vars ∧ ascii "response" ∉ vars then some (.ok { t with root := t.root ++ [response] })
      else some (.ok t)

/-! ## Messages -/

/-- The messages so far, of which the last one takes more text of its role. -/
def collateMessage (collated : List Message) (msg : Message) : List Message :=
  match collated.getLast? with
  | none => [msg]
  | some last =>
    if last.role = msg.role then collated.dropLast ++
      [{ last with content := last.content ++ ascii "\n\n" ++ msg.content }]
    else collated ++ [msg]

/-- `collate`: the text of the system messages, and the messages. -/
def collate (msgs : List Message) : Bytes × List Message :=
  ((ascii "\n\n").intercalate ((msgs.filter Message.isSystem).map Message.content), msgs.foldl collateMessage [])

/-! ## Executing -/

/-- What `Execute` has done: the data that a template was executed on in turn, what was written, and the error that it
returns. -/
structure Outcome (τ : Type) where
  renderings : List (Data τ)
  output : Bytes
  err : Option Bytes

/-- A template that is executed once, on the writer. -/
def executeOn (t : Tmpl) (write : Bytes → Option Bytes) (d : Data τ) : Option (Outcome τ) :=
  match P.exec t d with
  | none => none
  | some (out, some err) => some ⟨[d], out, some err⟩
  | some (out, none) => some ⟨[d], out, write out⟩

/-- The variables of the loop over the messages, with the renderings so far. -/
structure Turn where
  vars : Rendering := {}
  b : Bytes := []
  renderings : List Rendering := []

/-- `execute` of the loop: the error, with the renderings up to it, or the variables after it. -/
def Turn.execute (t : Tmpl) (s : Turn) : Option (Except (Bytes × List Rendering) Turn) :=
  match P.exec t (.legacy s.vars) with
  | none => none
  | some (_, some err) => some (.error (err, s.renderings ++ [s.vars]))
  | some (out, none) => some (.ok { b := s.b ++ out, renderings := s.renderings ++ [s.vars] })

/-- One message. -/
def Turn.message (t : Tmpl) (s : Turn) (m : Message) : Option (Except (Bytes × List Rendering) Turn) :=
  if m.role = ascii "system" then
    (if s.vars.prompt ≠ [] ∨ s.vars.response ≠ [] then s.execute P t else some (.ok s)).map
      (fun out => out.map (fun s => { s with vars := { s.vars with system := m.content } }))
  else if m.role = ascii "user" then
    (if s.vars.response ≠ [] then s.execute P t else some (.ok s)).map
      (fun out => out.map (fun s => { s with vars := { s.vars with prompt := m.content } }))
  else if m.role = ascii "assistant" then some (.ok { s with vars := { s.vars with response := m.content } })
  else some (.ok s)

/-- The loop over the messages. -/
def Turn.loop (t : Tmpl) (s : Turn) : List Message → Option (Except (Bytes × List Rendering) Turn)
  | [] => some (.ok s)
  | m :: msgs =>
    match s.message P t m with
    | none => none
    | some (.error err) => some (.error err)
    | some (.ok s) => s.loop t msgs

/-- What comes after the loop: the template is cut behind the response, and executed without the templates and
functions of the first one. -/
def Turn.finish (t : Tmpl) (write : Bytes → Option Bytes) (s : Turn) : Option (Outcome τ) :=
  match deleteNode t.root with
  | none => none
  | some nodes =>
    match P.exec { root := nodes, funcs := false } (.legacy s.vars) with
    | none => none
    | some (_, some err) => some ⟨(s.renderings ++ [s.vars]).map .legacy, [], some err⟩
    | some (out, none) => some ⟨(s.renderings ++ [s.vars]).map .legacy, s.b ++ out, write (s.b ++ out)⟩

/-- `Execute` goes over the messages: there is no prompt with a suffix, and the template has no `Messages`, or is
taken for one without. -/
def Tmpl.Legacy (t : Tmpl) (v : Values τ) : Prop :=
  ¬(v.prompt ≠ [] ∧ v.suffix ≠ []) ∧ (v.forceLegacy = true ∨ ∃ vars, t.vars P = some vars ∧ ascii "messages" ∉ vars)

/-- `Execute`. -/
def Tmpl.execute (t : Tmpl) (write : Bytes → Option Bytes) (v : Values τ) : Option (Outcome τ) :=
  match collate v.messages with
  | (system, messages) =>
    if v.prompt ≠ [] ∧ v.suffix ≠ [] then executeOn P t write (.suffix v.prompt v.suffix [])
    else
      match if v.forceLegacy then some false else (t.vars P).map (fun vars => ascii "messages" ∈ vars) with
      | none => none
      | some true => executeOn P t write (.messages system messages v.tools [])
      | some false =>
        match Turn.loop P t {} messages with
        | none => none
        | some (.error (err, renderings)) => some ⟨renderings.map .legacy, [], some err⟩
        | some (.ok s) => s.finish P t write

/-! ## A small package -/

/-- The value of a name, which an unknown one does not have. -/
def Data.value : Data τ → Bytes → Option Bytes
  | .suffix p s r, name =>
    if name = ascii "Prompt" then some p else if name = ascii "Suffix" then some s else if name = ascii "Response"
      then some r else none
  | .messages s _ _ r, name => if name = ascii "System" then some s else if name = ascii "Response"
      then some r else none
  | .legacy r, name =>
    if name = ascii "System" then some r.system else if name = ascii "Prompt" then some r.prompt
    else if name = ascii "Response" then some r.response else none

/-- A pipeline that is a field with one name. -/
def Pipe.name (pipe : Pipe) : Option Bytes :=
  match pipe.decl, pipe.cmds with
  | [], [[.field [name]]] => some name
  | _, _ => none

mutual

/-- What is written for texts, for fields, and for conditions on a field. Everything else is an error. -/
def renderNode (value : Bytes → Option Bytes) : Node → Option Bytes
  | .text text => some text
  | .comment _ => some []
  | .action pipe => pipe.name.map (fun name => (value name).getD (ascii "<no value>"))
  | .branch .if pipe list elseList =>
    match pipe.name with
    | none => none
    | some name => if (value name).getD [] ≠ [] then renderList value list else renderElse value elseList
  | _ => none

def renderList (value : Bytes → Option Bytes) : List Node → Option Bytes
  | [] => some []
  | n :: nodes =>
    match renderNode value n, renderList value nodes with
    | some out, some rest => some (out ++ rest)
    | _, _ => none

def renderElse (value : Bytes → Option Bytes) : Option (List Node) → Option Bytes
  | none => some []
  | some nodes => renderList value nodes

end

/-- A package for one text, of which the tree is given. -/
def Package.small (text : Bytes) (t : Tmpl) (h : t.WellFormed) : Package Unit where
  parse s := if s = text then .ok t else .error (ascii "unexpected text")
  exec t d :=
    match renderList d.value t.root with
    | some out => some (out, none)
    | none => some ([], some (ascii "unexpected node"))
  toLower s := s.map (fun b => if 0x41 ≤ b ∧ b ≤ 0x5a then b + 0x20 else b)
  parse_wellFormed s t' hparse := by
    split at hparse
    · cases hparse
      exact h
    · cases hparse
  exec_wellFormed t' d _ := by split <;> exact Option.some_ne_none _

end Ollama.Template
