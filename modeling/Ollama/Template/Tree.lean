import Ollama.Lib.Utf8

/-!
# Trees of templates

The trees that `text/template/parse` makes of the text of a template, and what `template/template.go` does with them:
`Identifiers` collects the names in a tree, and `deleteNode`, with the predicate that `Execute` gives it, cuts a tree
behind the first field `.Response`. A failed type assertion and a nil pointer panic: there is no result then.
-/

namespace Ollama.Template

open Lib

/-- An argument of a command. A `PipeNode` in parentheses has the arguments of each of its commands. -/
inductive Arg where
  | field (ident : List Bytes)
  | variable (ident : List Bytes)
  | identifier (ident : Bytes)
  | chain (node : Arg) (field : List Bytes)
  | pipe (isAssign : Bool) (decl : List (List Bytes)) (cmds : List (List Arg))
  | dot
  | nil
  | bool (b : Bool)
  | number (text : Bytes)
  | string (text : Bytes)

/-- `PipeNode`: the variables that it declares, and the arguments of each of its commands. -/
structure Pipe where
  isAssign : Bool := false
  decl : List (List Bytes) := []
  cmds : List (List Arg)

/-- `IfNode`, `WithNode` and `RangeNode`. -/
inductive BranchKind where
  | if
  | with
  | range
  deriving DecidableEq

/-- A node of a list. A `ListNode` is the list of its nodes. -/
inductive Node where
  | text (text : Bytes)
  | comment (text : Bytes)
  | action (pipe : Pipe)
  | branch (kind : BranchKind) (pipe : Pipe) (list : List Node) (elseList : Option (List Node))
  | template (name : Bytes) (pipe : Option Pipe)
  | break
  | continue

/-! ## Trees that are parsed -/

/-- A command has arguments, and a pipeline commands. -/
inductive Arg.WellFormed : Arg → Prop where
  | field (ident : List Bytes) : WellFormed (.field ident)
  | variable (ident : List Bytes) : WellFormed (.variable ident)
  | identifier (ident : Bytes) : WellFormed (.identifier ident)
  | chain {node : Arg} (field : List Bytes) : WellFormed node → WellFormed (.chain node field)
  | pipe (isAssign : Bool) (decl : List (List Bytes)) {cmds : List (List Arg)} : cmds ≠ [] → (∀ cmd ∈ cmds, cmd ≠ []) →
      (∀ cmd ∈ cmds, ∀ arg ∈ cmd, WellFormed arg) → WellFormed (.pipe isAssign decl cmds)
  | dot : WellFormed .dot
  | nil : WellFormed .nil
  | bool (b : Bool) : WellFormed (.bool b)
  | number (text : Bytes) : WellFormed (.number text)
  | string (text : Bytes) : WellFormed (.string text)

/-- The commands of a pipeline. -/
structure CmdsWellFormed (cmds : List (List Arg)) : Prop where
  cmds_ne : cmds ≠ []
  args_ne : ∀ cmd ∈ cmds, cmd ≠ []
  args : ∀ cmd ∈ cmds, ∀ arg ∈ cmd, arg.WellFormed

/-- The pipelines of a tree are well formed, and `break` and `continue` are in the list of a range. -/
inductive Node.WellFormed : Bool → Node → Prop where
  | text {inRange : Bool} (text : Bytes) : WellFormed inRange (.text text)
  | comment {inRange : Bool} (text : Bytes) : WellFormed inRange (.comment text)
  | action {inRange : Bool} {pipe : Pipe} : CmdsWellFormed pipe.cmds → WellFormed inRange (.action pipe)
  | branch {inRange : Bool} {kind : BranchKind} {pipe : Pipe} {list : List Node} {elseList : Option (List Node)} :
      CmdsWellFormed pipe.cmds →
      (∀ n ∈ list, WellFormed (inRange || kind = .range) n) →
        (∀ nodes, elseList = some nodes → ∀ n ∈ nodes, WellFormed inRange n) →
      WellFormed inRange (.branch kind pipe list elseList)
  | template {inRange : Bool} (name : Bytes) {pipe : Option Pipe} : (∀ p, pipe = some p → CmdsWellFormed p.cmds) →
      WellFormed inRange (.template name pipe)
  | break : WellFormed true .break
  | continue : WellFormed true .continue

/-- A list of nodes at the top of a template. -/
def ListWellFormed (nodes : List Node) : Prop := ∀ n ∈ nodes, n.WellFormed false

/-! ## Identifiers -/

mutual

/-- `Identifiers`, of an argument. -/
def Arg.identifiers : Arg → List Bytes
  | .field ident => ident
  | .variable ident => ident
  | .pipe _ _ cmds => cmdsIdentifiers cmds
  | _ => []

def argsIdentifiers : List Arg → List Bytes
  | [] => []
  | arg :: args => arg.identifiers ++ argsIdentifiers args

def cmdsIdentifiers : List (List Arg) → List Bytes
  | [] => []
  | cmd :: cmds => argsIdentifiers cmd ++ cmdsIdentifiers cmds

end

mutual

/-- `Identifiers`, of a node. It follows the pipeline of a `TemplateNode` without looking whether there is one. -/
def Node.identifiers : Node → Option (List Bytes)
  | .action pipe => some (cmdsIdentifiers pipe.cmds)
  | .template _ none => none
  | .template _ (some pipe) => some (cmdsIdentifiers pipe.cmds)
  | .branch _ pipe list elseList =>
    match listIdentifiers list, elseIdentifiers elseList with
    | some names, some elseNames => some (cmdsIdentifiers pipe.cmds ++ names ++ elseNames)
    | _, _ => none
  | _ => some []

def listIdentifiers : List Node → Option (List Bytes)
  | [] => some []
  | n :: nodes =>
    match n.identifiers, listIdentifiers nodes with
    | some names, some rest => some (names ++ rest)
    | _, _ => none

def elseIdentifiers : Option (List Node) → Option (List Bytes)
  | none => some []
  | some nodes => listIdentifiers nodes

end

/-! ## Cutting a tree -/

mutual

/-- `walk` of `deleteNode` on an argument: what is left of it, and the variable `cut` of the predicate. A field
`.Response` is never deleted. -/
def walkArg : Arg → (cut : Bool) → Option Arg × Bool
  | .field ident, cut =>
    if ascii "Response" ∈ ident then (some (.field ident), true) else if cut then (none, cut)
      else (some (.field ident), cut)
  | .pipe isAssign decl cmds, cut =>
    if cut then (none, cut)
    else
      match walkCmds cmds cut with
      | (none, cut) => (none, cut)
      | (some [], cut) => (none, cut)
      | (some (cmd :: cmds), cut) => (some (.pipe isAssign decl (cmd :: cmds)), cut)
  | arg, cut => if cut then (none, cut) else (some arg, cut)

/-- The arguments of a command that are left. -/
def walkArgs : List Arg → (cut : Bool) → List Arg × Bool
  | [], cut => ([], cut)
  | arg :: args, cut =>
    match walkArg arg cut with
    | (arg, cut) =>
      match walkArgs args cut with
      | (args, cut) => (arg.toList ++ args, cut)

/-- The commands of a pipeline, of which nothing is left as soon as one has no arguments. -/
def walkCmds : List (List Arg) → (cut : Bool) → Option (List (List Arg)) × Bool
  | [], cut => (some [], cut)
  | cmd :: cmds, cut =>
    match walkArgs cmd cut with
    | ([], cut) => (none, cut)
    | (arg :: args, cut) =>
      match walkCmds cmds cut with
      | (cmds, cut) => (cmds.map (fun cmds => (arg :: args) :: cmds), cut)

end

/-- `walk` on a pipeline. -/
def walkPipe (pipe : Pipe) (cut : Bool) : Option Pipe × Bool :=
  if cut then (none, cut)
  else
    match walkCmds pipe.cmds cut with
    | (none, cut) => (none, cut)
    | (some [], cut) => (none, cut)
    | (some (cmd :: cmds), cut) => (some { pipe with cmds := cmd :: cmds }, cut)

mutual

/-- `walk` on a node. -/
def walkNode : Node → (cut : Bool) → Option (Option Node × Bool)
  | .action pipe, cut =>
    if cut then some (none, cut)
    else
      match walkPipe pipe cut with
      | (none, cut) => some (none, cut)
      | (some pipe, cut) => some (some (.action pipe), cut)
  | .branch kind pipe list elseList, cut =>
    if cut then some (none, cut)
    else
      match walkList list cut with
      | none => none
      | some (list, cut) =>
        match walkElse elseList cut with
        | none => none
        | some (elseList, cut) => some (some (.branch kind pipe list elseList), cut)
  | n, cut => if cut then some (none, cut) else some (some n, cut)

/-- The nodes of a list that are left. -/
def walkList : List Node → (cut : Bool) → Option (List Node × Bool)
  | [], cut => some ([], cut)
  | n :: nodes, cut =>
    match walkNode n cut with
    | none => none
    | some (n, cut) =>
      match walkList nodes cut with
      | none => none
      | some (nodes, cut) => some (n.toList ++ nodes, cut)

/-- `walk(t.ElseList).(*parse.ListNode)`. A list that is deleted is nil, and no `ListNode`. -/
def walkElse : Option (List Node) → (cut : Bool) → Option (Option (List Node) × Bool)
  | none, cut => some (none, cut)
  | some nodes, cut =>
    if cut then none
    else
      match walkList nodes cut with
      | none => none
      | some (nodes, cut) => some (some nodes, cut)

end

/-- `deleteNode`, on the list at the top of a template. -/
def deleteNode (nodes : List Node) : Option (List Node) := (walkList nodes false).map Prod.fst

end Ollama.Template
