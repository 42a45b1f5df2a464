import Ollama.Lib.Json

/-!
# Tool calls in a chat

`parseObjects` and `parseToolCalls` of `server/model.go`, and the callback of `ChatHandler` in `server/routes.go` that
gets the text of the model piece by piece. A stream of responses has the tool calls of each piece that completes some;
without streaming they are looked for once, in the whole text.

What the template renders for a tool call is a text, or nothing if it has no range over `.ToolCalls` or fails. A float
is its bits. A map is the list of its entries in the order in which it is ranged over.
-/

namespace Ollama.Server

open Lib Utf8 Json

/-- `any`, as `encoding/json` makes it. -/
inductive Any where
  | null
  | bool (b : Bool)
  | number (bits : UInt64)
  | string (s : Bytes)
  | array (vs : List Any)
  | object (fields : List (Bytes × Any))

/-- `map[string]any`. -/
def Obj : Type := List (Bytes × Any)

/-! ## Parsing -/

section

variable (u : Unmarshal Obj)

/-- The loop of `parseObjects`. Every turn of it takes a byte away, so that there are never more than the text has.
`Decode` to a map returns no other error. -/
def parseObjectsFrom : (fuel : Nat) → Bytes → List Obj
  | 0, _ => []
  | fuel + 1, s =>
    if s = [] then []
    else
      match decode u s with
      | .eof => []
      | .unexpectedEOF => []
      | .syntaxError offset => parseObjectsFrom fuel (s.drop offset)
      | .typeError offset => parseObjectsFrom fuel (s.drop offset)
      | .ok obj offset => obj :: parseObjectsFrom fuel (s.drop offset)

/-- `parseObjects`. -/
def parseObjects (s : Bytes) : List Obj := parseObjectsFrom u s.length s

mutual

/-- `collect`. -/
def collect : Any → List Obj
  | .object fields => fields :: collectFields fields
  | .array vs => collectAll vs
  | _ => []

/-- The entries of a map in turn. -/
def collectFields : List (Bytes × Any) → List Obj
  | [] => []
  | (_, v) :: fields => collect v ++ collectFields fields

/-- The elements of an array in turn. -/
def collectAll : List Any → List Obj
  | [] => []
  | v :: vs => collect v ++ collectAll vs

end

/-- `api.ToolCall`. -/
structure ToolCall where
  name : Bytes
  arguments : Obj
  index : Nat := 0

/-- The keys of the name and of the arguments: the last one that has a text, and the last one that has a map. -/
def toolKeys (obj : Obj) : Bytes × Bytes :=
  List.foldl (fun (keys : Bytes × Bytes) (e : Bytes × Any) =>
    match e.2 with
    | .string _ => (e.1, keys.2)
    | .object _ => (keys.1, e.1)
    | _ => keys) ([], []) obj

/-- The tool call that a map is, if it is one. -/
def toolCall? (name arguments : Bytes) (kv : Obj) : Option ToolCall :=
  match List.lookup name kv, List.lookup arguments kv with
  | some (.string n), some (.object a) => some { name := n, arguments := a }
  | _, _ => none

/-- `parseToolCalls`, with what the template renders. -/
def parseToolCalls (rendered : Option Bytes) (s : Bytes) : Option (List ToolCall) :=
  match rendered with
  | none => none
  | some b =>
    match parseObjects u b with
    | [] => none
    | templateObject :: _ =>
      let (name, arguments) := toolKeys templateObject
      if name = [] ∨ arguments = [] then none
      else
        let responseObjects := parseObjects u s
        if responseObjects.isEmpty then none
        else
          let objs := responseObjects.flatMap (fun obj => collect (.object obj))
          let toolCalls := objs.filterMap (toolCall? name arguments)
          if toolCalls.isEmpty then none else some toolCalls

/-! ## The callback -/

/-- `llm.CompletionResponse`. -/
structure CompletionResponse where
  content : Bytes
  done : Bool

/-- `api.ChatResponse`. -/
structure ChatResponse where
  content : Bytes
  toolCalls : List ToolCall
  done : Bool

/-- `toolCalls[i].Function.Index = toolCallIndex`. -/
def numbered : (index : Nat) → List ToolCall → List ToolCall
  | _, [] => []
  | index, call :: calls => { call with index } :: numbered (index + 1) calls

/-- A chat with tools: the text that the callback holds back, the number of tool calls, and the responses that were sent. -/
structure Chat where
  sb : Bytes
  toolCallIndex : Nat
  sent : List ChatResponse

/-- The callback, with streaming. -/
def Chat.callback (rendered : Option Bytes) (s : Chat) (r : CompletionResponse) : Chat :=
  let sb := s.sb ++ r.content
  match parseToolCalls u rendered sb with
  | some toolCalls =>
    { sb := []
      toolCallIndex := s.toolCallIndex + toolCalls.length
      sent := s.sent ++ [⟨[], numbered s.toolCallIndex toolCalls, r.done⟩] }
  | none =>
    if r.done then { s with sb, sent := s.sent ++ [⟨if s.toolCallIndex = 0 then sb else r.content, [], r.done⟩] }
    else { s with sb }

/-- The chat after the callback has got the text in pieces. -/
def stream (rendered : Option Bytes) (rs : List CompletionResponse) : Chat :=
  rs.foldl (Chat.callback u rendered) ⟨[], 0, []⟩

/-- The response without streaming. -/
def respond (rendered : Option Bytes) (rs : List CompletionResponse) : ChatResponse :=
  let content := (rs.map CompletionResponse.content).flatten
  let done := (rs.getLast?.map CompletionResponse.done).getD false
  match parseToolCalls u rendered content with
  | some toolCalls => ⟨[], toolCalls, done⟩
  | none => ⟨content, [], done⟩

end

end Ollama.Server
