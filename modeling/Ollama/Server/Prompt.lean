import Ollama.Lib.Decimal
import Ollama.Lib.Strings
import Ollama.Server.ToolCalls

/-!
# The prompt of a chat

`chatPrompt` of `server/prompt.go`. It looks for the messages that fit into the context window, from the last one
back, puts tags for the images into their texts, and has the template make a text of them. What the template makes of
a list of messages, the tokenizer of the runner and `mllama.Preprocess` are functions that are given; each may fail
with an error. The tools go to the template as they are.
-/

namespace Ollama.Server

open Lib

/-- `api.Message`. -/
structure Message where
  role : Bytes
  content : Bytes
  images : List Bytes := []
  toolCalls : List ToolCall := []

/-- `llm.ImageData`. -/
structure ImageData where
  data : Bytes
  id : Nat
  aspectRatioID : Int := 0

/-- What `chatPrompt` reads of a model. `projectorPaths` is `none` for a nil slice. -/
structure ChatModel where
  modelFamilies : List Bytes
  projectorPaths : Option (List Bytes)

/-- What `chatPrompt` calls. `preprocess` returns the pixels in little endian, and the option "aspectRatioIndex" if it
is an int. -/
structure PromptEnv where
  execute : List Message → Except Bytes Bytes
  tokenize : Bytes → Except Bytes (List Int)
  preprocess : Bytes → Except Bytes (Bytes × Option Int)

/-- How `chatPrompt` can end without a prompt. -/
inductive PromptErr where
  | error (text : Bytes)
  | panic
  deriving DecidableEq

/-- `errTooManyImages`. -/
def errTooManyImages : PromptErr := .error (ascii "vision model only supports a single image per message")

/-- `checkMllamaModelFamily`. -/
def checkMllamaModelFamily (m : ChatModel) : Bool := m.modelFamilies.any (· == ascii "mllama")

/-- `imageNumTokens`. -/
def imageNumTokens (m : ChatModel) : Nat := if checkMllamaModelFamily m then 1 else 768

/-- `Role == "system"`. -/
def Message.isSystem (msg : Message) : Bool := msg.role == ascii "system"

/-- The system messages of a list. -/
def systemMessages (msgs : List Message) : List Message := msgs.filter Message.isSystem

section

variable (env : PromptEnv) (m : ChatModel) (numCtx : Int)

/-! ## The messages that fit -/

/-- `ctxLen`: the tokens of the messages from `i` on, with the system messages before them. -/
def ctxLen (msgs : List Message) (i : Nat) : Except Bytes Nat :=
  match env.execute (systemMessages (msgs.take i) ++ msgs.drop i) with
  | .error e => .error e
  | .ok b =>
    match env.tokenize b with
    | .error e => .error e
    | .ok s =>
      if m.projectorPaths.isSome
        then .ok (s.length + ((msgs.drop i).map (fun msg => imageNumTokens m * msg.images.length)).sum)
      else .ok s.length

/-- The search, with the messages before `left` still to do: the system messages before the last one that was tried,
and where the messages that fit begin. -/
def search (msgs : List Message) :
    (left : Nat) → (system : List Message) → (n : Nat) → Except PromptErr (List Message × Nat)
  | 0, system, n => .ok (system, n)
  | i + 1, system, n =>
    match msgs[i]? with
    | none => .error .panic
    | some msg =>
      if checkMllamaModelFamily m ∧ 1 < msg.images.length then .error errTooManyImages
      else if i = n then search msgs i system n
      else
        match ctxLen env m msgs i with
        | .error e => .error (.error e)
        | .ok len =>
          if numCtx < len then .ok (systemMessages (msgs.take i), n)
          else search msgs i (systemMessages (msgs.take i)) i

/-! ## The tags of the images -/

/-- The tags before a message, the prompt of its image, what it says, and the images so far. -/
structure Tagging where
  tags : Bytes
  imgPrompt : Bytes
  prompt : Bytes
  images : List ImageData

/-- `imgData`. -/
def imageData (id : Nat) (i : Bytes) : Except PromptErr ImageData :=
  if checkMllamaModelFamily m ∧ m.projectorPaths.getD [] ≠ [] then
    match env.preprocess i with
    | .error e => .error (.error e)
    | .ok (_, none) => .error (.error (ascii "missing aspect ratio for image"))
    | .ok (data, some ar) => .ok { id, data, aspectRatioID := ar }
  else .ok { id, data := i }

/-- `imgTag`. -/
def imgTag (id : Nat) : Bytes := ascii "[img-" ++ decimal id ++ ascii "]"

/-- One image of a message: its tag takes the place of the first `[img]`, or goes before the message. -/
def Tagging.image (s : Tagging) (i : Bytes) : Except PromptErr Tagging :=
  match imageData env m s.images.length i with
  | .error e => .error e
  | .ok imgData =>
    let imgPrompt := if checkMllamaModelFamily m then ascii "<|image|>" else s.imgPrompt
    match index (ascii "[img]") s.prompt with
    | none => .ok { s with tags := s.tags ++ imgTag imgData.id, imgPrompt, images := s.images ++ [imgData] }
    | some k =>
      .ok { s with
        prompt := s.prompt.take k ++ imgTag imgData.id ++ s.prompt.drop (k + (ascii "[img]").length)
        imgPrompt
        images := s.images ++ [imgData] }

/-- One message: its text with the tags, and the images. -/
def tagMessage (images : List ImageData) (msg : Message) : Except PromptErr (Message × List ImageData) :=
  match msg.images.foldlM (Tagging.image env m) ⟨[], [], msg.content, images⟩ with
  | .error e => .error e
  | .ok s => .ok ({ msg with content := s.tags ++ s.imgPrompt ++ s.prompt }, s.images)

/-- The messages in turn. -/
def tagMessages : (images : List ImageData) → List Message → Except PromptErr (List Message × List ImageData)
  | images, [] => .ok ([], images)
  | images, msg :: msgs =>
    match tagMessage env m images msg with
    | .error e => .error e
    | .ok (msg', images') =>
      match tagMessages images' msgs with
      | .error e => .error e
      | .ok (msgs', images'') => .ok (msg' :: msgs', images'')

/-! ## The prompt -/

/-- What the last execution of the template gets: the system messages that the search left, and the messages from
`currMsgIdx` on. The texts of `msgs` are replaced in place. -/
structure Prompted where
  system : List Message
  currMsgIdx : Nat
  msgs : List Message
  images : List ImageData

/-- `append(system, msgs[currMsgIdx:]...)`. -/
def Prompted.given (p : Prompted) : List Message := p.system ++ p.msgs.drop p.currMsgIdx

/-- `chatPrompt` up to the last execution of the template. Without a message there is no `msgs[currMsgIdx:]`. -/
def promptMessages (msgs : List Message) : Except PromptErr Prompted :=
  if msgs = [] then .error .panic
  else
    match search env m numCtx msgs msgs.length [] (msgs.length - 1) with
    | .error e => .error e
    | .ok (system, n) =>
      match tagMessages env m [] (msgs.drop n) with
      | .error e => .error e
      | .ok (tagged, images) => .ok { system, currMsgIdx := n, msgs := msgs.take n ++ tagged, images }

/-- `chatPrompt`. -/
def chatPrompt (msgs : List Message) : Except PromptErr (Bytes × List ImageData) :=
  match promptMessages env m numCtx msgs with
  | .error e => .error e
  | .ok p =>
    match env.execute p.given with
    | .error e => .error (.error e)
    | .ok prompt => .ok (prompt, p.images)

end

end Ollama.Server
