import Ollama.Ggml.KeyValue

/-!
# The layers of a blob of GGUF files

`ggufLayers` of `server/create.go` and `detectChatTemplate` of `server/model.go`: a blob is decoded file by file, each
from where the one before ends, and every file is made a layer; then a layer with a known chat template gets one with
its template, and one with its parameters.

A blob is its bytes, on a file system that does not fail. The digest of a content, `template.Named` and the largest
number of bytes that can be allocated at once are given. Of a layer, the content of its blob is kept, but not its
status. Nothing bounds the loop, so that it is run with fuel.
-/

namespace Ollama.Server

open Lib Ggml

/-- `layerGGML`: the layer, with the content of its blob, and the model if there is one. -/
structure LayerGGML where
  mediaType : Bytes
  digest : Bytes
  size : Nat
  from_ : Bytes := []
  content : Bytes
  ggml : Option Gguf

/-- What `ggufLayers` fails with. -/
inductive GgufErr where
  /-- `errOnlyGGUFSupported` -/
  | onlyGGUFSupported
  | decode (err : Err)

/-- `errors.Is(err, io.EOF)`. -/
def isEOF : Err → Bool
  | .eof => true
  | .wrapped _ err => isEOF err
  | _ => false

/-- The content type of a blob is "gguf". A blob of fewer than four bytes is read as if zeros followed it. -/
def isGGUF (blob : Bytes) : Bool := blob.take 4 = ascii "GGUF" ∨ blob.take 4 = ascii "FUGG"

/-- The media type of a file. The architecture is looked at if the file is no adapter. -/
def mediatype (f : Gguf) : Except Err Bytes :=
  match kind f.kv with
  | none => .error .panic
  | some kind =>
    if kind = ascii "adapter" then .ok (ascii "application/vnd.ollama.image.adapter")
    else
      match architecture f.kv with
      | none => .error .panic
      | some architecture =>
        if (f.kv.lookup (architecture ++ ascii ".vision.block_count")).isSome ∨ kind = ascii "projector" then
          .ok (ascii "application/vnd.ollama.image.projector")
        else .ok (ascii "application/vnd.ollama.image.model")

section

variable (maxAlloc : Option Nat) (sha : Bytes → Bytes) (digest path : Bytes) (blob : Bytes)

/-- `NewLayer`. -/
def newLayer (content mediaType : Bytes) (ggml : Option Gguf) : LayerGGML :=
  { mediaType, digest := sha content, size := content.length, content, ggml }

/-- The layer of a file from `offset`, where `Decode` returns `n`: the blob, or the bytes of a section reader at
`offset` that has `n`. -/
def ggufLayer (offset n : Nat) (mediaType : Bytes) (f : Gguf) : LayerGGML :=
  if digest ≠ [] ∧ n = blob.length ∧ offset = 0 then
    { mediaType, digest, size := blob.length, from_ := path, content := blob, ggml := some f }
  else newLayer sha ((blob.drop offset).take n) mediaType (some f)

/-- The loop of `ggufLayers`. The position of the file is `offset` where it decodes the next one. -/
def splitLoop : (fuel : Nat) → (offset : Nat) → List LayerGGML → Option (Except GgufErr (List LayerGGML))
  | 0, offset, layers => if offset < blob.length then none else some (.ok layers)
  | fuel + 1, offset, layers =>
    if offset < blob.length then
      match decodeAt maxAlloc 0 offset (blob.drop offset) with
      | .error err => if isEOF err then some (.ok layers) else some (.error (.decode err))
      | .ok (f, n) =>
        match mediatype f with
        | .error err => some (.error (.decode err))
        | .ok mediaType => splitLoop fuel n (layers ++ [ggufLayer sha digest path blob offset n mediaType f])
    else some (.ok layers)

/-- A template that `template.Named` finds: its text, and its parameters in JSON if it has some. -/
structure Named where
  bytes : Bytes
  parameters : Option Bytes

/-- The layers that a layer with a chat template gets. -/
def templateLayers (named : Bytes → Option Named) (s : Bytes) : List LayerGGML :=
  if s = [] then []
  else
    match named s with
    | none => []
    | some t =>
      newLayer sha t.bytes (ascii "application/vnd.ollama.image.template") none ::
        (t.parameters.map (fun b => newLayer sha b (ascii "application/vnd.ollama.image.params") none)).toList

/-- `detectChatTemplate`. It ranges over the layers that it gets, and appends to them. -/
def detectChatTemplate (named : Bytes → Option Named) :
    (todo : List LayerGGML) → List LayerGGML → Except GgufErr (List LayerGGML)
  | [], layers => .ok layers
  | layer :: todo, layers =>
    match layer.ggml with
    -- the method of a nil model
    | none => .error (.decode .panic)
    | some f =>
      match chatTemplate f.kv with
      | none => .error (.decode .panic)
      | some s => detectChatTemplate named todo (layers ++ templateLayers sha named s)

/-- `ggufLayers`, if its loop ends within the fuel. -/
def ggufLayers (named : Bytes → Option Named) (fuel : Nat) : Option (Except GgufErr (List LayerGGML)) :=
  if isGGUF blob then
    (splitLoop maxAlloc sha digest path blob fuel 0 []).map (fun r =>
      match r with
      | .error err => .error err
      | .ok layers => detectChatTemplate sha named layers layers)
  else some (.error .onlyGGUFSupported)

end

end Ollama.Server
