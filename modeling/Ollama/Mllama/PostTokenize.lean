import Mathlib.Algebra.Notation.Defs
import Mathlib.Data.Option.NAry

/-!
# The inputs of a model with images

`PostTokenize` of `model/models/mllama/model.go` attaches the images in a list of inputs to the tokens that follow
them, and takes their own inputs out of the list. What `Concat` makes of two tensors and what the hash makes of two
hashes are parameters. The list is changed in place, and the loop over the images of a token reads the hash of an
image from it.
-/

namespace Ollama.Mllama

variable {τ H : Type*}

/-- `model.Input`. -/
structure Input (τ H : Type*) where
  token : Int
  multimodal : Option τ
  multimodalHash : H
  deriving DecidableEq

variable [Zero H] (concat : τ → τ → τ) (fnvHash : H → H → H)

/-- The input at an index. -/
def inputAt (inputs : List (Input τ H)) (i : Nat) : Input τ H := (inputs[i]?).getD ⟨0, none, 0⟩

/-- The first image is attached to a token. -/
def attachFirst (inputs images : List (Input τ H)) (i : Nat) : List (Input τ H) :=
  inputs.set i { inputAt inputs i with
    multimodal := (inputAt images 0).multimodal
    multimodalHash := (inputAt images 0).multimodalHash }

/-- Another image is attached to a token. -/
def attachNext (images : List (Input τ H)) (i : Nat) (inputs : List (Input τ H)) (j : Nat) : List (Input τ H) :=
  inputs.set i { inputAt inputs i with
    multimodal := Option.map₂ concat (inputAt inputs i).multimodal (inputAt images j).multimodal
    multimodalHash := fnvHash (inputAt inputs i).multimodalHash (inputAt inputs j).multimodalHash }

/-- One turn of the loop, with the images that no token has followed yet. -/
def turn (s : List (Input τ H) × List (Input τ H)) (i : Nat) : List (Input τ H) × List (Input τ H) :=
  let (inputs, images) := s
  if (inputAt inputs i).multimodal.isNone then
    if images.length > 0 then
      ((List.range' 1 (images.length - 1)).foldl (attachNext concat fnvHash images i) (attachFirst inputs images i), [])
    else (inputs, images)
  else (inputs.set i { inputAt inputs i with token := -1 }, images ++ [inputAt inputs i])

/-- `PostTokenize`. -/
def postTokenize (inputs : List (Input τ H)) : List (Input τ H) :=
  ((List.range inputs.length).foldl (turn concat fnvHash) (inputs, [])).1.filter (fun input => input.token ≠ -1)

/-! ## Tokens and images -/

/-- A token of the text, or an image. -/
inductive Item (δ : Type*) where
  | text (token : Nat)
  | image (data : δ)

variable {δ : Type*} (encode : δ → τ) (hash : δ → H)

/-- The input of a token or an image. -/
def Item.input : Item δ → Input τ H
  | .text token => ⟨token, none, 0⟩
  | .image data => ⟨0, some (encode data), hash data⟩

/-- The token of the text, if it is one. -/
def Item.token? : Item δ → Option Nat
  | .text token => some token
  | .image _ => none

/-- The tokens with the images between each and the token before it. The images in front have not been attached yet. -/
def attached : List δ → List (Item δ) → List (Nat × List δ)
  | _, [] => []
  | images, .image data :: rest => attached (images ++ [data]) rest
  | images, .text token :: rest => (token, images) :: attached [] rest

/-- The images of a token as one tensor. -/
def joined : List δ → Option τ
  | [] => none
  | data :: images => some (images.foldl (fun t data => concat t (encode data)) (encode data))

end Ollama.Mllama
