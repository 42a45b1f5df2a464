import Ollama.Lib.Utf8

/-!
# The tensors of a model

`model/model.go`: what `populateFields` does with a field of a tensor. The walk over the fields brings it the tags of
the fields on the way, and of the elements of lists, where the element with an index has a tag with the index as its
name. The backend is given.
-/

namespace Ollama.Model

open Lib

/-- `Tag`. -/
structure Tag where
  name : Bytes
  alternate : List Bytes := []
  deriving DecidableEq, Repr

/-- `strings.CutPrefix`, where the text has the prefix. -/
def cutPrefix (pre s : Bytes) : Option Bytes := if pre.isPrefixOf s then some (s.drop pre.length) else none

/-- `ParseTags`. -/
def parseTags (s : Bytes) : Tag :=
  match s.splitOn 0x2c with
  | [] => ⟨[], []⟩
  | name :: parts => ⟨name, parts.filterMap (cutPrefix (ascii "alt:"))⟩

/-- The function `fn` of `populateFields`. -/
def fieldNames : List Tag → List (List Bytes)
  | [] => []
  | tag :: tags =>
    let values := [tag.name] :: tag.alternate.map (fun alt => [alt])
    values.map (fun value => (fieldNames tags).foldl (fun value rest => value ++ rest) value)

/-- `strings.Join(name, ".")`. -/
def joinName (name : List Bytes) : Bytes := [0x2e].intercalate name

/-- The names that are tried for a tensor, in order. -/
def tensorNames (tags : List Tag) : List Bytes := (fieldNames tags).map joinName

variable {τ : Type}

/-- What `populateFields` makes of a field of a tensor: it is set to the first tensor that the backend has. -/
def populateTensor (get : Bytes → Option τ) (tags : List Tag) (v : Option τ) : Option τ :=
  match (tensorNames tags).findSome? get with
  | some tensor => some tensor
  | none => v

end Ollama.Model
