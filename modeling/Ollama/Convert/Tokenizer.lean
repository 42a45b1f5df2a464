import Ollama.Lib.Assoc
import Ollama.Lib.Utf8

/-!
# The vocabulary of a converted model

`parseVocabularyFromTokenizer` of `convert/tokenizer.go`, from what is decoded of `tokenizer.json` on. A map is the
list of its entries in the order in which a range over it comes by them, so that what holds for every list holds for
every order.
-/

namespace Ollama.Convert

open Lib

/-- `token`. -/
structure Token where
  id : Int
  content : Bytes
  special : Bool := false
  userDefined : Bool := false
  deriving DecidableEq, Repr

/-- `tokenizer`: the vocabulary, a map from contents to ids, and the added tokens. -/
structure Tokenizer where
  vocab : List (Bytes × Int)
  addedTokens : List Token
  nodup : (vocab.map Prod.fst).Nodup

/-- `Vocabulary`. The scores are 32-bit floating-point numbers. -/
structure Vocabulary (ρ : Type) where
  model : Bytes
  tokens : List Bytes
  scores : List ρ
  types : List Int
  deriving DecidableEq, Repr

/-- The type of a token: `tokenTypeControl`, `tokenTypeUserDefined` or `tokenTypeNormal`. -/
def Token.type (t : Token) : Int :=
  if t.special then 3 else if t.userDefined then 4 else 1

/-- The map from ids to tokens. -/
def Tokenizer.tokens (t : Tokenizer) : List (Int × Token) :=
  let tokens := t.vocab.foldl (fun tokens e => Assoc.set tokens e.2 { id := e.2, content := e.1 }) []
  t.addedTokens.foldl (fun tokens token => Assoc.set tokens token.id { token with userDefined := true }) tokens

/-- The keys in increasing order. -/
def Tokenizer.keys (t : Tokenizer) : List Int := (t.tokens.map Prod.fst).mergeSort (fun i j => decide (i ≤ j))

/-- `parseVocabularyFromTokenizer`, after the file has been decoded. `float32` is the conversion of a number. -/
def parseVocabularyFromTokenizer {ρ : Type} (float32 : Int → ρ) (t : Tokenizer) : Vocabulary ρ :=
  t.keys.foldl (fun v k =>
    let token := (t.tokens.lookup k).getD { id := 0, content := [] }
    { v with
      tokens := v.tokens ++ [token.content]
      scores := v.scores ++ [float32 token.id]
      types := v.types ++ [token.type] }) ⟨ascii "gpt2", [], [], []⟩

end Ollama.Convert
