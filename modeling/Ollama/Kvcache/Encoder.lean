import Ollama.Kvcache.Causal
import Ollama.Lib.System

/-!
# The encoder cache

`kvcache/encoder.go`: the keys and values of an image, with the position at which they were stored. A call that panics
has no outcome.

`Sequence` is the cache with the one sequence it serves, whose tokens have names of their own, so that it can be said
which token the data belongs to after its position has changed.
-/

namespace Ollama.Kvcache

variable {τ : Type}

/-- `EncoderCache`. The tensors are opaque. -/
structure EncoderCache (τ : Type) where
  permutedV : Bool
  curLayer : Nat := 0
  curPos : Int := 0
  encoderCached : Bool := false
  encoderPos : Int := 0
  keys : List (Option τ) := []
  values : List (Option τ) := []
  deriving DecidableEq

namespace EncoderCache

/-- `Init`: panics with a padding. -/
def init (cachePadding : Nat) (permutedV : Bool) : Option (EncoderCache τ) :=
  if cachePadding ≠ 0 ∧ cachePadding ≠ 1 then none else some { permutedV := permutedV }

/-- `StartForward`: panics without positions. The image is always in the first position. -/
def startForward (positions : List Int) (c : EncoderCache τ) : Option (EncoderCache τ) :=
  match positions with
  | [] => none
  | pos :: _ => some { c with curPos := pos }

/-- `SetLayer`. -/
def setLayer (layer : Nat) (c : EncoderCache τ) : EncoderCache τ :=
  { c with
    curLayer := layer
    keys := c.keys ++ List.replicate (layer + 1 - c.keys.length) none
    values := c.values ++ List.replicate (layer + 1 - c.values.length) none }

/-- `Get`: panics when the layer has not been set. -/
def get (c : EncoderCache τ) : Option (Option τ × Option τ) := do
  let key ← c.keys[c.curLayer]?
  let value ← c.values[c.curLayer]?
  pure (key, value)

/-- `Put`: panics when the layer has not been set. -/
def put (permute : τ → τ) (key value : τ) (c : EncoderCache τ) : Option (EncoderCache τ) :=
  let value := if c.permutedV then permute value else value
  if c.curLayer < c.keys.length ∧ c.curLayer < c.values.length then
    some { c with
      encoderPos := c.curPos
      encoderCached := true
      keys := c.keys.set c.curLayer (some key)
      values := c.values.set c.curLayer (some value) }
  else
    none

/-- `Remove`, which never fails. It does not look at the sequence. -/
def remove (beginIndex endIndex : Int) (c : EncoderCache τ) : EncoderCache τ :=
  if c.encoderPos ≥ beginIndex ∧ c.encoderPos < endIndex then { c with encoderCached := false } else c

end EncoderCache

/-! ## The sequence -/

/-- A token of the sequence, and where it is. -/
structure Token where
  id : Nat
  pos : Int
  deriving DecidableEq, Repr

/-- What a removal makes of a token: it is deleted, or moved down by the positions that were deleted before it. With
`MaxInt32` for the end everything from the beginning on is deleted. -/
def Token.removed (beginIndex endIndex : Int) (t : Token) : Option Token :=
  if t.pos < beginIndex then some t
  else if endIndex = maxInt32 ∨ t.pos < endIndex then none
  else some { t with pos := t.pos - (endIndex - beginIndex) }

/-- An encoder cache with its sequence: the tokens, the first token of the pass that is going on, and the first token
of the pass in which data was last stored. -/
structure Sequence (τ : Type) where
  cache : EncoderCache τ
  tokens : List Token := []
  next : Nat := 0
  pass : Option Nat := none
  stored : Option Nat := none
  deriving DecidableEq

/-- The tokens of a batch, named from `next` on. -/
def tokensFrom (next : Nat) : List Int → List Token
  | [] => []
  | pos :: positions => ⟨next, pos⟩ :: tokensFrom (next + 1) positions

/-- A call. -/
inductive EncoderCall (τ : Type) where
  | startForward (positions : List Int)
  | setLayer (layer : Nat)
  | put (key value : τ)
  | remove (beginIndex endIndex : Int)

/-- What is asked of a call: the positions of a pass increase and come after all of the sequence, data is stored in a
pass, and a removal is of a block of positions. -/
def EncoderCall.Admitted (s : Sequence τ) : EncoderCall τ → Prop
  | .startForward positions => positions ≠ [] ∧ positions.Pairwise (· < ·) ∧
      ∀ pos ∈ positions, IsInt32 pos ∧ ∀ t ∈ s.tokens, t.pos < pos
  | .setLayer _ => True
  | .put _ _ => s.pass ≠ none
  | .remove b e => IsInt32 b ∧ IsInt32 e ∧ b ≤ e

instance (s : Sequence τ) : (call : EncoderCall τ) → Decidable (call.Admitted s)
  | .startForward _ => inferInstanceAs (Decidable (_ ∧ _ ∧ _))
  | .setLayer _ => inferInstanceAs (Decidable True)
  | .put _ _ => inferInstanceAs (Decidable (_ ≠ _))
  | .remove _ _ => inferInstanceAs (Decidable (_ ∧ _ ∧ _))

/-- The state after a call, when it returns. A removal ends the pass. -/
def EncoderCall.run (permute : τ → τ) (s : Sequence τ) : EncoderCall τ → Option (Sequence τ)
  | .startForward positions =>
    (s.cache.startForward positions).map (fun c =>
      { s with
        cache := c, tokens := s.tokens ++ tokensFrom s.next positions, next := s.next + positions.length, pass :=
        some s.next })
  | .setLayer layer => some { s with cache := s.cache.setLayer layer }
  | .put key value => (s.cache.put permute key value).map (fun c => { s with cache := c, stored := s.pass })
  | .remove b e =>
      some { s with cache := s.cache.remove b e, tokens := s.tokens.filterMap (Token.removed b e), pass := none }

/-- The calls on a cache from `Init` on. -/
def encoderMachine (permute : τ → τ) : Lib.Machine (Sequence τ) (EncoderCall τ) where
  init s := ∃ cachePadding permutedV, (EncoderCache.init cachePadding permutedV).map (fun c => { cache := c }) = some s
  act := EncoderCall.run permute

end Ollama.Kvcache
