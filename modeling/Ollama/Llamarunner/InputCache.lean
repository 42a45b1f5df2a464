import Ollama.Runner.InputCache

/-!
# The input cache of the other runner

`findBestCacheSlot` of `runner/llamarunner/cache.go`. The context of llama.cpp is a state, known by the calls that are
made of it, and whether two inputs are deeply equal is left open: with embeddings it depends on how they lie in
memory.
-/

namespace Ollama.Llamarunner

/-- `input`: a token, or the embedding of an image, whose numbers are their bits. -/
structure Input where
  token : Int
  embed : Option (List UInt32) := none
  deriving DecidableEq, Repr

/-- `InputCacheSlot`, named by its place. -/
structure InputCacheSlot where
  inputs : List Input := []
  inUse : Bool := false
  lastUsed : Nat := 0
  deriving DecidableEq, Repr

/-- `llama.Context`, as much as the cache calls. -/
structure Context (σ : Type) where
  kvCacheSeqRm : (seqId : Nat) → (p0 p1 : Int) → σ → σ
  kvCacheSeqCp : (srcSeqId dstSeqId : Nat) → (p0 p1 : Int) → σ → σ

/-- `InputCache`. Unit tests have no context. -/
structure InputCache (σ : Type) where
  slots : List InputCacheSlot
  lc : Option σ

/-- The slot at a place. -/
def InputCache.slot {σ : Type} (c : InputCache σ) (i : Nat) : InputCacheSlot := (c.slots[i]?).getD {}

/-- `countCommonPrefix`. -/
def countCommonPrefix (deepEqual : Input → Input → Bool) : List Input → List Input → Nat
  | x :: a, y :: b => if deepEqual x y then countCommonPrefix deepEqual a b + 1 else 0
  | _, _ => 0

/-- The loop of `findBestCacheSlot` from slot `i` on. -/
def bestFrom (deepEqual : Input → Input → Bool) (prompt : List Input) :
    List InputCacheSlot → Nat → Option (Nat × Nat) → Option Nat → Nat → Option (Nat × Nat) × Option Nat
  | [], _, best, oldestSlot, _ => (best, oldestSlot)
  | s :: rest, i, best, oldestSlot, oldest =>
    let count := countCommonPrefix deepEqual s.inputs prompt
    let best := if Runner.longer count best then some (i, count) else best
    if s.lastUsed < oldest ∧ ¬s.inUse then
      bestFrom deepEqual prompt rest (i + 1) best (some i) s.lastUsed
    else
      bestFrom deepEqual prompt rest (i + 1) best oldestSlot oldest

/-- `findBestCacheSlot`. A panic has no outcome, and an error is one without a slot. -/
def InputCache.findBestCacheSlot {σ : Type} (C : Context σ) (deepEqual : Input → Input → Bool) (now : Nat)
    (prompt : List Input) (c : InputCache σ) : Option (InputCache σ × Option (Nat × Nat)) :=
  match bestFrom deepEqual prompt c.slots 0 none none now with
  | (some (longestSlot, longest), oldestSlot) =>
    if longest = (c.slot longestSlot).inputs.length ∧ ¬(c.slot longestSlot).inUse then
      some (c, some (longestSlot, longest))
    else
      match oldestSlot with
      | none => none
      | some oldestSlot =>
        if (c.slot oldestSlot).inUse then
          some (c, none)
        else if longest > 0 ∧ longestSlot ≠ oldestSlot then
          let inputs := (c.slot longestSlot).inputs.take longest
          some ({ slots := c.slots.set oldestSlot { c.slot oldestSlot with inputs := inputs },
                  lc := c.lc.map (fun lc =>
                    C.kvCacheSeqCp longestSlot oldestSlot 0 longest (C.kvCacheSeqRm oldestSlot 0 (-1) lc)) },
            some (oldestSlot, longest))
        else
          some (c, some (oldestSlot, longest))
  | (none, _) => none

end Ollama.Llamarunner
