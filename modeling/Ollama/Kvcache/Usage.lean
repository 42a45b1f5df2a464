import Ollama.Kvcache.Causal

/-!
# How a model uses a cache

The calls of `kvcache/cache.go` as models and the runner make them: batches are started, layers set, rows stored and
read for the batch that was started, prefixes copied and blocks removed. A call that panics has no outcome.
-/

namespace Ollama.Kvcache

variable {κ ν : Type}

/-- A cache, and whether the last `StartForward` returned no error. -/
structure User (κ ν : Type) where
  cache : Causal κ ν
  ready : Bool := false

/-- A call. A batch is a list of positions and sequences. -/
inductive Use (κ ν : Type) where
  | startForward (ctx : Ctx) (batch : List (Int × Int))
  | setLayer (layer : Nat)
  | put (rows : List (κ × ν))
  | get
  | copyPrefix (srcSeq dstSeq len : Int)
  | remove (ctx : Ctx) (seq beginIndex endIndex : Int)

/-- What is asked of a call: a batch is not empty and has no negative position, `Put` and `Get` come after a
`StartForward` that succeeded, `Put` with as many rows and `Get` on a layer that holds rows, and a removal is of a
block of positions. -/
def Use.Admitted (u : User κ ν) : Use κ ν → Prop
  | .startForward ctx batch => 1 ≤ ctx.maxTensors ∧ batch ≠ [] ∧ ∀ x ∈ batch, 0 ≤ x.1 ∧ IsInt32 x.1
  | .put rows => u.ready = true ∧ rows.length = u.cache.curBatchSize
  | .get => u.ready = true ∧ ((u.cache.layers[u.cache.curLayer]?).join).isSome
  | .remove _ _ b e => 0 ≤ b ∧ b ≤ e ∧ e ≤ maxInt32
  | _ => True

/-- A batch has a place as the cache is, or some layer holds keys; and rows are stored in a layer that has been set. -/
def Use.Safe (u : User κ ν) : Use κ ν → Prop
  | .startForward _ batch => { u.cache with curBatchSize := batch.length }.findStartLoc ≠ none ∨
      u.cache.storedLayers ≠ 0
  | .put _ => u.cache.curLayer < u.cache.layers.length
  | _ => True

section

variable [Zero κ] [Zero ν]

/-- The state after a call, when it returns. -/
def Use.run (u : User κ ν) : Use κ ν → Option (User κ ν)
  | .startForward ctx batch =>
    (u.cache.startForward ctx (batch.map Prod.fst) (batch.map Prod.snd)).map (fun out => ⟨out.1, out.2.isNone⟩)
  | .setLayer layer => some { u with cache := u.cache.setLayer layer }
  | .put rows => (u.cache.put rows).map (fun c => { u with cache := c })
  | .get => u.cache.get.map (fun _ => u)
  | .copyPrefix srcSeq dstSeq len => some { u with cache := u.cache.copyPrefix srcSeq dstSeq len }
  | .remove ctx seq b e => (u.cache.remove ctx seq b e).map (fun out => { u with cache := out.1 })

/-- The runs of a cache in use, from `Init` on. -/
def usage (κ ν : Type) [Zero κ] [Zero ν] : Lib.System (User κ ν) where
  init u := ∃ windowSize shiftFn config capacity, IsInt32 windowSize ∧ 1 ≤ capacity ∧
    Causal.init windowSize shiftFn config capacity = some u.cache ∧ u.ready = false
  step u u' := ∃ call : Use κ ν, call.Admitted u ∧ call.run u = some u'

end

end Ollama.Kvcache
