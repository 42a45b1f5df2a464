import Ollama.Runner.InputCache
import Ollama.Runner.Stop
import Ollama.Lib.System

/-!
# The runner

`runner/ollamarunner/runner.go`: the sequences a server works on and the two sections of it that run under its mutex,
the one of `completion` that loads a cache slot and starts a sequence, and `processBatch`. What the model samples and
decodes, and whether clients are still there, is an argument of `processBatch`. An error of `processBatch` ends the
process, as a panic does: neither has an outcome.
-/

namespace Ollama.Runner

open Lib

variable {σ ρ μ : Type}

/-- `Sequence`, as far as it is worked on. `cache` is the slot. -/
structure Sequence (μ : Type) where
  inputs : List (Input μ)
  pendingInputs : List (Input μ) := []
  responses : Responses := {}
  cache : Nat
  iBatch : Nat := 0
  numPredict : Int := -1
  numKeep : Nat := 0
  stop : List Bytes := []
  embeddingOnly : Bool := false
  numPredicted : Nat := 0
  deriving DecidableEq, Repr

/-- `model.Options`: the elements of the batch, the places of those with multimodal data, and those with an output. -/
structure Options (μ : Type) where
  rows : List (BatchRow μ) := []
  multimodal : List Nat := []
  outputs : List Nat := []
  deriving DecidableEq, Repr

/-- `Server`. `finished` has the responses of the sequences that have been removed. -/
structure Server (σ μ : Type) where
  seqs : List (Option (Sequence μ))
  batchSize : Nat
  nextSeq : Nat := 0
  cache : InputCache σ μ
  finished : List Responses := []

/-- What the model and the clients do during one `processBatch`: the token sampled for a sequence from an output,
whether a token ends a sequence, its text, and whether the client of a sequence is there. -/
structure Env where
  sample : Nat → Nat → Option Int
  eos : Int → Bool
  decode : Int → Option Bytes
  connected : Nat → Bool

/-- The sequence at a place, if there is one. -/
def Server.seq (s : Server σ μ) (i : Nat) : Option (Sequence μ) := (s.seqs[i]?).join

/-- Another sequence at a place. -/
def Server.setSeq (s : Server σ μ) (i : Nat) (seq : Option (Sequence μ)) : Server σ μ :=
  { s with seqs := s.seqs.set i seq }

/-- The server with other inputs in a slot. -/
def Server.setInputs (s : Server σ μ) (i : Nat) (inputs : List (Input μ)) : Server σ μ :=
  { s with cache := s.cache.setSlot i { s.cache.slot i with inputs := inputs } }

/-- `removeSequence`. -/
def Server.removeSequence (env : Env) (i : Nat) (seq : Sequence μ) (s : Server σ μ) : Server σ μ :=
  { s.setSeq i none with
    cache := s.cache.setSlot seq.cache { s.cache.slot seq.cache with inUse := false }
    finished := s.finished ++ [(flushPending (env.connected i) seq.responses).1] }

/-! ## Gathering a batch -/

/-- The variables of the loop over the inputs of a sequence. -/
structure Gather (σ μ : Type) where
  cache : InputCache σ μ
  seq : Sequence μ
  options : Options μ
  nextSeq : Nat

/-- An input is added to the batch. -/
def Gather.add (total i : Nat) (input : Input μ) (g : Gather σ μ) : Gather σ μ :=
  let at_ := g.options.rows.length
  { g with
    options :=
      { rows := g.options.rows ++
          [⟨input, (g.cache.slot g.seq.cache).inputs.length + g.seq.pendingInputs.length, g.seq.cache⟩]
        multimodal := if input.multimodal.isSome then g.options.multimodal ++ [at_] else g.options.multimodal
        outputs := if i + 1 = total then g.options.outputs ++ [at_] else g.options.outputs }
    seq := { g.seq with iBatch := g.options.outputs.length, pendingInputs := g.seq.pendingInputs ++ [input] } }

/-- Whether the batch is broken before an input so that images are at its beginning. -/
def Gather.breaks (input : Input μ) (g : Gather σ μ) : Prop :=
  input.multimodal.isSome ∧ ¬(g.seq.pendingInputs.length = 0 ∨
    g.options.multimodal.getLast? = some (g.options.rows.length - 1))

instance (input : Input μ) (g : Gather σ μ) : Decidable (g.breaks input) := inferInstanceAs (Decidable (_ ∧ _))

/-- Whether the next input of a sequence does not fit in its context. -/
def Gather.full (g : Gather σ μ) : Prop :=
  (g.cache.slot g.seq.cache).inputs.length + g.seq.pendingInputs.length + 1 > g.cache.numCtx

instance (g : Gather σ μ) : Decidable g.full := inferInstanceAs (Decidable (_ > _))

/-- The loop over the `total` inputs of the sequence `seqIdx`, from input `i` on. -/
def gather (K : KvCache σ ρ μ) (seqIdx batchSize total : Nat) : List (Input μ) → Nat → Gather σ μ → Option (Gather σ μ)
  | [], _, g => some g
  | input :: rest, i, g =>
    let next (g : Gather σ μ) : Option (Gather σ μ) :=
      if i ≥ batchSize then some g
      else if g.breaks input then some { g with nextSeq := seqIdx }
      else gather K seqIdx batchSize total rest (i + 1) (g.add total i input)
    if g.full then
      if g.seq.pendingInputs.length = 0 then
        (g.cache.shiftCacheSlot K g.seq.cache g.seq.numKeep).bind (fun c => next { g with cache := c })
      else
        some g
    else
      next g

/-- One turn of the loop over the sequences. -/
def gatherSeq (K : KvCache σ ρ μ) (env : Env) (seqIdx : Nat) (s : Server σ μ) (options : Options μ) :
    Option (Server σ μ × Options μ) :=
  match s.seq seqIdx with
  | none => some (s, options)
  | some seq =>
    if seq.numPredict > 0 ∧ (seq.numPredicted : Int) ≥ seq.numPredict then
      some (s.removeSequence env seqIdx seq, options)
    else
      let disabled := s.cache.cache.isNone
      let seq := if disabled then { seq with inputs := (s.cache.slot seq.cache).inputs ++ seq.inputs } else seq
      let s := if disabled then s.setInputs seq.cache [] else s
      (gather K seqIdx s.batchSize seq.inputs.length seq.inputs 0 ⟨s.cache, seq, options, s.nextSeq⟩).map (fun g =>
        ({ s.setSeq seqIdx (some { g.seq with inputs := g.seq.inputs.drop g.seq.pendingInputs.length }) with
            cache := g.cache, nextSeq := g.nextSeq }, g.options))

/-- The loop over the sequences, in a given order. -/
def gatherAll (K : KvCache σ ρ μ) (env : Env) : List Nat → Server σ μ → Options μ → Option (Server σ μ × Options μ)
  | [], s, options => some (s, options)
  | i :: rest, s, options => (gatherSeq K env i s options).bind (fun out => gatherAll K env rest out.1 out.2)

/-! ## After the forward pass -/

/-- One turn of the loop over the sequences after `Forward`. -/
def finishSeq (env : Env) (i : Nat) (s : Server σ μ) : Option (Server σ μ) :=
  match s.seq i with
  | none => some s
  | some seq =>
    let inputs := (s.cache.slot seq.cache).inputs ++ seq.pendingInputs
    let s := s.setInputs seq.cache inputs
    let seq := { seq with pendingInputs := [] }
    if seq.inputs.length ≠ 0 then
      if s.cache.cache.isNone then none else some (s.setSeq i (some seq))
    else
      let seq := { seq with numPredicted := seq.numPredicted + 1 }
      if seq.embeddingOnly then some (s.removeSequence env i seq)
      else
        (env.sample i seq.iBatch).bind (fun token =>
          if env.eos token then some (s.removeSequence env i seq)
          else
            (env.decode token).bind (fun piece =>
              let out := emit (env.connected i) seq.stop seq.responses piece
              let seq := { seq with inputs := [{ token := token }], responses := out.1 }
              match out.2 with
              | .stop tokens =>
                if tokens > inputs.length + 1 then none
                else some ((s.setInputs seq.cache (inputs.take (inputs.length + 1 - tokens))).removeSequence env i seq)
              | .go => some (s.setSeq i (some seq))
              | .connection => some (s.removeSequence env i seq)))

/-- The loop over the sequences after `Forward`, in a given order. -/
def finishAll (env : Env) : List Nat → Server σ μ → Option (Server σ μ)
  | [], s => some s
  | i :: rest, s => (finishSeq env i s).bind (finishAll env rest)

/-- `model.Forward`, on the KV cache when there is one. -/
def Server.forward (K : KvCache σ ρ μ) (rows : List (BatchRow μ)) (s : Server σ μ) : Option (Server σ μ) :=
  match s.cache.cache with
  | none => some s
  | some kv => (K.forward rows kv).map (fun kv => { s with cache := { s.cache with cache := some kv } })

/-- `processBatch`. -/
def Server.processBatch (K : KvCache σ ρ μ) (env : Env) (s : Server σ μ) : Option (Server σ μ) :=
  let n := s.seqs.length
  (gatherAll K env ((List.range n).map (fun k => (s.nextSeq + k) % n)) s {}).bind (fun out =>
    if out.2.rows.length = 0 then some out.1
    else (out.1.forward K out.2.rows).bind (finishAll env (List.range n)))

/-! ## Completion -/

/-- What `NewSequence` makes of the inputs of a request: it keeps the beginning and the end where they do not fit in
the context. It fails without inputs. -/
def newInputs (numCtx : Nat) (numKeep : Int) (inputs : List (Input μ)) : Option (List (Input μ) × Nat) :=
  if inputs.length = 0 then
    none
  else
    let numKeep := min (if numKeep < 0 then inputs.length else numKeep.toNat) (numCtx - 1)
    if inputs.length > numCtx then
      some (inputs.take numKeep ++ inputs.drop (numKeep + (inputs.length - numCtx)), numKeep)
    else
      some (inputs, numKeep)

/-- A request: its inputs and options, and the times at which its slot is loaded. -/
structure Request (μ : Type) where
  inputs : List (Input μ)
  cachePrompt : Bool
  numKeep : Int
  numPredict : Int
  stop : List Bytes
  embeddingOnly : Bool
  now : Nat
  later : Nat

/-- The part of `completion` under the mutex: the first free place gets the sequence of the request, with a slot.
Nothing happens where the request has no inputs or no place is free, and an error of `LoadCacheSlot` leaves the place
free. -/
def Server.completion (K : KvCache σ ρ μ) (req : Request μ) (s : Server σ μ) : Option (Server σ μ) :=
  match newInputs s.cache.numCtx req.numKeep req.inputs with
  | none => some s
  | some (prompt, numKeep) =>
    match s.seqs.findIdx? Option.isNone with
    | none => some s
    | some i =>
      (s.cache.loadCacheSlot K req.now req.later prompt req.cachePrompt).map (fun out =>
        match out.2 with
        | none => { s with cache := out.1 }
        | some (slot, rest) =>
          { s.setSeq i (some
              { inputs := rest, cache := slot, numPredict := req.numPredict, numKeep := numKeep, stop := req.stop
                embeddingOnly := req.embeddingOnly }) with cache := out.1 })

/-- The runs of a server with `parallel` slots: requests and batches in any order. -/
def system (K : KvCache σ ρ μ) : Lib.System (Server σ μ) where
  init s := ∃ (parallel batchSize numCtx : Nat) (multiUserCache : Bool) (cache : Option σ),
    1 ≤ numCtx ∧ (numCtx : Int) ≤ Kvcache.maxInt32 ∧ (∀ kv, cache = some kv → ∀ seq p, K.entries kv seq p = 0) ∧
    s = { seqs := List.replicate parallel none, batchSize := batchSize
          cache := ⟨numCtx, List.replicate parallel {}, multiUserCache, cache⟩ }
  step s s' := (∃ req, s.completion K req = some s') ∨ ∃ env, s.processBatch K env = some s'

end Ollama.Runner
