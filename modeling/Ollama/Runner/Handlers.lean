import Ollama.Lib.Allocation
import Ollama.Lib.System
import Ollama.Runner.Server

/-!
# Handlers and permits

`runner/ollamarunner/runner.go`: the handlers `completion` and `embeddings` beside the loop of `run`. A handler makes
a sequence of its request, takes a permit of the semaphore `seqsSem`, and then puts the sequence in place under the
mutex. `processBatch` holds the mutex while it works, but releases the permit of every sequence it removes at once, so
handlers can take permits in the middle of it: each turn of its two loops is a step. As in `Server.processBatch`, a
panic and an error that ends the process have no outcome.
-/

namespace Ollama.Runner

open Kvcache (maxInt32)

variable {σ ρ μ : Type}

/-- The errors of the section of a handler under the mutex: those of `LoadCacheSlot`, of which "no available cache
slots" is one, and "could not find an available sequence". -/
inductive InsertErr where
  | loadCache
  | noSequence
  deriving DecidableEq, Repr

/-- The section of a handler under the mutex, with the inputs that `NewSequence` made. -/
def Server.insert (K : KvCache σ ρ μ) (req : Request μ) (prompt : List (Input μ)) (numKeep : Nat) (s : Server σ μ) :
    Option (Server σ μ × Option InsertErr) :=
  match s.seqs.findIdx? Option.isNone with
  | none => some (s, some .noSequence)
  | some i =>
    (s.cache.loadCacheSlot K req.now req.later prompt req.cachePrompt).map (fun out =>
      match out.2 with
      | none => ({ s with cache := out.1 }, some .loadCache)
      | some (slot, rest) =>
        ({ s.setSeq i (some
            { inputs := rest, cache := slot, numPredict := req.numPredict, numKeep := numKeep, stop := req.stop
              embeddingOnly := req.embeddingOnly }) with cache := out.1 }, none))

/-- A handler: it is in `Acquire`, it has a permit and waits for the mutex, its sequence has been put in place, or it
has returned, without a permit or with an error of the section under the mutex. -/
inductive Handler (μ : Type) where
  | acquiring (req : Request μ) (prompt : List (Input μ)) (numKeep : Nat)
  | locking (req : Request μ) (prompt : List (Input μ)) (numKeep : Nat)
  | serving
  | returned
  | failed (err : InsertErr)

/-- Where `processBatch` is: it does not have the mutex, or it has it and is in the loop that gathers a batch or in
the loop after `Forward`, with the places still to visit. -/
inductive Section (μ : Type) where
  | free
  | gathering (env : Env) (todo : List Nat) (options : Options μ)
  | finishing (env : Env) (todo : List Nat)

/-- `Server` with its handlers, `parallel` and the permits of `seqsSem` that are held. -/
structure Serving (σ μ : Type) where
  server : Server σ μ
  parallel : Nat
  handlers : List (Handler μ) := []
  held : Nat := 0
  batch : Section μ := .free

/-- What can happen next. -/
inductive ServingAct (μ : Type) where
  /-- a handler begins with `NewSequence` -/
  | request (req : Request μ)
  /-- `Acquire` returns with a permit -/
  | acquire (i : Nat)
  /-- `Acquire` returns an error, for the client is gone -/
  | abort (i : Nat)
  /-- the section of a handler under the mutex -/
  | insert (i : Nat)
  /-- `processBatch` takes the mutex -/
  | lock (env : Env)
  /-- the next turn of `processBatch` -/
  | turn

/-- The turn of a loop is over: the permits of the sequences it removed are released. To release more than are held
panics. -/
def Serving.turned (st : Serving σ μ) (s : Server σ μ) (batch : Section μ) : Option (Serving σ μ) :=
  let removed := s.finished.length - st.server.finished.length
  if removed ≤ st.held then some { st with server := s, held := st.held - removed, batch := batch } else none

/-- The next turn of `processBatch`. -/
def Serving.turn (K : KvCache σ ρ μ) (st : Serving σ μ) : Option (Serving σ μ) :=
  match st.batch with
  | .free => none
  | .gathering env (i :: todo) options =>
    (gatherSeq K env i st.server options).bind (fun out => st.turned out.1 (.gathering env todo out.2))
  | .gathering env [] options =>
    if options.rows.length = 0 then some { st with batch := .free }
    else
      (st.server.forward K options.rows).map (fun s =>
        { st with server := s, batch := .finishing env (List.range s.seqs.length) })
  | .finishing env (i :: todo) => (finishSeq env i st.server).bind (fun s => st.turned s (.finishing env todo))
  | .finishing _ [] => some { st with batch := .free }

/-- The state after an act. `processBatch` waits while there is no sequence. -/
def Serving.act (K : KvCache σ ρ μ) (st : Serving σ μ) : ServingAct μ → Option (Serving σ μ)
  | .request req =>
    match newInputs st.server.cache.numCtx req.numKeep req.inputs with
    | none => some { st with handlers := st.handlers ++ [.returned] }
    | some (prompt, numKeep) => some { st with handlers := st.handlers ++ [.acquiring req prompt numKeep] }
  | .acquire i =>
    match st.handlers[i]? with
    | some (.acquiring req prompt numKeep) =>
      if st.held < st.parallel then
        some { st with handlers := st.handlers.set i (.locking req prompt numKeep), held := st.held + 1 }
      else none
    | _ => none
  | .abort i =>
    match st.handlers[i]? with
    | some (.acquiring _ _ _) => some { st with handlers := st.handlers.set i .returned }
    | _ => none
  | .insert i =>
    match st.batch, st.handlers[i]? with
    | .free, some (.locking req prompt numKeep) =>
      (st.server.insert K req prompt numKeep).map (fun out =>
        { st with
          server := out.1
          handlers := st.handlers.set i (match out.2 with
            | none => .serving
            | some err => .failed err) })
    | _, _ => none
  | .lock env =>
    match st.batch with
    | .free =>
      if st.server.seqs.any Option.isSome then
        let n := st.server.seqs.length
        some { st with batch := .gathering env ((List.range n).map (fun k => (st.server.nextSeq + k) % n)) {} }
      else none
    | _ => none
  | .turn => st.turn K

/-- A server with `parallel` places, sequences and permits, and its handlers. -/
def serving (K : KvCache σ ρ μ) (multiUserCache : Bool) : Lib.Machine (Serving σ μ) (ServingAct μ) where
  init st := ∃ (parallel batchSize numCtx : Nat) (cache : Option σ),
    1 ≤ numCtx ∧ (numCtx : Int) ≤ maxInt32 ∧ (∀ kv, cache = some kv → ∀ seq p, K.entries kv seq p = 0) ∧
    st = { server := { seqs := List.replicate parallel none, batchSize := batchSize
                       cache := ⟨numCtx, List.replicate parallel {}, multiUserCache, cache⟩ }
           parallel := parallel }
  act := Serving.act K

end Ollama.Runner
