import Mathlib.Logic.Function.Basic
import Ollama.Llm.Completion
import Ollama.Runner.Lemmas.Batch

/-!
# Completions on the runner

The request that `Completion` of `llm/server.go` sends is decoded by the handler `completion` of the runner, which
makes a sequence of it that `processBatch` works on. Beside a run stands, for each place, with what options the last
completion there was asked for, and how many tokens have been sampled for it (`tallied`). The code does not keep the
options.
-/

namespace Ollama.Runner

open Lib

variable {σ ρ μ : Type}

/-- The request as `completion` has it, for the inputs that are made of its prompt and its images. -/
def completionRequest (request : Llm.RunnerRequest) (inputs : List (Input μ)) (now later : Nat) : Request μ :=
  { inputs := inputs
    cachePrompt := request.cachePrompt
    numKeep := Kvcache.int32 request.nKeep
    numPredict := request.nPredict
    stop := request.stop
    embeddingOnly := false
    now := now
    later := later }

/-- The request as `embeddings` has it. -/
def embeddingRequest (cachePrompt : Bool) (inputs : List (Input μ)) (now later : Nat) : Request μ :=
  { inputs := inputs
    cachePrompt := cachePrompt
    numKeep := 0
    numPredict := 0
    stop := []
    embeddingOnly := true
    now := now
    later := later }

/-- The options of a completion, and the number of tokens sampled for it. -/
structure Tally where
  options : Llm.CompletionOptions
  sampled : Nat

/-- The tallies of the places: there is none where no completion has been. -/
abbrev Tallies := Nat → Option Tally

/-- Whether the turn of a place after `Forward` comes to the sampler. -/
def Server.samples (s : Server σ μ) (i : Nat) : Bool :=
  match s.seq i with
  | none => false
  | some seq => seq.inputs.length = 0 && !seq.embeddingOnly

/-- A token is sampled for a place. -/
def Tallies.count (ts : Tallies) (i : Nat) : Tallies :=
  Function.update ts i ((ts i).map (fun t => { t with sampled := t.sampled + 1 }))

/-- The places that are taken by a new sequence have another tally. -/
def Server.startTally (s s' : Server σ μ) (tally : Option Tally) (ts : Tallies) : Tallies := fun i =>
  match s.seq i, s'.seq i with
  | none, some _ => tally
  | _, _ => ts i

/-- `finishAll` with the tallies. There is no server after an error, but what has been sampled until then is counted. -/
def finishTallied (env : Env) : List Nat → Server σ μ → Tallies → Option (Server σ μ) × Tallies
  | [], s, ts => (some s, ts)
  | i :: rest, s, ts =>
    let ts := if s.samples i then ts.count i else ts
    match finishSeq env i s with
    | none => (none, ts)
    | some s => finishTallied env rest s ts

/-- `processBatch` with the tallies. -/
def Server.processTallied (K : KvCache σ ρ μ) (env : Env) (s : Server σ μ) (ts : Tallies) :
    Option (Server σ μ) × Tallies :=
  match gatherAll K env s.order s {} with
  | none => (none, ts)
  | some (s₁, options) =>
    if options.rows.length = 0 then (some s₁, ts)
    else
      match s₁.forward K options.rows with
      | none => (none, ts)
      | some s₂ => finishTallied env (List.range s.seqs.length) s₂ ts

/-- The runs of a server with tallies: completions that `Completion` sends, embeddings and batches in any order.
Without a server they have come to their end. -/
def tallied (K : KvCache σ ρ μ) (l : Llm.LlmServer) : Lib.System (Option (Server σ μ) × Tallies) where
  init st := ∃ s, (system K).init s ∧ st = (some s, fun _ => none)
  step st st' := ∃ s, st.1 = some s ∧
    ((∃ out req request inputs now later s', (Llm.compose out l req).2 = .ok request ∧
        s.completion K (completionRequest request inputs now later) = some s' ∧
        st' = (some s', s.startTally s' (some ⟨req.options, 0⟩) st.2)) ∨
      (∃ cachePrompt inputs now later s', s.completion K (embeddingRequest cachePrompt inputs now later) = some s' ∧
        st' = (some s', s.startTally s' none st.2)) ∨
      ∃ env, st' = s.processTallied K env st.2)

/-- The tallies are written down beside `finishAll`. -/
theorem finishTallied_fst (env : Env) (idxs : List Nat) (s : Server σ μ) (ts : Tallies) :
    (finishTallied env idxs s ts).1 = finishAll env idxs s := by
  induction idxs generalizing s ts with
  | nil => rfl
  | cons i rest ih =>
    rw [finishTallied, finishAll]
    cases finishSeq env i s with
    | none => rfl
    | some s₁ => exact ih s₁ _

/-- The tallies are written down beside `processBatch`. -/
theorem Server.processTallied_fst (K : KvCache σ ρ μ) (env : Env) (s : Server σ μ) (ts : Tallies) :
    (s.processTallied K env ts).1 = s.processBatch K env := by
  unfold processTallied processBatch
  change _ = (gatherAll K env s.order s {}).bind _
  cases gatherAll K env s.order s {} with
  | none => rfl
  | some out =>
    obtain ⟨s₁, options⟩ := out
    dsimp only [Option.bind_some]
    split
    · rfl
    · cases s₁.forward K options.rows with
      | none => rfl
      | some s₂ => exact finishTallied_fst env _ s₂ ts

end Ollama.Runner
