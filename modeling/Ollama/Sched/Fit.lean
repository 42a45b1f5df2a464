import Ollama.Sched.Steps

/-!
# The context that a model is loaded with

How `processPending` chooses the number of tokens of context and the parallel setting of a load:
`pickBestFullFitByLibrary` tries settings and writes the context of each into the options of the request,
`pickBestPartialFitByLibrary` takes what is left, and on the CPU there is a default. The parallel setting is a
variable of the loop, set when a request is taken from the queue and kept while room is made for it.

`FitStep` is a step of the scheduler together with that variable, in which the numbers are those that the code comes
to; the GPUs, the predictions and whether a model can complete texts come from outside. What no goroutine reads is
marked as such: the options a request was made with, and the request a runner was loaded for.
-/

namespace Ollama.Sched

open Lib

/-- `discover.GpuInfo`, as far as the fit search reads it. -/
structure Gpu where
  id : Bytes
  library : Bytes
  variant : Bytes := []
  freeMemory : Nat := 0

/-- What GPUs are grouped by. -/
def Gpu.requested (info : Gpu) : Bytes :=
  if info.variant = [] then info.library else info.library ++ ascii "_" ++ info.variant

/-- `ByLibrary`. -/
def byLibrary (l : List Gpu) : List (List Gpu) :=
  (l.map Gpu.requested).eraseDups.map (fun requested => l.filter (fun info => info.requested = requested))

/-- A product of numbers of type `int`, which wraps around. -/
def times (n p : Int) : Int := (n * p).bmod (2 ^ 64)

/-- `defaultParallel`. -/
def defaultParallel : Int := 4

/-- What is set for the process. -/
structure Settings where
  /-- `OLLAMA_NUM_PARALLEL`, as an `int` -/
  numParallel : Int
  /-- `OLLAMA_SCHED_SPREAD` -/
  schedSpread : Bool
  /-- `checkMllamaModelFamily` -/
  mllama : Model → Bool
  /-- GPUs in the order of their free memory, the greatest first; which of equals comes first is left open -/
  byFreeMemory : List Gpu → List Gpu

/-- `PredictServerFit` of GPUs, for a context: whether the model fits, and the memory it takes. -/
abbrev Predict := List Gpu → Int → Bool × Nat

variable (c : Settings) (predict : Predict)

/-! ## The fit search -/

section

variable (origNumCtx : Int)

/-- One loop over the parallel settings: the context of the last one that was tried, and the setting and the GPUs if
they fit. -/
def tryEach (pick : Int → Option (List Gpu)) : (ps : List Int) → (numCtx : Int) → Int × Option (Int × List Gpu)
  | [], numCtx => (numCtx, none)
  | p :: ps, _ =>
    match pick (times origNumCtx p) with
    | some gpus => (times origNumCtx p, some (p, gpus))
    | none => tryEach pick ps (times origNumCtx p)

/-- The libraries, one after another: first each GPU, if the model is not to be spread, and then all of them. -/
def tryLibraries (ps : List Int) : (gls : List (List Gpu)) → (numCtx : Int) → Int × Option (Int × List Gpu)
  | [], numCtx => (numCtx, none)
  | gl :: gls, numCtx =>
    let sgl := c.byFreeMemory gl
    let single := fun numCtx => if c.schedSpread then none
      else (sgl.find? (fun g => (predict [g] numCtx).1)).map (fun g => [g])
    let all := fun numCtx => if (predict sgl numCtx).1 then some sgl else none
    match tryEach origNumCtx single ps numCtx with
    | (numCtx, some found) => (numCtx, some found)
    | (numCtx, none) =>
      match tryEach origNumCtx all ps numCtx with
      | (numCtx, some found) => (numCtx, some found)
      | (numCtx, none) => tryLibraries ps gls numCtx

/-- `pickBestFullFitByLibrary`: the context and the parallel setting it leaves, and the GPUs it finds. -/
def pickBestFullFitByLibrary (gpus : List Gpu) (numCtx numParallel : Int) : Int × Int × Option (List Gpu) :=
  let numParallelToTry := if numParallel ≤ 0 then [defaultParallel, 1] else [numParallel]
  match tryLibraries c predict origNumCtx numParallelToTry (byLibrary gpus) numCtx with
  | (numCtx, some (p, gpus)) => (numCtx, p, some gpus)
  | (numCtx, none) => (numCtx, numParallel, none)

/-- `pickBestPartialFitByLibrary`. -/
def pickBestPartialFitByLibrary (gpus : List Gpu) (numCtx numParallel : Int) : Int × Int × List Gpu :=
  let (numCtx, numParallel) := if numParallel ≤ 0 then (origNumCtx, 1) else (numCtx, numParallel)
  let libraries := byLibrary gpus
  if libraries.length ≤ 1 then (numCtx, numParallel, gpus)
  else
    let best := libraries.foldl (fun (best : Nat × List Gpu) gl =>
      let estimatedVRAM := (predict gl numCtx).2
      if estimatedVRAM > best.1 then (estimatedVRAM, gl) else best) (0, libraries.headD [])
    (numCtx, numParallel, best.2)

end

/-! ## Passes -/

/-- What a pass comes to, with the context and the parallel setting it leaves. -/
inductive Decision where
  /-- `loadFn` is called. -/
  | loadFn (numCtx numParallel : Int)
  /-- There is to be room first. -/
  | makeRoom (numCtx numParallel : Int)
  /-- Models are loaded, so the free memory is updated. -/
  | updateFreeSpace (numCtx numParallel : Int)
  | delay (numCtx numParallel : Int)

/-- The parallel setting that a pass leaves. -/
def Decision.numParallel : Decision → Int
  | .loadFn _ numParallel | .makeRoom _ numParallel | .updateFreeSpace _ numParallel | .delay _ numParallel =>
      numParallel

/-- The action follows the decision. -/
inductive Decision.Follows : Decision → Action → Prop where
  | load (numCtx numParallel keepAlive : Int) :
      Follows (.loadFn numCtx numParallel) (.load numCtx numParallel keepAlive)
  | serverError (numCtx numParallel : Int) : Follows (.loadFn numCtx numParallel) (.serverError numCtx)
  | makeRoom (numCtx numParallel : Int) : Follows (.makeRoom numCtx numParallel) (.makeRoom numCtx)
  | updateFreeSpace (numCtx numParallel : Int) : Follows (.updateFreeSpace numCtx numParallel) (.updateFreeSpace numCtx)
  | delay (numCtx numParallel : Int) : Follows (.delay numCtx numParallel) (.delay numCtx)

/-- What a pass is given from outside. -/
structure Outside where
  predict : Predict
  /-- whether the model can complete texts -/
  completion : Bool
  /-- whether a model on the CPU fits beside the others -/
  memoryFits : Bool

/-- A pass that found no runner for the model and may load one, up to where it loads, makes room or updates the free
memory. -/
def place (o : Outside) (gpus : List Gpu) (loadedCount : Nat) (origNumCtx numCtx numParallel : Int) : Decision :=
  let numParallel := if o.completion then numParallel else 1
  if gpus.map Gpu.library = [ascii "cpu"] then
    let numParallel := if numParallel ≤ 0 then defaultParallel else numParallel
    let numCtx := times origNumCtx numParallel
    if loadedCount = 0 ∨ o.memoryFits then .loadFn numCtx numParallel else .makeRoom numCtx numParallel
  else if loadedCount = 0 then
    match pickBestFullFitByLibrary c o.predict origNumCtx gpus numCtx numParallel with
    | (numCtx, numParallel, some _) => .loadFn numCtx numParallel
    | (numCtx, numParallel, none) =>
      let (numCtx, numParallel, _) := pickBestPartialFitByLibrary o.predict origNumCtx gpus numCtx numParallel
      .loadFn numCtx numParallel
  else .updateFreeSpace numCtx numParallel

/-- The rest of that pass, with the free memory updated. `availGpus` are the GPUs that no model is loading on. -/
def fit (gpus availGpus : List Gpu) (origNumCtx numCtx numParallel : Int) : Decision :=
  match pickBestFullFitByLibrary c predict origNumCtx availGpus numCtx numParallel with
  | (numCtx, numParallel, some _) => .loadFn numCtx numParallel
  | (numCtx, numParallel, none) =>
    if availGpus.length < gpus.length then .delay numCtx numParallel else .makeRoom numCtx numParallel

/-- The parallel setting as a request is taken from the queue. -/
def startParallel (model : Model) : Int := if c.mllama model ∧ c.numParallel ≠ 1 then 1 else c.numParallel

/-! ## The scheduler with its parallel setting -/

/-- The scheduler, and the variables of `processPending` that its steps leave out. -/
structure Fitting where
  s : Scheduler
  numParallel : Int := 0
  gpus : List Gpu := []
  availGpus : List Gpu := []
  /-- Not read: the options a request was made with. -/
  given : Nat → RunnerOptions := fun _ => {}
  /-- Not read: the request a runner was loaded for. -/
  origin : Nat → Nat := fun _ => 0

/-- The numbers of the action do not depend on the parallel setting, and the action makes no request and no runner. -/
def Action.plain : Action → Bool
  | .getRunner .. | .takePending | .store | .serverError _ | .load .. | .updateFreeSpace _ | .delay _ | .makeRoom
      _ => false
  | _ => true

/-- The runner that is stored is one of the request. -/
def Fitting.stored (f : Fitting) (s' : Scheduler) (q : Nat) : Fitting :=
  { f with s := s', origin := fun r => if r = f.s.nextRunner then q else f.origin r }

/-- A step of the scheduler with the numbers that the code comes to. The GPUs are never none: there is a CPU. -/
inductive FitStep (f : Fitting) : Action → Fitting → Prop where
  | plain {a : Action} {s' : Scheduler} : a.plain → Step f.s a s' → FitStep f a { f with s := s' }
  | getRunner {model : Model} {opts : RunnerOptions} {sessionDuration : Option Int} {s' : Scheduler} :
      opts.numCtx < 2 ^ 63 → Step f.s (.getRunner model opts sessionDuration) s' →
      FitStep f (.getRunner model opts sessionDuration)
        { f with
          s := s'
          given := fun q => if q = f.s.nextRequest then (f.s.newRequest model opts sessionDuration).opts
            else f.given q }
  | takePending {q : Nat} {s' : Scheduler} : f.s.pendingReqCh.head? = some q → Step f.s .takePending s' →
      FitStep f .takePending { f with s := s', numParallel := startParallel c (f.s.requests q).model }
  | place {q loadedCount : Nat} {a : Action} {s' : Scheduler} (o : Outside) (gpus availGpus : List Gpu) :
      f.s.pending = .placing q loadedCount → gpus ≠ [] → (availGpus.map Gpu.id).Sublist (gpus.map Gpu.id) →
      (place c o gpus loadedCount (f.s.requests q).origNumCtx (f.s.requests q).opts.numCtx f.numParallel).Follows
        a → Step f.s a s' →
      FitStep f a
        { f with
          s := s', gpus, availGpus
          numParallel :=
            (place c o gpus loadedCount (f.s.requests q).origNumCtx
              (f.s.requests q).opts.numCtx f.numParallel).numParallel }
  | fit {q : Nat} {a : Action} {s' : Scheduler} (predict : Predict) : f.s.pending = .fitting q →
      (fit c predict f.gpus f.availGpus (f.s.requests q).origNumCtx
      (f.s.requests q).opts.numCtx f.numParallel).Follows a → Step f.s a s' →
      FitStep f a
        { f with
          s := s'
          numParallel :=
            (fit c predict f.gpus f.availGpus (f.s.requests q).origNumCtx
              (f.s.requests q).opts.numCtx f.numParallel).numParallel }
  | store {q : Nat} {x : RunnerRef} {s' : Scheduler} : f.s.pending = .loading q x → Step f.s .store s' →
      FitStep f .store (f.stored s' q)

/-- The runs from the start of the scheduler in which every action meets a condition on the state it is taken in. -/
def fitting (ok : Fitting → Action → Prop) : System Fitting where
  init f := ∃ maxQueue, f = { s := { maxQueue } }
  step f f' := ∃ a, ok f a ∧ FitStep c f a f'

/-- The runs with any steps. -/
def anyFit (_ : Fitting) (_ : Action) : Prop := True

/-- The action calls `loadFn` for the request. -/
def CallsLoadFn (s : Scheduler) (a : Action) (q : Nat) : Prop :=
  ((∃ n, s.pending = .placing q n) ∨ s.pending = .fitting q) ∧
    ((∃ numCtx numParallel keepAlive, a = .load numCtx numParallel keepAlive) ∨ ∃ numCtx, a = .serverError numCtx)

/-! ## Requests that are alike -/

/-- The options of a request match those of another one: they are the same, but for the layers on GPUs if it leaves
these open. -/
def RunnerOptions.Matches (new existing : RunnerOptions) : Prop :=
  if new.numGPU < 0 then { new with numGPU := 0 } = { existing with numGPU := 0 } else new = existing

/-- The requests were made with the same adapters, projectors and options. -/
structure Fitting.Alike (f : Fitting) (q q' : Nat) : Prop where
  adapters : (f.s.requests q).model.adapterPaths = (f.s.requests q').model.adapterPaths
  projectors : (f.s.requests q).model.projectorPaths = (f.s.requests q').model.projectorPaths
  options : (f.given q).Matches (f.given q')

/-- A request is delayed with the context it was made with: 1 is the only setting that fits are tried with, or the
last one, and there are GPUs to try; or there are none, and no pass wrote another context. And a model is not loaded
with a context that is too large for an `int`. -/
structure contextKept (f : Fitting) (a : Action) : Prop where
  delay : ∀ numCtx, a = .delay numCtx → ∀ q, f.s.pending = .fitting q →
    (f.availGpus ≠ [] ∧ f.numParallel ≤ 1) ∨
    (f.availGpus = [] ∧ (f.s.requests q).opts.numCtx = (f.s.requests q).origNumCtx)
  load : ∀ numCtx numParallel keepAlive, a = .load numCtx numParallel keepAlive →
    ∀ q, ((∃ n, f.s.pending = .placing q n) ∨ f.s.pending = .fitting q) →
    (f.s.requests q).origNumCtx * numParallel < 2 ^ 63

end Ollama.Sched
