import Ollama.Ggml.Theorems.Totality
import Ollama.Llm.GraphSize

/-!
# Estimates of untrusted models

`EstimateGPULayers` and `projectorMemoryRequirements` of `llm/memory.go`, with what they read of the files, for models
of any keys and tensors. Sizes are numbers of 64 bits that wrap around, and there is no outcome where they panic: that
of `Ollama.Llm.estimateGPULayers` is the same plan, of sizes that are given and do not reach `2 ^ 64`.
-/

namespace Ollama.Llm.Estimate

open Lib Ollama.Ggml

/-- `discover.GpuInfo`. -/
structure GpuInfo where
  library : Library
  freeMemory : UInt64
  minimumMemory : UInt64

/-- What is set for the process. -/
structure Env where
  overhead : UInt64
  /-- it is asked for, and the GPUs support it -/
  flashAttention : Bool
  /-- in lower case -/
  kvCacheType : Bytes
  /-- the bytes of a number of elements in a cache of a type -/
  kvCacheBytes : Bytes → UInt64 → UInt64

instance Err.decidablePanics : DecidablePred Err.Panics
  | .wrapped _ err => Err.decidablePanics err
  | .panic => .isTrue trivial
  | .eof | .unexpectedEOF | .invalidFileMagic | .invalidType _ | .invalidArrayType _ | .negativePosition => .isFalse id

/-! ## Projectors -/

/-- The size of all layers. -/
def modelWeights (f : Gguf) : UInt64 := ((groupLayers f.tensors).map (fun l => l.2.wrappedSize)).sum

/-- `projectorMemoryRequirements`, of a file that may not be there: the weights and the graph. -/
def projectorMemoryRequirements : Option Bytes → Option (UInt64 × UInt64)
  | none => some (0, 0)
  | some file =>
    match decode 0 file with
    | .error err => if err.Panics then none else some (0, 0)
    | .ok (f, _) => do
      let graphSize ← visionGraphOf f (← architecture f.kv)
      some (modelWeights f, graphSize)

/-- The weights and the graphs of all projectors. -/
def projectorSums : List (Option Bytes) → Option (UInt64 × UInt64)
  | [] => some (0, 0)
  | projector :: projectors => do
    let (weight, graph) ← projectorMemoryRequirements projector
    let (projectorWeights, projectorGraph) ← projectorSums projectors
    some (weight + projectorWeights, graph + projectorGraph)

/-! ## Sizes -/

/-- What the placement works with. -/
structure Sizes where
  overhead : UInt64
  graphPartialOffload : UInt64
  graphFullOffload : UInt64
  gpuZeroOverhead : UInt64
  memoryLayerOutput : UInt64
  layerSize : UInt64
  /-- the sizes of the blocks that the model has, with their share of the cache -/
  blocks : List (Option UInt64)

/-- The greater of the two graphs. -/
def Sizes.graph (z : Sizes) : UInt64 := max z.graphPartialOffload z.graphFullOffload

/-- The type of the cache. -/
def kvct (env : Env) (kv : List (Bytes × Value)) : Option Bytes :=
  if env.flashAttention then do
    let supported ← supportsFlashAttention kv
    some (if supported ∧ env.kvCacheType ≠ [] ∧ supportsKVCacheType env.kvCacheType then env.kvCacheType else [])
  else some []

/-- The context: at least 2048 for models that have projectors. -/
def contextOf (projectors : List (Option Bytes)) (opts : Options) : Int :=
  if projectors = [] then opts.numCtx else max opts.numCtx 2048

/-- The context, and the batch. -/
def graphSizeOf (env : Env) (f : Gguf) (projectors : List (Option Bytes)) (opts : Options) :
    Option (UInt64 × UInt64 × UInt64) := do
  let kvct ← kvct env f.kv
  let numCtx := contextOf projectors opts
  graphSize (env.kvCacheBytes kvct) f (UInt64.ofInt numCtx) (UInt64.ofInt (min numCtx opts.numBatch))

/-- The weights and the graphs of the projectors, or those of the vision part of the model if they have neither. -/
def projectorsOrVision (f : Gguf) (projectors : List (Option Bytes)) : Option (UInt64 × UInt64) := do
  let (projectorWeights, projectorGraph) ← projectorSums projectors
  if projectorWeights = 0 ∧ projectorGraph = 0 then visionGraphSize f else some (projectorWeights, projectorGraph)

/-- The graph of a partial offload, which is made of the heads if the model's formula comes to 0. -/
def partialOffloadOf (f : Gguf) (kv graphPartialOffload : UInt64) : Option UInt64 :=
  if graphPartialOffload = 0 then (gqa f.kv).map (fun gqa => gqa * kv / 6) else some graphPartialOffload

/-- The sizes, before anything is placed. `library` is that of the first GPU. -/
def sizes (env : Env) (gpus : List GpuInfo) (library : Library) (f : Gguf) (projectors : List (Option Bytes))
    (opts : Options) :
    Option Sizes := do
  let (projectorWeights, projectorGraph) ← projectorsOrVision f projectors
  let layers := groupLayers f.tensors
  let (kv, graphPartialOffload, graphFullOffload) ← graphSizeOf env f projectors opts
  let blockCount ← blockCount f.kv
  let share ← divide kv blockCount
  let graphPartialOffload ← partialOffloadOf f kv graphPartialOffload
  let graphFullOffload := if graphFullOffload = 0 then graphPartialOffload else graphFullOffload
  some {
    overhead := env.overhead
    graphPartialOffload := if library = .metal then graphFullOffload else graphPartialOffload
    graphFullOffload :=
      if library = .metal then graphFullOffload else if gpus.length > 1 then graphPartialOffload else graphFullOffload
    gpuZeroOverhead := projectorWeights + projectorGraph
    memoryLayerOutput :=
      layerSizeOf layers (ascii "output_norm") +
        layerSizeOf layers (if (layers.lookup (ascii "output")).isSome then ascii "output" else ascii "token_embd")
    layerSize := layerSizeOf layers (ascii "blk.0") + share
    blocks := (List.range blockCount.toNat).map (fun i =>
      (layers.lookup (ascii ("blk." ++ toString i))).map (fun blk => blk.wrappedSize + share)) }

/-! ## Placement -/

/-- Where the placement stands. -/
structure Placement where
  layerCount : Nat
  layerCounts : List Nat
  gpuAllocations : List UInt64
  /-- the GPUs that have space, by their index -/
  gpusWithSpace : List Nat
  layerSize : UInt64

/-- An element of a list changes. -/
def update {α : Type} (l : List α) (i : Nat) (f : α → α) : Option (List α) :=
  if i < l.length then some (l.modify i f) else none

/-- A GPU is charged. -/
def Placement.charge (p : Placement) (g : Nat) (size : UInt64) : Option Placement :=
  (update p.gpuAllocations g (· + size)).map (fun gpuAllocations => { p with gpuAllocations })

/-- A GPU gets a layer. -/
def Placement.add (p : Placement) (g : Nat) (size : UInt64) : Option Placement := do
  let p ← p.charge g size
  let layerCounts ← update p.layerCounts g (· + 1)
  some { p with layerCounts, layerCount := p.layerCount + 1 }

variable (gpus : List GpuInfo) (z : Sizes)

/-- A GPU is looked at: it has space if it can fit the graph, its minimum, the layer buffer and at least one more
layer, and, as the first that has space, the projectors. -/
def Placement.select (p : Placement) (gpu : GpuInfo) (i : Nat) : Option Placement :=
  let gzo := if p.gpusWithSpace = [] then z.gpuZeroOverhead else 0
  if gpu.freeMemory < z.overhead + gzo + z.graph + gpu.minimumMemory + 2 * z.layerSize then some p
  else { p with gpusWithSpace := p.gpusWithSpace ++ [i] }.charge i (gpu.minimumMemory + z.layerSize)

/-- The GPUs with space, before a layer is placed. -/
def selectGpus : Option Placement := do
  let start : Placement := ⟨0, List.replicate gpus.length 0, List.replicate gpus.length 0, [], z.layerSize⟩
  let p ← gpus.zipIdx.foldlM (fun p e => p.select z e.1 e.2) start
  match p.gpusWithSpace with
  | [] => some p
  | gpuZeroID :: _ => p.charge gpuZeroID z.gpuZeroOverhead

/-- A layer of a size fits on a GPU. -/
def Placement.fits (p : Placement) (g : Nat) (size : UInt64) : Option Bool := do
  let gpu ← gpus[g]?
  let allocation ← p.gpuAllocations[g]?
  some (gpu.freeMemory > z.overhead + (allocation + z.graph) + size)

/-- The loop over the GPUs with space, for a block: those on which it does not fit are left out. -/
def placeBlock (i : Nat) : (j : Nat) → Placement → Option Placement
  | 0, p => some p
  | j + 1, p => do
    let g ← p.gpusWithSpace[i % (j + 1)]?
    if ← p.fits gpus z g p.layerSize then p.add g p.layerSize
    else placeBlock i j { p with gpusWithSpace := p.gpusWithSpace.eraseIdx (i % (j + 1)) }

/-- The loop over the blocks. A block that the model does not have is as large as the one before. -/
def placeBlocks (numGPU : Int) : (i : Nat) → List (Option UInt64) → Placement → Option Placement
  | _, [], p => some p
  | i, block :: blocks, p => do
    let p := { p with layerSize := block.getD p.layerSize }
    if numGPU ≥ 0 ∧ (p.layerCount : Int) ≥ numGPU then placeBlocks numGPU (i + 1) blocks p
    else
      let p ← placeBlock gpus z i p.gpusWithSpace.length p
      placeBlocks numGPU (i + 1) blocks p

/-- The loop over the GPUs with space, for the output. -/
def placeOutput : (j : Nat) → Placement → Option Placement
  | 0, p => some p
  | j + 1, p => do
    let g ← p.gpusWithSpace[p.layerCount % (j + 1)]?
    if ← p.fits gpus z g z.memoryLayerOutput then p.add g z.memoryLayerOutput else placeOutput j p

/-- The placement as a whole, with whether everything is loaded and what did not fit. -/
structure Placed where
  placement : Placement
  fullyLoaded : Bool
  overflow : UInt64

/-- The placement of the blocks and of the output. -/
def placeLayers (numGPU : Int) : Option Placed := do
  let p ← selectGpus gpus z
  let p ← placeBlocks gpus z numGPU 0 z.blocks p
  let fullyLoaded : Bool := p.layerCount ≥ z.blocks.length
  let overflow := UInt64.ofNat (z.blocks.length - p.layerCount) * p.layerSize
  if z.memoryLayerOutput > 0 ∧ (numGPU < 0 ∨ (p.layerCount : Int) < numGPU) then
    let p ← placeOutput gpus z p.gpusWithSpace.length p
    if p.layerCount < z.blocks.length + 1 then some ⟨p, false, overflow + z.memoryLayerOutput⟩
      else some ⟨p, fullyLoaded, overflow⟩
  else some ⟨p, fullyLoaded, overflow⟩

/-! ## Summary -/

/-- `MemoryEstimate`, without what is only logged. -/
structure MemoryEstimate where
  layers : Nat := 0
  graph : UInt64 := 0
  vramSize : UInt64 := 0
  totalSize : UInt64
  tensorSplit : String := ""
  gpuSizes : List UInt64 := []

/-- The graph that is charged in the end. -/
def Placed.graphOffload (q : Placed) : UInt64 := if q.fullyLoaded then z.graphFullOffload else z.graphPartialOffload

/-- What a GPU is given, with the graph if it has a layer. -/
def Placed.gpuAllocation (q : Placed) (i : Nat) : Option UInt64 := do
  let count ← q.placement.layerCounts[i]?
  let allocation ← q.placement.gpuAllocations[i]?
  some (if count ≤ 0 then allocation else allocation + q.graphOffload z)

/-- The estimate that comes of a placement. -/
def Placed.estimate (library : Library) (q : Placed) : Option MemoryEstimate := do
  let gpuAllocations ← (List.range gpus.length).mapM (q.gpuAllocation z)
  let memoryRequiredPartial := gpuAllocations.sum
  let memoryRequiredTotal := memoryRequiredPartial + q.overflow
  if library = .cpu then some { totalSize := memoryRequiredTotal }
  else if q.placement.layerCount = 0 then some { totalSize := memoryRequiredTotal }
  else
    some {
      layers := q.placement.layerCount
      graph := q.graphOffload z
      vramSize := memoryRequiredPartial
      totalSize := memoryRequiredTotal
      tensorSplit := if gpus.length > 1 then ",".intercalate (q.placement.layerCounts.map toString) else ""
      gpuSizes := gpuAllocations }

/-- `EstimateGPULayers`. It looks at the library of the first GPU. -/
def estimateGPULayers (env : Env) (f : Gguf) (projectors : List (Option Bytes)) (opts : Options) :
    Option MemoryEstimate := do
  let gpu ← gpus.head?
  let z ← sizes env gpus gpu.library f projectors opts
  let q ← placeLayers gpus z opts.numGPU
  q.estimate gpus z gpu.library

end Ollama.Llm.Estimate
