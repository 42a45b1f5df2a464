import Ollama.Ggml.Tensor
import Ollama.Lib.Assoc
import Ollama.Lib.Strings

/-!
# Planning GPU memory

`EstimateGPULayers` of `llm/memory.go`: how many layers of a model fit on the GPUs, and on which. The blocks are dealt
to the GPUs that have space, in turn; a GPU on which a block does not fit is left out from then on. Sizes are natural
numbers: the sums do not reach `2 ^ 64`.

What `GraphSize`, `VisionGraphSize` and `projectorMemoryRequirements` return is given. An index out of range stops the
program, so the placement may return nothing; `placed` keeps record of which block was put on which GPU.
-/

namespace Ollama.Llm

open Lib Utf8 Ggml

/-! ## Layers -/

/-- `Layer`: the tensors of a layer by the rest of their name. -/
abbrev Layer := List (Bytes × Tensor)

/-- `Layer.Size`. -/
def Layer.size (l : Layer) : Nat := (l.map (fun e => e.2.size.toNat)).sum

/-- The parts of the name of a tensor, where `blk` and `mm` are one part with the number after them. -/
def layerParts (name : Bytes) : List Bytes :=
  let parts := name.splitOn 0x2e
  match parts.findIdx? (fun s => s = ascii "blk" ∨ s = ascii "mm") with
  | none => parts
  | some index =>
    if parts.length > index + 2 then [0x2e].intercalate (parts.take (index + 2)) :: parts.drop (index + 2) else parts

/-- `GroupLayers`. -/
def groupLayers (tensors : List Tensor) : List (Bytes × Layer) :=
  tensors.foldl (fun layers t =>
    let parts := layerParts t.name
    let key := parts.headD []
    Assoc.set layers key (Assoc.set ((layers.lookup key).getD []) ([0x2e].intercalate (parts.drop 1)) t)) []

/-! ## What is given -/

/-- The libraries of GPUs. -/
inductive Library where
  | cpu | cuda | rocm | oneapi | metal
  deriving DecidableEq

/-- `discover.GpuInfo`. -/
structure GpuInfo where
  library : Library
  freeMemory : Nat
  minimumMemory : Nat

/-- What is read of a model. -/
structure Ggml where
  tensors : List Tensor
  blockCount : Nat
  gqa : Nat
  /-- `GraphSize` of the context and the batch: the cache, and the graph of a partial and of a full offload -/
  graphSize : Int → Int → Nat × Nat × Nat
  visionGraphSize : Nat × Nat

/-- What is read of `api.Options`. -/
structure Options where
  numCtx : Int
  numBatch : Int
  numGPU : Int

/-! ## Sizes -/

/-- What the placement works with. -/
structure Sizes where
  overhead : Nat
  graphPartialOffload : Nat
  graphFullOffload : Nat
  gpuZeroOverhead : Nat
  memoryLayerOutput : Nat
  /-- the size of the first block and its share of the cache -/
  layerSize : Nat
  /-- the sizes of the blocks that the model has, with their share of the cache -/
  blocks : List (Option Nat)

/-- The greater of the two graphs. -/
def Sizes.graph (z : Sizes) : Nat := max z.graphPartialOffload z.graphFullOffload

/-- The sizes, before anything is placed. `library` is that of the first GPU, and `projectors` are the weights and the
graphs of the projectors. -/
def sizes (gpus : List GpuInfo) (library : Library) (f : Ggml) (projectors : List (Nat × Nat)) (opts : Options)
    (overhead : Nat) : Sizes :=
  let projectorWeights := (projectors.map Prod.fst).sum
  let projectorGraph := (projectors.map Prod.snd).sum
  let numCtx := if projectors = [] then opts.numCtx else max opts.numCtx 2048
  let (projectorWeights, projectorGraph) :=
    if projectorWeights = 0 ∧ projectorGraph = 0 then f.visionGraphSize else (projectorWeights, projectorGraph)
  let layers := groupLayers f.tensors
  let (kv, graphPartialOffload, graphFullOffload) := f.graphSize numCtx (min numCtx opts.numBatch)
  let graphPartialOffload := if graphPartialOffload = 0 then f.gqa * kv / 6 else graphPartialOffload
  let graphFullOffload := if graphFullOffload = 0 then graphPartialOffload else graphFullOffload
  { overhead
    graphPartialOffload := if library = .metal then graphFullOffload else graphPartialOffload
    graphFullOffload :=
      if library = .metal then graphFullOffload else if gpus.length > 1 then graphPartialOffload else graphFullOffload
    gpuZeroOverhead := projectorWeights + projectorGraph
    memoryLayerOutput :=
      (match layers.lookup (ascii "output_norm") with | some layer => layer.size | none => 0) +
        (match layers.lookup (ascii "output"), layers.lookup (ascii "token_embd") with
          | some layer, _ => layer.size
          | none, some layer => layer.size
          | none, none => 0)
    layerSize := (match layers.lookup (ascii "blk.0") with | some layer => layer.size | none => 0) + kv / f.blockCount
    blocks := (List.range f.blockCount).map (fun i =>
      (layers.lookup (ascii ("blk." ++ toString i))).map (fun blk => blk.size + kv / f.blockCount)) }

/-! ## Placement -/

/-- Where the placement stands. -/
structure Placement where
  layerCount : Nat
  layerCounts : List Nat
  gpuAllocations : List Nat
  /-- the GPUs that have space, by their index -/
  gpusWithSpace : List Nat
  layerSize : Nat
  memoryWeights : Nat
  /-- the blocks that are placed, with the GPU -/
  placed : List (Nat × Nat)

/-- A GPU gets a layer. -/
def Placement.add (p : Placement) (g size : Nat) : Placement :=
  { p with
    gpuAllocations := p.gpuAllocations.modify g (· + size)
    layerCounts := p.layerCounts.modify g (· + 1)
    layerCount := p.layerCount + 1 }

variable (gpus : List GpuInfo) (z : Sizes)

/-- A GPU is looked at: it has space if it can fit the graph, its minimum, the layer buffer and at least one more
layer, and, as the first that has space, the projectors. -/
def Placement.select (p : Placement) (gpu : GpuInfo) (i : Nat) : Placement :=
  let gzo := if p.gpusWithSpace = [] then z.gpuZeroOverhead else 0
  if gpu.freeMemory < z.overhead + gzo + z.graph + gpu.minimumMemory + 2 * z.layerSize then p
  else
    { p with
      gpusWithSpace := p.gpusWithSpace ++ [i]
      gpuAllocations := p.gpuAllocations.modify i (· + (gpu.minimumMemory + z.layerSize)) }

/-- The GPUs with space, before a layer is placed. -/
def selectGpus : Placement :=
  let start : Placement := ⟨0, List.replicate gpus.length 0, List.replicate gpus.length 0, [], z.layerSize, 0, []⟩
  let p := gpus.zipIdx.foldl (fun p e => p.select z e.1 e.2) start
  match p.gpusWithSpace with
  | [] => p
  | gpuZeroID :: _ => { p with gpuAllocations := p.gpuAllocations.modify gpuZeroID (· + z.gpuZeroOverhead) }

/-- A layer of a size fits on a GPU. -/
def Placement.fits (p : Placement) (g size : Nat) : Option Bool := do
  let gpu ← gpus[g]?
  let allocation ← p.gpuAllocations[g]?
  pure (gpu.freeMemory > z.overhead + (allocation + z.graph) + size)

/-- The loop over the GPUs with space, for a block: those on which it does not fit are left out. -/
def placeBlock (i : Nat) : (j : Nat) → Placement → Option Placement
  | 0, p => some p
  | j + 1, p => do
    let g ← p.gpusWithSpace[i % (j + 1)]?
    if ← p.fits gpus z g p.layerSize then
      pure { p.add g p.layerSize with placed := p.placed ++ [(i, g)] }
    else placeBlock i j { p with gpusWithSpace := p.gpusWithSpace.eraseIdx (i % (j + 1)) }

/-- The loop over the blocks. A block that the model does not have is as large as the one before. -/
def placeBlocks (numGPU : Int) : (i : Nat) → List (Option Nat) → Placement → Option Placement
  | _, [], p => some p
  | i, block :: blocks, p => do
    let layerSize := block.getD p.layerSize
    let p := { p with layerSize, memoryWeights := p.memoryWeights + layerSize }
    if numGPU ≥ 0 ∧ (p.layerCount : Int) ≥ numGPU then placeBlocks numGPU (i + 1) blocks p
    else
      let p ← placeBlock gpus z i p.gpusWithSpace.length p
      placeBlocks numGPU (i + 1) blocks p

/-- The loop over the GPUs with space, for the output. -/
def placeOutput : (j : Nat) → Placement → Option Placement
  | 0, p => some p
  | j + 1, p => do
    let g ← p.gpusWithSpace[p.layerCount % (j + 1)]?
    if ← p.fits gpus z g z.memoryLayerOutput then pure (p.add g z.memoryLayerOutput) else placeOutput j p

/-- The placement as a whole, with whether everything is loaded and what did not fit. -/
structure Placed where
  placement : Placement
  fullyLoaded : Bool
  overflow : Nat

/-- The placement of the blocks and of the output. -/
def placeLayers (numGPU : Int) : Option Placed := do
  let p ← placeBlocks gpus z numGPU 0 z.blocks (selectGpus gpus z)
  let fullyLoaded : Bool := p.layerCount ≥ z.blocks.length
  let overflow := (z.blocks.length - p.layerCount) * p.layerSize
  if z.memoryLayerOutput > 0 ∧ (numGPU < 0 ∨ (p.layerCount : Int) < numGPU) then
    let p ← placeOutput gpus z p.gpusWithSpace.length p
    if p.layerCount < z.blocks.length + 1 then pure ⟨p, false, overflow + z.memoryLayerOutput⟩
      else pure ⟨p, fullyLoaded, overflow⟩
  else pure ⟨p, fullyLoaded, overflow⟩

/-! ## Summary -/

/-- `MemoryEstimate`, without what is only logged. -/
structure MemoryEstimate where
  layers : Nat := 0
  graph : Nat := 0
  vramSize : Nat := 0
  totalSize : Nat
  tensorSplit : String := ""
  gpuSizes : List Nat := []

/-- The graph that is charged in the end. -/
def Placed.graphOffload (q : Placed) : Nat := if q.fullyLoaded then z.graphFullOffload else z.graphPartialOffload

/-- What each GPU is given, with the graph. -/
def Placed.gpuAllocations (q : Placed) : List Nat :=
  q.placement.gpuAllocations.zipWith (fun allocation count =>
    if count ≤ 0 then allocation else allocation + q.graphOffload z)
    q.placement.layerCounts

/-- The estimate that comes of a placement. -/
def Placed.estimate (library : Library) (q : Placed) : MemoryEstimate :=
  let memoryRequiredPartial := (q.gpuAllocations z).sum
  let memoryRequiredTotal := memoryRequiredPartial + q.overflow
  if library = .cpu then { totalSize := memoryRequiredTotal }
  else if q.placement.layerCount = 0 then { totalSize := memoryRequiredTotal }
  else
    { layers := q.placement.layerCount
      graph := q.graphOffload z
      vramSize := memoryRequiredPartial
      totalSize := memoryRequiredTotal
      tensorSplit := if gpus.length > 1 then ",".intercalate (q.placement.layerCounts.map toString) else ""
      gpuSizes := q.gpuAllocations z }

/-- `EstimateGPULayers`. It looks at the library of the first GPU, and divides by the number of blocks. -/
def estimateGPULayers (f : Ggml) (projectors : List (Nat × Nat)) (opts : Options) (overhead : Nat) :
    Option MemoryEstimate := do
  let gpu ← gpus.head?
  if f.blockCount = 0 then none
  else
    let z := sizes gpus gpu.library f projectors opts overhead
    let q ← placeLayers gpus z opts.numGPU
    pure (q.estimate gpus z gpu.library)

end Ollama.Llm
