import Ollama.Llm.Theorems.Memory

/-!
# The output and the total

For the output, the loop comes to the GPUs at the number of blocks modulo the numbers up to that of the GPUs with
space, and takes none of them away: it may come to the same GPU over and over, and never to one that has room
(`output_placed_iff`).

A block that is not placed adds the size of the last block to the total, and not its own, so the total is right
exactly if the blocks that are left out are together as large as that many of the last one (`totalSize_eq_iff`). That
is so where the blocks from some block on are as large as the last, and those before find room on one GPU; and for all
GPUs only where all blocks are of one size (`totalSize_right`).
-/

namespace Ollama.Llm

open Lib Utf8 MemoryAux

/-! ## The output -/

/-- A GPU has room for a layer of a size, with its overhead and the greater graph. -/
def HasRoom (gpus : List GpuInfo) (z : Sizes) (p : Placement) (g size : Nat) : Prop :=
  ∃ gpu allocation, gpus[g]? = some gpu ∧ p.gpuAllocations[g]? = some allocation ∧
    gpu.freeMemory > z.overhead + allocation + max z.graphPartialOffload z.graphFullOffload + size

/-- The output is considered: there is one, and one more layer is allowed. -/
def OutputConsidered (z : Sizes) (numGPU : Int) (p : Placement) : Prop :=
  0 < z.memoryLayerOutput ∧ (numGPU < 0 ∨ (p.layerCount : Int) < numGPU)

/-- The output is on a GPU with space, so there is one layer more, and it is not in the overflow. -/
def OutputPlaced (gpus : List GpuInfo) (z : Sizes) (numGPU : Int) (p : Placement) : Prop :=
  ∃ q g, placeLayers gpus z numGPU = some q ∧ g ∈ p.gpusWithSpace ∧ q.placement = p.add g z.memoryLayerOutput ∧
    q.placement.layerCount = p.layerCount + 1 ∧ q.overflow = (z.blocks.length - p.layerCount) * p.layerSize

namespace TotalsAux

variable {gpus : List GpuInfo} {z : Sizes} {numGPU : Int} {p : Placement}

theorem hasRoom_iff {g size : Nat} : HasRoom gpus z p g size ↔ p.fits gpus z g size = some true := by
  rw [HasRoom, Placement.fits]
  cases hgpu : gpus[g]? with
  | none => simp
  | some gpu =>
    cases hallocation : p.gpuAllocations[g]? with
    | none => simp
    | some allocation => simp [Sizes.graph, Nat.add_assoc]

/-- The state that the loop over the blocks leaves. -/
theorem blocks_after (hp : placeBlocks gpus z numGPU 0 z.blocks (selectGpus gpus z) = some p) :
    Blocks gpus z numGPU z.blocks.length p := by
  obtain ⟨p', hp', h⟩ := (blocks_selectGpus : Blocks gpus z numGPU 0 (selectGpus gpus z)).blocks z.blocks
  obtain rfl := Option.some.inj (hp.symm.trans hp')
  rwa [Nat.zero_add] at h

/-- As long as a GPU has space and more layers are allowed, every block is placed. -/
theorem layerCount_eq (h : Blocks gpus z numGPU z.blocks.length p) {g : Nat} (hg : g ∈ p.gpusWithSpace)
    (hallow : numGPU < 0 ∨ (p.layerCount : Int) < numGPU) : p.layerCount = z.blocks.length := by
  rcases h.stop with hall | hnone | hlimit
  · exact hall
  · rw [hnone] at hg
    nomatch hg
  · omega

/-- What the loop over the GPUs for the output comes to. -/
theorem placeLayers_cases (hp : placeBlocks gpus z numGPU 0 z.blocks (selectGpus gpus z) = some p) :
    ∃ q, placeLayers gpus z numGPU = some q ∧
      ((¬OutputConsidered z numGPU p ∧ q.placement = p ∧ q.overflow = (z.blocks.length - p.layerCount) * p.layerSize) ∨
      (OutputConsidered z numGPU p ∧ q.placement = p ∧
        q.overflow = (z.blocks.length - p.layerCount) * p.layerSize + z.memoryLayerOutput ∧
        ∀ k < p.gpusWithSpace.length, ∀ g, p.gpusWithSpace[p.layerCount % (k + 1)]? = some g →
          ¬HasRoom gpus z p g z.memoryLayerOutput) ∨
      (OutputConsidered z numGPU p ∧ ∃ k < p.gpusWithSpace.length, ∃ g,
        p.gpusWithSpace[p.layerCount % (k + 1)]? = some g ∧
        HasRoom gpus z p g z.memoryLayerOutput ∧ q.placement = p.add g z.memoryLayerOutput ∧
        q.overflow = (z.blocks.length - p.layerCount) * p.layerSize)) := by
  have h := blocks_after hp
  have hle := h.le
  unfold placeLayers
  rw [hp, Option.bind_eq_bind, Option.bind_some]
  dsimp only
  split
  · rename_i hout
    rcases placeOutput_cases h.toWithin (le_refl p.gpusWithSpace.length) with ⟨hsame, hnone⟩ |
      ⟨k, hk, g, hat, hfits, hadd⟩
    · rw [hsame, Option.bind_some, if_pos (by omega)]
      exact ⟨_, rfl, .inr (.inl ⟨hout, rfl, rfl, fun k hk g hat hroom => hnone k hk g hat (hasRoom_iff.1 hroom)⟩)⟩
    · -- A GPU has space, so that every block is placed, and the output is the last layer.
      have hall := layerCount_eq h (List.mem_of_getElem? hat) hout.2
      have hlast : ¬(p.add g z.memoryLayerOutput).layerCount < z.blocks.length + 1 := by
        change ¬p.layerCount + 1 < z.blocks.length + 1
        omega
      rw [hadd, Option.bind_some, if_neg hlast]
      exact ⟨_, rfl, .inr (.inr ⟨hout, k, hk, g, hat, hasRoom_iff.2 hfits, rfl, rfl⟩)⟩
  · rename_i hout
    exact ⟨_, rfl, .inl ⟨hout, rfl, rfl⟩⟩

end TotalsAux

open TotalsAux in
/-- **The output is placed whenever a GPU with space has room for it, exactly if there is room on one at the number of
blocks modulo one of the numbers up to that of the GPUs with space.** -/
theorem output_placed_iff {gpus : List GpuInfo} {z : Sizes} {numGPU : Int} {p : Placement}
    (hp : placeBlocks gpus z numGPU 0 z.blocks (selectGpus gpus z) = some p) (hout : OutputConsidered z numGPU p) :
    ((∃ g ∈ p.gpusWithSpace, HasRoom gpus z p g z.memoryLayerOutput) → OutputPlaced gpus z numGPU p) ↔
      ((∃ g ∈ p.gpusWithSpace, HasRoom gpus z p g z.memoryLayerOutput) →
        ∃ j, 1 ≤ j ∧ j ≤ p.gpusWithSpace.length ∧ ∃ g, p.gpusWithSpace[z.blocks.length % j]? = some g ∧
          HasRoom gpus z p g z.memoryLayerOutput) := by
  refine forall_congr' fun hroom => ?_
  obtain ⟨g₀, hg₀, -⟩ := hroom
  have hall := layerCount_eq (blocks_after hp) hg₀ hout.2
  obtain ⟨q, hq, ⟨hnot, -, -⟩ | ⟨-, hsame, -, hnone⟩ | ⟨-, k, hk, g, hat, hroom, hadd, hoverflow⟩⟩ :=
    placeLayers_cases hp
  · exact absurd hout hnot
  · refine iff_of_false ?_ ?_
    · rintro ⟨q', g, hq', -, -, hcount, -⟩
      obtain rfl := Option.some.inj (hq.symm.trans hq')
      rw [hsame] at hcount
      omega
    · rintro ⟨j, hj, hle, g, hat, hroom⟩
      obtain ⟨k, rfl⟩ := Nat.exists_eq_add_of_le' hj
      rw [← hall] at hat
      exact hnone k hle g hat hroom
  · refine iff_of_true ?_ ?_
    · refine ⟨q, g, hq, List.mem_of_getElem? hat, hadd, ?_, hoverflow⟩
      rw [hadd, Placement.add]
    · rw [hall] at hat
      exact ⟨k + 1, Nat.le_add_left 1 k, hk, g, hat, hroom⟩

/-- The sizes of a model of two blocks and an output. -/
def twoBlockSizes : Sizes := ⟨0, 1, 1, 0, 4, 5, [some 5, some 5]⟩

example : sizes [⟨.cuda, 12, 0⟩, ⟨.cuda, 30, 0⟩] .cuda twoBlocks [] ⟨2048, 512, -1⟩ 0 = twoBlockSizes := rfl

/-- The placement of the model on two GPUs, the first with the memory `free`. -/
theorem twoBlocks_placed (free : Nat) (hfree : free = 12 ∨ free = 30) :
    ∃ p, placeBlocks [⟨.cuda, free, 0⟩, ⟨.cuda, 30, 0⟩] twoBlockSizes (-1) 0 twoBlockSizes.blocks
        (selectGpus [⟨.cuda, free, 0⟩, ⟨.cuda, 30, 0⟩] twoBlockSizes) = some p ∧
      p.gpusWithSpace = [0, 1] ∧ p.gpuAllocations = [10, 10] ∧ p.layerCount = 2 := by
  rcases hfree with rfl | rfl
  · exact ⟨_, rfl, rfl, rfl, rfl⟩
  · exact ⟨_, rfl, rfl, rfl, rfl⟩

/-- With enough memory on the first GPU, the output is placed on it. -/
theorem output_placed_first : ∃ p, p.layerCount = 2 ∧
    OutputPlaced [⟨.cuda, 30, 0⟩, ⟨.cuda, 30, 0⟩] twoBlockSizes (-1) p := by
  obtain ⟨p, hp, hspaces, hallocations, hcount⟩ := twoBlocks_placed 30 (.inr rfl)
  have hroom : HasRoom [⟨.cuda, 30, 0⟩, ⟨.cuda, 30, 0⟩] twoBlockSizes p 0 4 :=
    ⟨_, 10, rfl, by rw [hallocations]; rfl, by decide⟩
  refine ⟨p, hcount, (output_placed_iff hp ⟨by decide, .inl (by decide)⟩).2
    (fun _ => ⟨1, le_refl 1, ?_, 0, ?_, hroom⟩) ⟨0, ?_, hroom⟩⟩
  · rw [hspaces]
    decide
  · rw [hspaces]
    rfl
  · rw [hspaces]
    decide

/-- The first GPU has no room for the output, and the second, which has, is never looked at: there are two blocks and
two GPUs. -/
theorem output_not_placed : ¬∀ (gpus : List GpuInfo) (z : Sizes) (numGPU : Int) (p : Placement),
    placeBlocks gpus z numGPU 0 z.blocks (selectGpus gpus z) = some p → OutputConsidered z numGPU p →
    (∃ g ∈ p.gpusWithSpace, HasRoom gpus z p g z.memoryLayerOutput) → OutputPlaced gpus z numGPU p := by
  intro h
  obtain ⟨p, hp, hspaces, hallocations, hcount⟩ := twoBlocks_placed 12 (.inl rfl)
  have hroom : HasRoom [⟨.cuda, 12, 0⟩, ⟨.cuda, 30, 0⟩] twoBlockSizes p 1 4 :=
    ⟨_, 10, rfl, by rw [hallocations]; rfl, by decide⟩
  obtain ⟨q, g, hq, -, -, hmore, -⟩ := h _ _ (-1) p hp ⟨by decide, .inl (by decide)⟩ ⟨1, by rw [hspaces]; decide, hroom⟩
  have htwo : (placeLayers [⟨.cuda, 12, 0⟩, ⟨.cuda, 30, 0⟩] twoBlockSizes (-1)).map (·.placement.layerCount) =
      some 2 := rfl
  rw [hq] at htwo
  have hsame : q.placement.layerCount = 2 := Option.some.inj htwo
  omega

/-! ## The total -/

/-- The sizes of the blocks, with their share of the cache. A block that the model does not have counts as the one
before, the first as `layerSize`. -/
def blockSizes : (layerSize : Nat) → List (Option Nat) → List Nat
  | _, [] => []
  | layerSize, block :: blocks => block.getD layerSize :: blockSizes (block.getD layerSize) blocks

/-- The sizes of the blocks that are not placed. -/
def unplacedSizes (z : Sizes) (q : Placed) : List Nat :=
  ((blockSizes z.layerSize z.blocks).zipIdx.filter (fun e => e.2 ∉ q.placement.placed.map Prod.fst)).map Prod.fst

instance (z : Sizes) (numGPU : Int) (p : Placement) : Decidable (OutputConsidered z numGPU p) :=
  inferInstanceAs (Decidable (_ ∧ _))

/-- The size of the output, if it is considered and not placed. -/
def outputLeft (z : Sizes) (numGPU : Int) (p : Placement) (q : Placed) : Nat :=
  if OutputConsidered z numGPU p ∧ q.placement.layerCount = p.layerCount then z.memoryLayerOutput else 0

namespace TotalsAux

variable {gpus : List GpuInfo} {z : Sizes} {numGPU : Int} {p : Placement}

/-- Of a list with its places, those from `k` on. -/
theorem filter_zipIdx (l : List Nat) (i k : Nat) (hik : i ≤ k) :
    ((l.zipIdx i).filter (fun e => e.2 ∉ List.range k)).map Prod.fst = l.drop (k - i) := by
  induction l generalizing i with
  | nil => simp
  | cons x l ih =>
    rw [List.zipIdx_cons]
    rcases Nat.lt_or_eq_of_le hik with hlt | rfl
    · rw [List.filter_cons_of_neg (by simpa using hlt), ih (i + 1) hlt]
      obtain ⟨d, hd⟩ : ∃ d, k - i = d + 1 := ⟨k - i - 1, by omega⟩
      rw [hd, List.drop_succ_cons]
      congr 1
      omega
    · have hall : ∀ e ∈ (x, i) :: l.zipIdx (i + 1), e.2 ∉ List.range i := by
        intro e he
        rcases List.mem_cons.1 he with rfl | he
        · simp
        · have := List.le_snd_of_mem_zipIdx he
          rw [List.mem_range]
          omega
      rw [List.filter_eq_self.2 (by simpa using hall), Nat.sub_self, List.drop_zero, List.map_cons, List.zipIdx_map_fst]

/-- The blocks that are not placed are the last ones. -/
theorem unplacedSizes_eq {q : Placed} (h : Blocks gpus z numGPU z.blocks.length p)
    (hplaced : q.placement.placed = p.placed) :
    unplacedSizes z q = (blockSizes z.layerSize z.blocks).drop p.layerCount := by
  rw [unplacedSizes, hplaced, h.first]
  exact filter_zipIdx _ 0 _ (Nat.zero_le _)

theorem totalSize_eq (library : Library) (q : Placed) :
    (q.estimate gpus z library).totalSize = (q.gpuAllocations z).sum + q.overflow := by
  unfold Placed.estimate
  dsimp only
  split
  · rfl
  · split <;> rfl

end TotalsAux

open TotalsAux in
/-- The total is what the GPUs are given, the blocks that are not placed, and the output if it is considered and not
placed, exactly if the blocks that are not placed are together as large as that many of the last block. -/
theorem totalSize_eq_iff {gpus : List GpuInfo} {f : Ggml} {projectors : List (Nat × Nat)} {opts : Options}
    {overhead : Nat} {e : MemoryEstimate} (he : estimateGPULayers gpus f projectors opts overhead = some e) :
    ∃ gpu z p q, gpus.head? = some gpu ∧ z = sizes gpus gpu.library f projectors opts overhead ∧
      placeBlocks gpus z opts.numGPU 0 z.blocks (selectGpus gpus z) = some p ∧ placeLayers gpus z opts.numGPU = some q ∧
      e = q.estimate gpus z gpu.library ∧
      (e.totalSize = (q.gpuAllocations z).sum + (unplacedSizes z q).sum + outputLeft z opts.numGPU p q ↔
        (z.blocks.length - p.layerCount) * p.layerSize =
          ((blockSizes z.layerSize z.blocks).drop p.layerCount).sum) := by
  unfold estimateGPULayers at he
  obtain ⟨gpu, hgpu, he⟩ := Option.bind_eq_some_iff.1 he
  split at he
  · nomatch he
  obtain ⟨q, hq, he⟩ := Option.bind_eq_some_iff.1 he
  obtain rfl := Option.some.inj he
  generalize hz : sizes gpus gpu.library f projectors opts overhead = z at hq ⊢
  obtain ⟨p, hp⟩ : ∃ p, placeBlocks gpus z opts.numGPU 0 z.blocks (selectGpus gpus z) = some p := by
    obtain ⟨p, hp, -⟩ := Option.bind_eq_some_iff.1 hq
    exact ⟨p, hp⟩
  have h := blocks_after hp
  refine ⟨gpu, z, p, q, hgpu, hz.symm, hp, hq, rfl, ?_⟩
  rw [totalSize_eq]
  obtain ⟨q', hq', hcases⟩ := placeLayers_cases hp
  obtain rfl := Option.some.inj (hq.symm.trans hq')
  rcases hcases with ⟨hnot, hsame, hoverflow⟩ | ⟨hout, hsame, hoverflow, -⟩ | ⟨hout, k, hk, g, -, -, hadd, hoverflow⟩
  · rw [outputLeft, if_neg (fun hc => hnot hc.1), unplacedSizes_eq h (by rw [hsame]), hoverflow]
    omega
  · rw [outputLeft, if_pos ⟨hout, by rw [hsame]⟩, unplacedSizes_eq h (by rw [hsame]), hoverflow]
    omega
  · have hcount : q.placement.layerCount = p.layerCount + 1 := by rw [hadd, Placement.add]
    rw [outputLeft, if_neg (fun hc => absurd hc.2 (by omega)), unplacedSizes_eq h (by rw [hadd, Placement.add]),
      hoverflow]
    omega

/-- The sizes from the `m`-th on are all that of the last. -/
def EvenFrom (sizes : List Nat) (m : Nat) : Prop := ∀ x ∈ sizes.drop m, sizes.getLast? = some x

/-- A GPU has free memory for the first `m` blocks, and for all that may be kept from them. -/
def RoomForBlocks (gpus : List GpuInfo) (z : Sizes) (m : Nat) : Prop :=
  ∃ gpu ∈ gpus, z.overhead + z.gpuZeroOverhead + z.graph + gpu.minimumMemory + 2 * z.layerSize +
    ((blockSizes z.layerSize z.blocks).take m).sum < gpu.freeMemory

/-- From some block on, all blocks have the size of the last, and those before may be placed and find room on one GPU. -/
def Covered (gpus : List GpuInfo) (z : Sizes) (numGPU : Int) : Prop :=
  ∃ m ≤ z.blocks.length, EvenFrom (blockSizes z.layerSize z.blocks) m ∧
    (m = 0 ∨ (numGPU < 0 ∨ (m : Int) ≤ numGPU) ∧ RoomForBlocks gpus z m)

/-- The total of an estimate is what the GPUs are given, the blocks that are not placed, and the output if it is
considered and not placed. -/
def TotalRight (gpus : List GpuInfo) (f : Ggml) (projectors : List (Nat × Nat)) (opts : Options)
    (overhead : Nat) : Prop :=
  ∀ e, estimateGPULayers gpus f projectors opts overhead = some e →
    ∃ gpu z p q, gpus.head? = some gpu ∧ z = sizes gpus gpu.library f projectors opts overhead ∧
      placeBlocks gpus z opts.numGPU 0 z.blocks (selectGpus gpus z) = some p ∧ placeLayers gpus z opts.numGPU = some q ∧
      e = q.estimate gpus z gpu.library ∧
      e.totalSize = (q.gpuAllocations z).sum + (unplacedSizes z q).sum + outputLeft z opts.numGPU p q

/-- The sizes of the blocks of a model, which no GPU and no limit on layers matters for. -/
def modelBlocks (f : Ggml) (projectors : List (Nat × Nat)) (opts : Options) : List Nat :=
  let z := sizes [] .cpu f projectors opts 0
  blockSizes z.layerSize z.blocks

namespace TotalsAux

variable {gpus : List GpuInfo} {z : Sizes} {numGPU : Int} {p p' : Placement}

theorem length_blockSizes (layerSize : Nat) (blocks : List (Option Nat)) :
    (blockSizes layerSize blocks).length = blocks.length := by
  induction blocks generalizing layerSize with
  | nil => rfl
  | cons block blocks ih => rw [blockSizes, List.length_cons, ih, List.length_cons]

/-- Sizes that are even from `m` on are, from any later place on, so many of the last. -/
theorem sum_drop_of_even {l : List Nat} {m k last d : Nat} (h : EvenFrom l m) (hmk : m ≤ k)
    (hlast : last = l.getLast?.getD d) :
    (l.length - k) * last = (l.drop k).sum := by
  have hall : ∀ x ∈ l.drop k, x = last := by
    intro x hx
    obtain ⟨e, rfl⟩ := Nat.exists_eq_add_of_le hmk
    rw [← List.drop_drop] at hx
    rw [hlast, h x (List.mem_of_mem_drop hx), Option.getD_some]
  rw [List.eq_replicate_of_mem hall, List.sum_replicate_nat, List.length_drop]

/-- Sizes that are not all that of the last are not so many of the last from some place on. -/
theorem exists_drop_of_not_even {l : List Nat} {last d : Nat} (hlast : last = l.getLast?.getD d) (h : ¬EvenFrom l 0) :
    ∃ k ≤ l.length, (l.length - k) * last ≠ (l.drop k).sum := by
  induction l with
  | nil => exact absurd (fun x hx => nomatch hx) h
  | cons x l ih =>
    cases l with
    | nil =>
      refine absurd (fun y hy => ?_) h
      rw [List.drop_zero, List.mem_singleton] at hy
      rw [hy]
      rfl
    | cons y l =>
      rw [List.getLast?_cons_cons] at hlast
      by_cases heven : EvenFrom (y :: l) 0
      · -- only the first is another
        refine ⟨0, Nat.zero_le _, fun heq => h fun w hw => ?_⟩
        have hsum := sum_drop_of_even heven (le_refl 0) hlast
        rw [List.drop_zero, Nat.sub_zero] at heq hsum
        rw [List.sum_cons, ← hsum, List.length_cons, Nat.succ_mul] at heq
        rw [List.drop_zero] at hw
        rw [List.getLast?_cons_cons]
        rcases List.mem_cons.1 hw with rfl | hw
        · have hlast' := List.getLast?_eq_some_getLast (List.cons_ne_nil y l)
          rw [hlast', Option.getD_some] at hlast
          rw [hlast', ← hlast]
          exact congrArg some (by omega)
        · exact heven w hw
      · obtain ⟨k, hk, hne⟩ := ih hlast heven
        refine ⟨k + 1, Nat.succ_le_succ hk, ?_⟩
        rwa [List.length_cons, Nat.succ_sub_succ, List.drop_succ_cons]

/-! ### Where there is room -/

/-- The GPU has space, and room for so much more. -/
def HasSpace (gpus : List GpuInfo) (z : Sizes) (g more : Nat) (p : Placement) : Prop :=
  g ∈ p.gpusWithSpace ∧ ∃ gpu allocation, gpus[g]? = some gpu ∧ p.gpuAllocations[g]? = some allocation ∧
    z.overhead + allocation + z.graph + more < gpu.freeMemory

/-- Where a GPU has room for a block, the block is placed, and what room there was for more is left. -/
theorem HasSpace.placeBlock {g more : Nat} (i : Nat) (hw : Within gpus z p)
    (h : HasSpace gpus z g (p.layerSize + more) p) {j : Nat} (hj : j = p.gpusWithSpace.length)
    (hp' : placeBlock gpus z i j p = some p') :
    HasSpace gpus z g more p' ∧ p'.layerCount = p.layerCount + 1 ∧ p'.layerSize = p.layerSize := by
  induction j generalizing p with
  | zero =>
    have hnone := List.eq_nil_of_length_eq_zero hj.symm
    rw [HasSpace, hnone] at h
    nomatch h.1
  | succ j ih =>
    have hlt : i % (j + 1) < p.gpusWithSpace.length := hj ▸ Nat.mod_lt _ (Nat.succ_pos j)
    obtain ⟨gpu', allocation', hgpu', hallocation', hfits⟩ :=
      fits_eq hw (hw.spaces _ (List.getElem_mem hlt)) p.layerSize
    rw [Llm.placeBlock, List.getElem?_eq_getElem hlt] at hp'
    simp only [Option.bind_eq_bind, Option.bind_some, hfits] at hp'
    obtain ⟨hg, gpu, allocation, hgpu, hallocation, hroom⟩ := h
    split at hp'
    · obtain rfl := Option.some.inj hp'
      refine ⟨⟨hg, gpu, ?_⟩, rfl, rfl⟩
      by_cases heq : p.gpusWithSpace[i % (j + 1)] = g
      · refine ⟨allocation + p.layerSize, hgpu, ?_, by omega⟩
        show (p.gpuAllocations.modify p.gpusWithSpace[i % (j + 1)] (· + p.layerSize))[g]? = _
        rw [heq, List.getElem?_modify_eq, hallocation]
        rfl
      · refine ⟨allocation, hgpu, ?_, by omega⟩
        show (p.gpuAllocations.modify p.gpusWithSpace[i % (j + 1)] (· + p.layerSize))[g]? = _
        rw [List.getElem?_modify_ne _ _ heq, hallocation]
    · rename_i hfull
      have hne : p.gpusWithSpace[i % (j + 1)] ≠ g := by
        rintro heq
        rw [heq] at hgpu' hallocation'
        obtain rfl := Option.some.inj (hgpu.symm.trans hgpu')
        obtain rfl := Option.some.inj (hallocation.symm.trans hallocation')
        rw [decide_eq_true_eq] at hfull
        omega
      have hmem : g ∈ p.gpusWithSpace.eraseIdx (i % (j + 1)) := by
        obtain ⟨k, hk, hget⟩ := List.getElem_of_mem hg
        refine List.mem_eraseIdx_iff_getElem.2 ⟨k, hk, ?_, hget⟩
        rintro rfl
        exact hne hget
      have hsub : ∀ g ∈ p.gpusWithSpace.eraseIdx (i % (j + 1)), g ∈ p.gpusWithSpace :=
        fun g hg => List.mem_of_mem_eraseIdx hg
      have hw' : Within gpus z { p with gpusWithSpace := p.gpusWithSpace.eraseIdx (i % (j + 1)) } :=
        hw.mono rfl rfl rfl hsub
      have hlen : j = (p.gpusWithSpace.eraseIdx (i % (j + 1))).length := by
        rw [List.length_eraseIdx_of_lt hlt]
        omega
      exact ih (p := { p with gpusWithSpace := p.gpusWithSpace.eraseIdx (i % (j + 1)) }) hw'
        ⟨hmem, gpu, allocation, hgpu, hallocation, hroom⟩ hlen hp'

/-- The loop over the blocks leaves the size of the last, and takes no layer away. -/
theorem placeBlocks_last {blocks : List (Option Nat)} {i : Nat} (h : Blocks gpus z numGPU i p)
    (hp' : placeBlocks gpus z numGPU i blocks p = some p') :
    p'.layerSize = (blockSizes p.layerSize blocks).getLast?.getD p.layerSize ∧ p.layerCount ≤ p'.layerCount := by
  induction blocks generalizing i p with
  | nil =>
    obtain rfl := Option.some.inj hp'
    exact ⟨rfl, le_refl _⟩
  | cons block blocks ih =>
    have hlast : (blockSizes p.layerSize (block :: blocks)).getLast?.getD p.layerSize =
        (blockSizes (block.getD p.layerSize) blocks).getLast?.getD (block.getD p.layerSize) := by
      rw [blockSizes, List.getLast?_cons, Option.getD_some]
    obtain ⟨hlimited, hplaced⟩ := h.block (block.getD p.layerSize) (p.memoryWeights + block.getD p.layerSize)
    rw [hlast]
    rw [placeBlocks] at hp'
    dsimp only at hp'
    split at hp'
    · rename_i hlimit
      exact ih (hlimited hlimit) hp'
    · rename_i hlimit
      obtain ⟨p₁, hp₁, h₁⟩ := hplaced hlimit
      rw [hp₁, Option.bind_eq_bind, Option.bind_some] at hp'
      have hwithin : Within gpus z { p with
        layerSize := block.getD p.layerSize, memoryWeights := p.memoryWeights + block.getD p.layerSize } :=
        h.toWithin.mono rfl rfl rfl fun _ => id
      obtain ⟨p₂, hp₂, hcases⟩ := placeBlock_cases i hwithin rfl
      obtain rfl := Option.some.inj (hp₁.symm.trans hp₂)
      have hsize : p₁.layerSize = block.getD p.layerSize ∧ p.layerCount ≤ p₁.layerCount := by
        rcases hcases with ⟨g, spaces, -, -, -, rfl⟩ | rfl
        · exact ⟨rfl, Nat.le_succ _⟩
        · exact ⟨rfl, le_refl _⟩
      obtain ⟨hrest, hle⟩ := ih h₁ hp'
      rw [hsize.1] at hrest
      exact ⟨hrest, le_trans hsize.2 hle⟩

/-- Where a GPU has room for the next `m` blocks and so many are allowed, they are placed. -/
theorem HasSpace.placeBlocks {blocks : List (Option Nat)} {i g m : Nat} (h : Blocks gpus z numGPU i p)
    (hm : m ≤ blocks.length) (hallow : numGPU < 0 ∨ ((p.layerCount + m : Nat) : Int) ≤ numGPU)
    (hroom : HasSpace gpus z g ((blockSizes p.layerSize blocks).take m).sum p)
    (hp' : placeBlocks gpus z numGPU i blocks p = some p') : p.layerCount + m ≤ p'.layerCount := by
  induction blocks generalizing i m p with
  | nil =>
    obtain rfl : m = 0 := Nat.le_zero.1 hm
    exact (placeBlocks_last h hp').2
  | cons block blocks ih =>
    cases m with
    | zero => exact (placeBlocks_last h hp').2
    | succ m =>
      have hlimit : ¬(0 ≤ numGPU ∧ numGPU ≤ p.layerCount) := by omega
      obtain ⟨p₁, hp₁, h₁⟩ := (h.block (block.getD p.layerSize) (p.memoryWeights + block.getD p.layerSize)).2 hlimit
      rw [Llm.placeBlocks, if_neg hlimit] at hp'
      dsimp only at hp'
      rw [hp₁, Option.bind_eq_bind, Option.bind_some] at hp'
      rw [blockSizes, List.take_succ_cons, List.sum_cons] at hroom
      have hw : Within gpus z
          { p with layerSize := block.getD p.layerSize, memoryWeights := p.memoryWeights + block.getD p.layerSize } :=
        h.toWithin.mono rfl rfl rfl (fun _ => id)
      obtain ⟨hroom', hcount, hsize⟩ := HasSpace.placeBlock i hw hroom rfl hp₁
      have hsize' : p₁.layerSize = block.getD p.layerSize := hsize
      rw [← hsize'] at hroom'
      have hcount' : p₁.layerCount = p.layerCount + 1 := hcount
      have := ih h₁ (Nat.le_of_succ_le_succ hm) (by omega) hroom' hp'
      omega

/-- A GPU that is looked at changes nothing for another. -/
theorem select_other (gpu : GpuInfo) {i g : Nat} (hne : i ≠ g) :
    (p.select z gpu i).gpuAllocations[g]? = p.gpuAllocations[g]? ∧
      (g ∈ p.gpusWithSpace → g ∈ (p.select z gpu i).gpusWithSpace) := by
  unfold Placement.select
  dsimp only
  generalize (if p.gpusWithSpace = [] then z.gpuZeroOverhead else 0) = gzo
  split
  · exact ⟨rfl, id⟩
  · exact ⟨List.getElem?_modify_ne _ _ hne, fun hg => List.mem_append_left _ hg⟩

theorem select_others {entries : List (GpuInfo × Nat)} {g : Nat} (hnot : ∀ e ∈ entries, e.2 ≠ g) (p : Placement) :
    (entries.foldl (fun p e => p.select z e.1 e.2) p).gpuAllocations[g]? = p.gpuAllocations[g]? ∧
      (g ∈ p.gpusWithSpace → g ∈ (entries.foldl (fun p e => p.select z e.1 e.2) p).gpusWithSpace) := by
  induction entries generalizing p with
  | nil => exact ⟨rfl, id⟩
  | cons e entries ih =>
    obtain ⟨hallocation, hmem⟩ := ih (fun e' he' => hnot e' (List.mem_cons_of_mem _ he')) (p.select z e.1 e.2)
    obtain ⟨hallocation', hmem'⟩ := select_other (p := p) (z := z) e.1 (hnot e (List.mem_cons_self ..))
    exact ⟨hallocation.trans hallocation', fun hg => hmem (hmem' hg)⟩

/-- A GPU with enough memory has space once it is looked at, and starts with its minimum and the layer buffer. -/
theorem select_self {gpu : GpuInfo} {g : Nat} (hallocation : p.gpuAllocations[g]? = some 0)
    (hroom : z.overhead + z.gpuZeroOverhead + z.graph + gpu.minimumMemory + 2 * z.layerSize ≤ gpu.freeMemory) :
    (p.select z gpu g).gpuAllocations[g]? = some (gpu.minimumMemory + z.layerSize) ∧
      g ∈ (p.select z gpu g).gpusWithSpace := by
  have hgzo : (if p.gpusWithSpace = [] then z.gpuZeroOverhead else 0) ≤ z.gpuZeroOverhead := by
    split
    · exact le_refl _
    · exact Nat.zero_le _
  unfold Placement.select
  dsimp only
  rw [if_neg (by omega)]
  refine ⟨?_, List.mem_append_right _ (List.mem_singleton_self g)⟩
  rw [List.getElem?_modify_eq, hallocation, Option.map_eq_map, Option.map_some, Nat.zero_add]

/-- A GPU with room for blocks has space for them when the loop over the blocks begins. -/
theorem HasSpace.of_room {m : Nat} (h : RoomForBlocks gpus z m) :
    ∃ g, HasSpace gpus z g ((blockSizes z.layerSize z.blocks).take m).sum (selectGpus gpus z) := by
  obtain ⟨gpu, hgpu, hroom⟩ := h
  obtain ⟨g, hg, rfl⟩ := List.getElem_of_mem hgpu
  refine ⟨g, ?_⟩
  have hsplit : gpus.zipIdx = (gpus.take g).zipIdx ++ (gpus[g], g) :: (gpus.drop (g + 1)).zipIdx (g + 1) := by
    conv_lhs => rw [← List.take_append_drop g gpus, List.drop_eq_getElem_cons hg]
    rw [List.zipIdx_append, List.zipIdx_cons, List.length_take_of_le (Nat.le_of_lt hg), Nat.zero_add]
  have hbefore : ∀ e ∈ (gpus.take g).zipIdx, e.2 ≠ g := by
    intro e he
    have := List.snd_lt_of_mem_zipIdx he
    rw [List.length_take_of_le (Nat.le_of_lt hg)] at this
    omega
  have hafter : ∀ e ∈ (gpus.drop (g + 1)).zipIdx (g + 1), e.2 ≠ g := by
    intro e he
    have := List.le_snd_of_mem_zipIdx he
    omega
  have hstart : (List.replicate gpus.length 0)[g]? = some 0 := by rw [List.getElem?_replicate, if_pos hg]
  have hzero := (select_others (z := z) hbefore
    ⟨0, List.replicate gpus.length 0, List.replicate gpus.length 0, [], z.layerSize, 0, []⟩).1.trans hstart
  obtain ⟨hallocation, hspace⟩ :=
    select_self hzero (show z.overhead + z.gpuZeroOverhead + z.graph + gpus[g].minimumMemory +
    2 * z.layerSize ≤ gpus[g].freeMemory by omega)
  obtain ⟨hallocation', hspace'⟩ := select_others (z := z) hafter (Placement.select z _ gpus[g] g)
  unfold selectGpus
  dsimp only
  rw [hsplit, List.foldl_append, List.foldl_cons]
  rw [hallocation] at hallocation'
  split
  · rename_i hnone
    have hmem := hspace' hspace
    rw [hnone] at hmem
    nomatch hmem
  · rename_i first rest hspaces
    refine ⟨hspace' hspace, gpus[g], ?_⟩
    by_cases heq : first = g
    · refine ⟨gpus[g].minimumMemory + z.layerSize + z.gpuZeroOverhead, List.getElem?_eq_getElem hg, ?_, by omega⟩
      subst heq
      rw [List.getElem?_modify_eq, hallocation', Option.map_eq_map, Option.map_some]
    · refine ⟨gpus[g].minimumMemory + z.layerSize, List.getElem?_eq_getElem hg, ?_, by omega⟩
      rw [List.getElem?_modify_ne _ _ heq, hallocation']

theorem selectGpus_layerSize : (selectGpus gpus z).layerSize = z.layerSize := by
  have hfold : ∀ (entries : List (GpuInfo × Nat)) (p : Placement),
      (entries.foldl (fun p e => p.select z e.1 e.2) p).layerSize = p.layerSize := by
    intro entries
    induction entries with
    | nil => exact fun _ => rfl
    | cons e entries ih =>
      intro p
      rw [List.foldl_cons, ih]
      unfold Placement.select
      dsimp only
      generalize (if p.gpusWithSpace = [] then z.gpuZeroOverhead else 0) = gzo
      split <;> rfl
  unfold selectGpus
  dsimp only
  split <;> exact hfold _ _

/-- Where a GPU has room for the first `m` blocks and so many are allowed, they are placed. -/
theorem le_layerCount {m : Nat} (hroom : RoomForBlocks gpus z m) (hm : m ≤ z.blocks.length)
    (hallow : numGPU < 0 ∨ (m : Int) ≤ numGPU)
    (hp : placeBlocks gpus z numGPU 0 z.blocks (selectGpus gpus z) = some p) : m ≤ p.layerCount := by
  have hzero : (selectGpus gpus z).layerCount = 0 := start_selectGpus.layerCount
  obtain ⟨g, hspace⟩ := HasSpace.of_room hroom
  have hstart : Blocks gpus z numGPU 0 (selectGpus gpus z) := blocks_selectGpus
  have hsize : (selectGpus gpus z).layerSize = z.layerSize := selectGpus_layerSize
  rw [← hsize] at hspace
  have hle := HasSpace.placeBlocks hstart hm (by rwa [hzero, Nat.zero_add]) hspace hp
  rwa [hzero, Nat.zero_add] at hle

/-- The loop over the blocks leaves the size of the last. -/
theorem layerSize_last (hp : placeBlocks gpus z numGPU 0 z.blocks (selectGpus gpus z) = some p) :
    p.layerSize = (blockSizes z.layerSize z.blocks).getLast?.getD z.layerSize := by
  have hstart : Blocks gpus z numGPU 0 (selectGpus gpus z) := blocks_selectGpus
  have hlast := (placeBlocks_last hstart hp).1
  rwa [selectGpus_layerSize] at hlast

/-- Where the condition holds, the blocks that are left over are as large as so many of the last. -/
theorem left_over_of_covered (hcovered : Covered gpus z numGPU)
    (hp : placeBlocks gpus z numGPU 0 z.blocks (selectGpus gpus z) = some p) :
    (z.blocks.length - p.layerCount) * p.layerSize = ((blockSizes z.layerSize z.blocks).drop p.layerCount).sum := by
  obtain ⟨m, hle, heven, hm⟩ := hcovered
  have hcount : m ≤ p.layerCount := by
    rcases hm with rfl | ⟨hallow, hroom⟩
    · exact Nat.zero_le _
    · exact le_layerCount hroom hle hallow hp
  rw [← length_blockSizes z.layerSize z.blocks]
  exact sum_drop_of_even heven hcount (layerSize_last hp)

/-- Where the total is right, the blocks that are left over are as large as so many of the last. -/
theorem left_over_of_right {gpu : GpuInfo} {f : Ggml} {projectors : List (Nat × Nat)} {opts : Options} {overhead : Nat}
    (hright : TotalRight (gpu :: gpus) f projectors opts overhead) (hcount : f.blockCount ≠ 0)
    (hz : z = sizes (gpu :: gpus) gpu.library f projectors opts overhead) :
    ∃ p, placeBlocks (gpu :: gpus) z opts.numGPU 0 z.blocks (selectGpus (gpu :: gpus) z) = some p ∧
      (z.blocks.length - p.layerCount) * p.layerSize = ((blockSizes z.layerSize z.blocks).drop p.layerCount).sum := by
  obtain ⟨q, hq, -⟩ := placeLayers_planned (gpu :: gpus) z opts.numGPU
  have he : estimateGPULayers (gpu :: gpus) f projectors opts overhead =
    some (q.estimate (gpu :: gpus) z gpu.library) := by
    rw [estimateGPULayers, List.head?_cons, Option.bind_eq_bind, Option.bind_some, if_neg hcount]
    dsimp only
    rw [← hz, hq]
    rfl
  obtain ⟨gpu₁, z₁, p₁, q₁, hgpu₁, rfl, hp₁, hq₁, -, htotal⟩ := hright _ he
  obtain ⟨gpu₂, z₂, p₂, q₂, hgpu₂, rfl, hp₂, hq₂, -, hiff⟩ := totalSize_eq_iff he
  obtain rfl := Option.some.inj hgpu₁
  obtain rfl := Option.some.inj hgpu₂
  rw [← hz] at hp₁ hq₁ hp₂ hq₂ htotal hiff
  obtain rfl := Option.some.inj (hp₁.symm.trans hp₂)
  obtain rfl := Option.some.inj (hq₁.symm.trans hq₂)
  exact ⟨p₁, hp₁, hiff.1 htotal⟩

end TotalsAux

open TotalsAux in
/-- **The total is what the GPUs are given, the blocks that are not placed, and the output if it is considered and not
placed, if from some block on all blocks are as large as the last, and those before are placed. For all GPUs and all
limits on the layers it is so exactly if all blocks are of one size.** -/
theorem totalSize_right (f : Ggml) (projectors : List (Nat × Nat)) (opts : Options) (overhead : Nat) :
    (∀ gpu gpus, Covered (gpu :: gpus) (sizes (gpu :: gpus) gpu.library f projectors opts overhead) opts.numGPU →
      TotalRight (gpu :: gpus) f projectors opts overhead) ∧
    ((∀ gpus numGPU, TotalRight gpus f projectors { opts with numGPU } overhead) ↔
      EvenFrom (modelBlocks f projectors opts) 0) := by
  have hcovered : ∀ gpu gpus numGPU,
      Covered (gpu :: gpus) (sizes (gpu :: gpus) gpu.library f projectors { opts with numGPU } overhead) numGPU →
      TotalRight (gpu :: gpus) f projectors { opts with numGPU } overhead := by
    intro gpu gpus numGPU hcovered e he
    obtain ⟨gpu', z, p, q, hgpu, hz, hp, hq, hestimate, hiff⟩ := totalSize_eq_iff he
    obtain rfl := Option.some.inj hgpu
    rw [← hz] at hcovered
    exact ⟨gpu, z, p, q, rfl, hz, hp, hq, hestimate, hiff.2 (left_over_of_covered hcovered hp)⟩
  refine ⟨fun gpu gpus => hcovered gpu gpus opts.numGPU, fun hall => ?_, fun heven gpus numGPU => ?_⟩
  · by_contra hnot
    -- one GPU that has room for all blocks, and a limit where the blocks that are left over are not so many of the last
    set z := sizes [⟨.cuda, 0, 0⟩] .cuda f projectors opts overhead with hz
    have hblocks : modelBlocks f projectors opts = blockSizes z.layerSize z.blocks := rfl
    rw [hblocks] at hnot
    obtain ⟨k, hk, hne⟩ := exists_drop_of_not_even (d := z.layerSize) rfl hnot
    rw [length_blockSizes] at hk hne
    have hcount : f.blockCount ≠ 0 := by
      intro hzero
      refine hnot fun x hx => ?_
      have hlen : z.blocks.length = 0 := by rw [hz, sizes, List.length_map, List.length_range, hzero]
      rw [List.drop_zero, List.eq_nil_of_length_eq_zero ((length_blockSizes _ _).trans hlen)] at hx
      exact absurd hx List.not_mem_nil
    let gpu : GpuInfo :=
      ⟨.cuda, z.overhead + z.gpuZeroOverhead + z.graph + 0 + 2 * z.layerSize +
        ((blockSizes z.layerSize z.blocks).take k).sum + 1, 0⟩
    obtain ⟨p, hp, heq⟩ := left_over_of_right (z := z) (hall [gpu] k) hcount rfl
    have hroom : RoomForBlocks [gpu] z k := ⟨gpu, List.mem_singleton_self gpu, Nat.lt_succ_self _⟩
    have hle : k ≤ p.layerCount := le_layerCount hroom hk (.inr (le_refl _)) hp
    have hge : (p.layerCount : Int) ≤ k := (blocks_after hp).limit (Int.natCast_nonneg k)
    obtain rfl : k = p.layerCount := by omega
    rw [layerSize_last hp] at heq
    exact hne heq
  · cases gpus with
    | nil =>
      intro e he
      simp [estimateGPULayers] at he
    | cons gpu gpus => exact hcovered gpu gpus numGPU ⟨0, Nat.zero_le _, heven, .inl rfl⟩

/-- A model of two blocks, the first twice as large. -/
def unevenBlocks : Ggml :=
  ⟨[⟨ascii "blk.0.a", 0, 0, [2], []⟩, ⟨ascii "blk.1.a", 0, 0, [1], []⟩], 2, 1, fun _ _ => (2, 1, 1), (0, 0)⟩

/-- Both blocks of the model of two equal ones stay on the CPU, both of the other find room on a GPU, and the totals
are right. -/
theorem totalSize_even :
    (estimateGPULayers [⟨.cuda, 30, 0⟩] twoBlocks [] ⟨2048, 512, 0⟩ 0).isSome ∧
    TotalRight [⟨.cuda, 30, 0⟩] twoBlocks [] ⟨2048, 512, 0⟩ 0 ∧
    (estimateGPULayers [⟨.cuda, 50, 0⟩] unevenBlocks [] ⟨2048, 512, -1⟩ 0).isSome ∧
    TotalRight [⟨.cuda, 50, 0⟩] unevenBlocks [] ⟨2048, 512, -1⟩ 0 := by
  refine ⟨by decide +kernel, (totalSize_right twoBlocks [] ⟨2048, 512, 0⟩ 0).1 ⟨.cuda, 30, 0⟩ [] ?_, by decide +kernel,
    (totalSize_right unevenBlocks [] ⟨2048, 512, -1⟩ 0).1 ⟨.cuda, 50, 0⟩ [] ?_⟩
  · exact ⟨0, Nat.zero_le _, by unfold EvenFrom; decide +kernel, .inl rfl⟩
  · refine ⟨2,
      by decide +kernel, by unfold EvenFrom; decide +kernel,
      .inr ⟨.inl (by decide), ⟨.cuda, 50, 0⟩, List.mem_singleton_self _, ?_⟩⟩
    decide +kernel

/-- Where no block is placed, both count as large as the second: the total is four bytes short. -/
theorem totalSize_uneven :
    ¬∀ (gpu : GpuInfo) (f : Ggml) (opts : Options) (e : MemoryEstimate) (p : Placement) (q : Placed),
    estimateGPULayers [gpu] f [] opts 0 = some e →
    placeBlocks [gpu] (sizes [gpu] gpu.library f [] opts 0) opts.numGPU 0 (sizes [gpu] gpu.library f [] opts 0).blocks
      (selectGpus [gpu] (sizes [gpu] gpu.library f [] opts 0)) = some p →
    placeLayers [gpu] (sizes [gpu] gpu.library f [] opts 0) opts.numGPU = some q →
    e.totalSize = (q.gpuAllocations (sizes [gpu] gpu.library f [] opts 0)).sum +
      (unplacedSizes (sizes [gpu] gpu.library f [] opts 0) q).sum +
      outputLeft (sizes [gpu] gpu.library f [] opts 0) opts.numGPU p q := by
  intro h
  have heq := h ⟨.cuda, 30, 0⟩ unevenBlocks ⟨2048, 512, 0⟩ _ _ _ rfl rfl rfl
  revert heq
  decide +kernel

end Ollama.Llm
