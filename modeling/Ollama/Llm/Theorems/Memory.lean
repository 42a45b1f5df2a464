import Ollama.Llm.Memory

/-!
# The plan stays within the memory

A block goes to a GPU only if the GPU then still has room for its overhead and the greater graph, so charging one of
the graphs in the end keeps it within its free memory. A GPU on which a block does not fit is left out, so a block
that fits nowhere leaves no GPU for those after it: the blocks that are placed are the first ones
(`estimate_within_bounds`).
-/

namespace Ollama.Llm

open Lib Utf8

namespace MemoryAux

variable {gpus : List GpuInfo} {z : Sizes} {numGPU : Int}

/-- What holds of a placement at any time. -/
structure Within (gpus : List GpuInfo) (z : Sizes) (p : Placement) : Prop where
  counts : p.layerCounts.length = gpus.length
  allocations : p.gpuAllocations.length = gpus.length
  spaces : ∀ g ∈ p.gpusWithSpace, g < gpus.length
  sum : p.layerCounts.sum = p.layerCount
  /-- a GPU with a layer has room for the greater graph -/
  room : ∀ (g : Nat) (gpu : GpuInfo) (allocation : Nat), gpus[g]? = some gpu → p.gpuAllocations[g]? = some allocation →
    p.layerCounts[g]? ≠ some 0 →
    z.overhead + allocation + z.graph ≤ gpu.freeMemory

/-- A sum after one more. -/
theorem sum_modify {l : List Nat} {i : Nat} (hi : i < l.length) : (l.modify i (· + 1)).sum = l.sum + 1 := by
  induction l generalizing i with
  | nil => nomatch hi
  | cons x l ih =>
    cases i with
    | zero =>
      rw [List.modify_zero_cons, List.sum_cons, List.sum_cons]
      omega
    | succ i =>
      rw [List.modify_succ_cons, List.sum_cons, List.sum_cons, ih (Nat.lt_of_succ_lt_succ hi)]
      omega

/-- A layer fits on a GPU, or it does not. -/
theorem fits_eq {p : Placement} (h : Within gpus z p) {g : Nat} (hg : g < gpus.length) (size : Nat) :
    ∃ gpu allocation, gpus[g]? = some gpu ∧ p.gpuAllocations[g]? = some allocation ∧
      p.fits gpus z g size = some (decide (gpu.freeMemory > z.overhead + (allocation + z.graph) + size)) := by
  have hg' : g < p.gpuAllocations.length := h.allocations.symm ▸ hg
  refine ⟨gpus[g], p.gpuAllocations[g], List.getElem?_eq_getElem hg, List.getElem?_eq_getElem hg', ?_⟩
  simp [Placement.fits, List.getElem?_eq_getElem hg, List.getElem?_eq_getElem hg']

/-- A layer is placed where it fits. -/
theorem Within.add {p : Placement} (h : Within gpus z p) {g size : Nat} (hg : g < gpus.length)
    (hfits : p.fits gpus z g size = some true) : Within gpus z (p.add g size) where
  counts := by rw [Placement.add, List.length_modify, h.counts]
  allocations := by rw [Placement.add, List.length_modify, h.allocations]
  spaces := h.spaces
  sum := by rw [Placement.add, sum_modify (h.counts.symm ▸ hg), h.sum]
  room := by
    intro g' gpu allocation hgpu hallocation hcount
    simp only [Placement.add] at hallocation hcount
    by_cases heq : g = g'
    · subst heq
      obtain ⟨gpu', allocation', hgpu', hallocation', hfits'⟩ := fits_eq h hg size
      rw [hfits, Option.some.injEq, eq_comm, decide_eq_true_eq] at hfits'
      obtain rfl : gpu' = gpu := Option.some.inj (hgpu'.symm.trans hgpu)
      rw [List.getElem?_modify_eq, hallocation'] at hallocation
      have : allocation' + size = allocation := Option.some.inj hallocation
      omega
    · rw [List.getElem?_modify_ne _ _ heq] at hallocation hcount
      exact h.room g' gpu allocation hgpu hallocation hcount

/-- Fewer GPUs have space. -/
theorem Within.mono {p p' : Placement} (h : Within gpus z p) (hcounts : p'.layerCounts = p.layerCounts)
    (hallocations : p'.gpuAllocations = p.gpuAllocations) (hcount : p'.layerCount = p.layerCount)
    (hspaces : ∀ g ∈ p'.gpusWithSpace, g ∈ p.gpusWithSpace) : Within gpus z p' where
  counts := hcounts ▸ h.counts
  allocations := hallocations ▸ h.allocations
  spaces := fun g hg => h.spaces g (hspaces g hg)
  sum := by rw [hcounts, hcount, h.sum]
  room := by
    rw [hallocations, hcounts]
    exact h.room

/-! ## Blocks -/

/-- A block is placed on a GPU that has space, and it may have taken GPUs away before; or no GPU has space any more. -/
theorem placeBlock_cases (i : Nat) {p : Placement} (h : Within gpus z p) {j : Nat} (hj : j = p.gpusWithSpace.length) :
    ∃ p', placeBlock gpus z i j p = some p' ∧
      ((∃ g spaces, g ∈ p.gpusWithSpace ∧ (∀ g' ∈ spaces, g' ∈ p.gpusWithSpace) ∧
        p.fits gpus z g p.layerSize = some true ∧
        p' = { p.add g p.layerSize with gpusWithSpace := spaces, placed := p.placed ++ [(i, g)] }) ∨
      p' = { p with gpusWithSpace := [] }) := by
  induction j generalizing p with
  | zero =>
    refine ⟨p, rfl, .inr ?_⟩
    rw [← List.eq_nil_of_length_eq_zero hj.symm]
  | succ j ih =>
    have hlt : i % (j + 1) < p.gpusWithSpace.length := hj ▸ Nat.mod_lt _ (Nat.succ_pos j)
    have hg := h.spaces _ (List.getElem_mem hlt)
    obtain ⟨gpu, allocation, _, _, hfits⟩ := fits_eq h hg p.layerSize
    rw [placeBlock, List.getElem?_eq_getElem hlt]
    simp only [Option.bind_eq_bind, Option.bind_some, hfits]
    split
    · rename_i hfit
      rw [hfit] at hfits
      exact ⟨_, rfl, .inl ⟨_, p.gpusWithSpace, List.getElem_mem hlt, fun _ => id, hfits, rfl⟩⟩
    · have hsub : ∀ g ∈ p.gpusWithSpace.eraseIdx (i % (j + 1)), g ∈ p.gpusWithSpace :=
        fun g hg => List.mem_of_mem_eraseIdx hg
      have h' : Within gpus z { p with gpusWithSpace := p.gpusWithSpace.eraseIdx (i % (j + 1)) } :=
        h.mono rfl rfl rfl hsub
      have hlen : j = (p.gpusWithSpace.eraseIdx (i % (j + 1))).length := by
        rw [List.length_eraseIdx_of_lt hlt]
        omega
      obtain ⟨p', hp', ⟨g, spaces, hg, hspaces, hfit, rfl⟩ | rfl⟩ := ih h' hlen
      · exact ⟨_, hp', .inl ⟨g, spaces, hsub g hg, fun g' hg' => hsub g' (hspaces g' hg'), hfit, rfl⟩⟩
      · exact ⟨_, hp', .inr rfl⟩

/-- What holds after the first `i` blocks. -/
structure Blocks (gpus : List GpuInfo) (z : Sizes) (numGPU : Int) (i : Nat)
    (p : Placement) : Prop extends Within gpus z p where
  first : p.placed.map Prod.fst = List.range p.layerCount
  each : ∀ g : Nat, g < gpus.length → p.layerCounts[g]? = some (p.placed.countP (fun e => e.2 = g))
  gpu : ∀ e ∈ p.placed, e.2 < gpus.length
  le : p.layerCount ≤ i
  limit : 0 ≤ numGPU → (p.layerCount : Int) ≤ numGPU
  /-- blocks are left out only at the limit, or when no GPU has space -/
  stop : p.layerCount = i ∨ p.gpusWithSpace = [] ∨ 0 ≤ numGPU ∧ numGPU ≤ p.layerCount

/-- A block. -/
theorem Blocks.block {i : Nat} {p : Placement} (h : Blocks gpus z numGPU i p) (size weights : Nat) :
    (0 ≤ numGPU ∧ numGPU ≤ p.layerCount →
      Blocks gpus z numGPU (i + 1) { p with layerSize := size, memoryWeights := weights }) ∧
    (¬(0 ≤ numGPU ∧ numGPU ≤ p.layerCount) →
      ∃ p', placeBlock gpus z i p.gpusWithSpace.length { p with layerSize := size, memoryWeights := weights } =
        some p' ∧ Blocks gpus z numGPU (i + 1) p') := by
  have hw : Within gpus z { p with layerSize := size, memoryWeights := weights } :=
    h.toWithin.mono rfl rfl rfl (fun _ => id)
  refine ⟨fun hlimit => ?_, fun hlimit => ?_⟩
  · exact ⟨hw, h.first, h.each, h.gpu, Nat.le_succ_of_le h.le, h.limit, .inr (.inr hlimit)⟩
  · obtain ⟨p', hp', hcases⟩ := placeBlock_cases i hw rfl
    refine ⟨p', hp', ?_⟩
    rcases hcases with ⟨g, spaces, hg, hspaces, hfits, rfl⟩ | rfl
    · -- there are GPUs with space, so all blocks before it are placed
      have hcount : p.layerCount = i := by
        rcases h.stop with hcount | hnone | hstop
        · exact hcount
        · rw [hnone] at hg
          nomatch hg
        · exact absurd hstop hlimit
      have hin := hw.spaces g hg
      refine ⟨(hw.add hin hfits).mono rfl rfl rfl hspaces, ?_, ?_, ?_, ?_, ?_, .inl (congrArg (· + 1) hcount)⟩
      · show (p.placed ++ [(i, g)]).map Prod.fst = List.range (p.layerCount + 1)
        rw [List.map_append, h.first, List.range_succ, hcount]
        rfl
      · intro g' hg'
        show (p.layerCounts.modify g (· + 1))[g']? = some ((p.placed ++ [(i, g)]).countP (fun e => e.2 = g'))
        rw [List.countP_append, List.countP_singleton]
        by_cases heq : g = g'
        · subst heq
          rw [List.getElem?_modify_eq, h.each g hg']
          simp
        · rw [List.getElem?_modify_ne _ _ heq, h.each g' hg']
          simp [heq]
      · intro e he
        rcases List.mem_append.1 he with he | he
        · exact h.gpu e he
        · rw [List.mem_singleton.1 he]
          exact hin
      · show p.layerCount + 1 ≤ i + 1
        omega
      · intro hnonneg
        show ((p.layerCount + 1 : Nat) : Int) ≤ numGPU
        have := h.limit hnonneg
        omega
    · refine ⟨h.toWithin.mono rfl rfl rfl nofun, h.first, h.each, h.gpu, Nat.le_succ_of_le h.le, h.limit,
        .inr (.inl rfl)⟩

/-- The loop over the blocks. -/
theorem Blocks.blocks (blocks : List (Option Nat)) {i : Nat} {p : Placement} (h : Blocks gpus z numGPU i p) :
    ∃ p', placeBlocks gpus z numGPU i blocks p = some p' ∧ Blocks gpus z numGPU (i + blocks.length) p' := by
  induction blocks generalizing i p with
  | nil => exact ⟨p, rfl, h⟩
  | cons block blocks ih =>
    have hlen : i + (block :: blocks).length = i + 1 + blocks.length := by
      rw [List.length_cons]
      omega
    rw [hlen, placeBlocks]
    obtain ⟨hlimited, hplaced⟩ := h.block (block.getD p.layerSize) (p.memoryWeights + block.getD p.layerSize)
    dsimp only
    split
    · rename_i hlimit
      exact ih (hlimited hlimit)
    · rename_i hlimit
      obtain ⟨p', hp', h'⟩ := hplaced hlimit
      rw [hp', Option.bind_eq_bind, Option.bind_some]
      exact ih h'

/-- No layer is placed yet. -/
structure Start (gpus : List GpuInfo) (p : Placement) : Prop where
  layerCount : p.layerCount = 0
  counts : p.layerCounts = List.replicate gpus.length 0
  allocations : p.gpuAllocations.length = gpus.length
  spaces : ∀ g ∈ p.gpusWithSpace, g < gpus.length
  placed : p.placed = []

theorem Start.select {p : Placement} (h : Start gpus p) (gpu : GpuInfo) {i : Nat} (hi : i < gpus.length) :
    Start gpus (p.select z gpu i) := by
  unfold Placement.select
  dsimp only
  generalize (if p.gpusWithSpace = [] then z.gpuZeroOverhead else 0) = gzo
  split
  · exact h
  · refine ⟨h.layerCount, h.counts, ?_, ?_, h.placed⟩
    · rw [List.length_modify, h.allocations]
    · intro g hg
      rcases List.mem_append.1 hg with hg | hg
      · exact h.spaces g hg
      · rw [List.mem_singleton.1 hg]
        exact hi

/-- The loop over the GPUs. -/
theorem Start.foldl {p : Placement} (h : Start gpus p) {entries : List (GpuInfo × Nat)}
    (hin : ∀ e ∈ entries, e.2 < gpus.length) :
    Start gpus (entries.foldl (fun p e => p.select z e.1 e.2) p) := by
  induction entries generalizing p with
  | nil => exact h
  | cons e entries ih =>
    rw [List.foldl_cons]
    exact ih (h.select e.1 (hin e (List.mem_cons_self ..))) (fun e' he' => hin e' (List.mem_cons_of_mem _ he'))

theorem start_selectGpus : Start gpus (selectGpus gpus z) := by
  have h : Start gpus (gpus.zipIdx.foldl (fun p e => p.select z e.1 e.2)
      ⟨0, List.replicate gpus.length 0, List.replicate gpus.length 0, [], z.layerSize, 0, []⟩) := by
    refine Start.foldl ⟨rfl, rfl, List.length_replicate, fun _ hg => absurd hg List.not_mem_nil, rfl⟩ (fun e he => ?_)
    exact List.snd_lt_of_mem_zipIdx he
  unfold selectGpus
  dsimp only
  split
  · exact h
  · exact ⟨h.layerCount, h.counts, by rw [List.length_modify, h.allocations], h.spaces, h.placed⟩

/-- Before the first block. -/
theorem blocks_selectGpus : Blocks gpus z numGPU 0 (selectGpus gpus z) := by
  have h : Start gpus (selectGpus gpus z) := start_selectGpus
  have hzero : ∀ g : Nat, g < gpus.length → (selectGpus gpus z).layerCounts[g]? = some 0 := by
    intro g hg
    rw [h.counts, List.getElem?_replicate, if_pos hg]
  refine ⟨⟨?_, h.allocations, h.spaces, ?_, ?_⟩, ?_, ?_, ?_, ?_, ?_, .inl h.layerCount⟩
  · rw [h.counts, List.length_replicate]
  · rw [h.counts, h.layerCount, List.sum_replicate_nat, Nat.mul_zero]
  · intro g gpu allocation hgpu _ hcount
    exact absurd (hzero g (List.getElem?_eq_some_iff.1 hgpu).1) hcount
  · rw [h.placed, h.layerCount]
    rfl
  · intro g hg
    rw [hzero g hg, h.placed]
    rfl
  · rw [h.placed]
    nofun
  · exact le_of_eq h.layerCount
  · intro hnonneg
    rw [h.layerCount]
    exact hnonneg

/-! ## The output -/

/-- The output is placed on a GPU that the loop comes to and that it fits on, or there is none. -/
theorem placeOutput_cases {p : Placement} (h : Within gpus z p) {j : Nat} (hj : j ≤ p.gpusWithSpace.length) :
    (placeOutput gpus z j p = some p ∧
      ∀ k < j, ∀ g, p.gpusWithSpace[p.layerCount % (k + 1)]? = some g →
        p.fits gpus z g z.memoryLayerOutput ≠ some true) ∨
    ∃ k < j, ∃ g, p.gpusWithSpace[p.layerCount % (k + 1)]? = some g ∧ p.fits gpus z g z.memoryLayerOutput = some true ∧
      placeOutput gpus z j p = some (p.add g z.memoryLayerOutput) := by
  induction j with
  | zero => exact .inl ⟨rfl, fun k hk => absurd hk (Nat.not_lt_zero k)⟩
  | succ j ih =>
    have hlt : p.layerCount % (j + 1) < p.gpusWithSpace.length := lt_of_lt_of_le (Nat.mod_lt _ (Nat.succ_pos j)) hj
    have hg := h.spaces _ (List.getElem_mem hlt)
    obtain ⟨gpu, allocation, _, _, hfits⟩ := fits_eq h hg z.memoryLayerOutput
    rw [placeOutput, List.getElem?_eq_getElem hlt]
    simp only [Option.bind_eq_bind, Option.bind_some, hfits]
    split
    · rename_i hfit
      rw [hfit] at hfits
      exact .inr ⟨j, Nat.lt_succ_self j, _, List.getElem?_eq_getElem hlt, hfits, rfl⟩
    · rename_i hfit
      rcases ih (Nat.le_of_succ_le hj) with ⟨hsame, hnone⟩ | ⟨k, hk, g, hat, hfit', hadd⟩
      · refine .inl ⟨hsame, fun k hk g hat => ?_⟩
        rcases Nat.lt_succ_iff_lt_or_eq.1 hk with hk | rfl
        · exact hnone k hk g hat
        · obtain rfl := Option.some.inj ((List.getElem?_eq_getElem hlt).symm.trans hat)
          rw [hfits]
          exact fun htrue => hfit (Option.some.inj htrue)
      · exact .inr ⟨k, Nat.lt_succ_of_lt hk, g, hat, hfit', hadd⟩

/-- What the placement comes to. -/
structure Planned (gpus : List GpuInfo) (z : Sizes) (numGPU : Int)
    (q : Placed) : Prop extends Within gpus z q.placement where
  first : ∃ k, k ≤ z.blocks.length ∧ q.placement.placed.map Prod.fst = List.range k
  gpu : ∀ e ∈ q.placement.placed, e.2 < gpus.length
  each : ∃ output : Option Nat, ∀ g : Nat, g < gpus.length →
    q.placement.layerCounts[g]? = some (q.placement.placed.countP (fun e => e.2 = g) + if output = some g then 1 else 0)
  le : q.placement.layerCount ≤ z.blocks.length + 1
  limit : 0 ≤ numGPU → (q.placement.layerCount : Int) ≤ numGPU
  full : q.placement.layerCount = z.blocks.length + 1 → q.overflow = 0

theorem placeLayers_planned (gpus : List GpuInfo) (z : Sizes) (numGPU : Int) :
    ∃ q, placeLayers gpus z numGPU = some q ∧ Planned gpus z numGPU q := by
  have hstart : Blocks gpus z numGPU 0 (selectGpus gpus z) := blocks_selectGpus
  obtain ⟨p, hp, h⟩ := hstart.blocks z.blocks
  rw [Nat.zero_add] at h
  have hle := h.le
  have heach : ∀ g : Nat, g < gpus.length →
      p.layerCounts[g]? = some (p.placed.countP (fun e => e.2 = g) + if (none : Option Nat) =
      some g then 1 else 0) := by
    intro g hg
    rw [h.each g hg, if_neg nofun, Nat.add_zero]
  have hnot : p.layerCount ≠ z.blocks.length + 1 := by omega
  unfold placeLayers
  rw [hp, Option.bind_eq_bind, Option.bind_some]
  dsimp only
  split
  · rename_i hout
    rcases placeOutput_cases h.toWithin (le_refl p.gpusWithSpace.length) with ⟨hsame, -⟩ | ⟨k, -, g, hat, hfits, hadd⟩
    · rw [hsame, Option.bind_some, if_pos (by omega)]
      exact ⟨_, rfl, h.toWithin, ⟨_, hle, h.first⟩, h.gpu, ⟨none, heach⟩, Nat.le_succ_of_le hle, h.limit,
        fun heq => absurd heq hnot⟩
    · have hg : g < gpus.length := h.spaces g (List.mem_of_getElem? hat)
      rw [hadd, Option.bind_some]
      -- what is the same whether all blocks are placed or not
      have hplanned : ∀ fullyLoaded overflow, (p.layerCount = z.blocks.length → overflow = 0) →
          Planned gpus z numGPU ⟨p.add g z.memoryLayerOutput, fullyLoaded, overflow⟩ := by
        intro fullyLoaded overflow hoverflow
        refine ⟨h.toWithin.add hg hfits, ⟨p.layerCount, hle, h.first⟩, h.gpu, ⟨some g, fun g' hg' => ?_⟩,
          Nat.succ_le_succ hle, ?_, ?_⟩
        · show (p.layerCounts.modify g (· + 1))[g']? =
            some (p.placed.countP (fun e => e.2 = g') + if some g = some g' then 1 else 0)
          by_cases heq : g = g'
          · subst heq
            rw [List.getElem?_modify_eq, h.each g hg', if_pos rfl]
            rfl
          · rw [List.getElem?_modify_ne _ _ heq, h.each g' hg', if_neg (fun hc => heq (Option.some.inj hc)),
              Nat.add_zero]
        · intro hnonneg
          show ((p.layerCount + 1 : Nat) : Int) ≤ numGPU
          rcases hout.2 with hneg | hlt <;> omega
        · intro heq
          exact hoverflow (Nat.succ.inj heq)
      split
      · rename_i hlt
        refine ⟨_, rfl, hplanned _ _ (fun heq => ?_)⟩
        have : p.layerCount + 1 < z.blocks.length + 1 := hlt
        omega
      · refine ⟨_, rfl, hplanned _ _ (fun heq => ?_)⟩
        rw [heq, Nat.sub_self, Nat.zero_mul]
  · exact ⟨_, rfl, h.toWithin, ⟨_, hle, h.first⟩, h.gpu, ⟨none, heach⟩, Nat.le_succ_of_le hle, h.limit,
      fun heq => absurd heq hnot⟩

/-- The graph that is charged is no greater than the one that was reserved. -/
theorem Within.charged {q : Placed} (h : Within gpus z q.placement) {g : Nat} {gpu : GpuInfo} {allocation : Nat}
    (hgpu : gpus[g]? = some gpu) (hallocation : (q.gpuAllocations z)[g]? = some allocation)
    (hcount : q.placement.layerCounts[g]? ≠ some 0) :
    z.overhead + allocation ≤ gpu.freeMemory := by
  have hg := (List.getElem?_eq_some_iff.1 hgpu).1
  have hc := List.getElem?_eq_getElem (h.counts.symm ▸ hg)
  have ha := List.getElem?_eq_getElem (h.allocations.symm ▸ hg)
  unfold Placed.gpuAllocations at hallocation
  rw [List.getElem?_zipWith, hc, ha] at hallocation
  have hroom := h.room g gpu _ hgpu ha hcount
  have hgraph : q.graphOffload z ≤ z.graph := by
    unfold Placed.graphOffload Sizes.graph
    split
    · exact le_max_right ..
    · exact le_max_left ..
  have heq := Option.some.inj hallocation
  split at heq <;> omega

end MemoryAux

open MemoryAux

/-- What an estimate for a model promises, with the placement it comes of. -/
structure Bounds (gpus : List GpuInfo) (f : Ggml) (opts : Options) (overhead : Nat) (q : Placed)
    (allocations : List Nat) (e : MemoryEstimate) : Prop where
  /-- a GPU with a layer is not given more than it has -/
  memory : ∀ (g : Nat) (gpu : GpuInfo) (allocation : Nat), gpus[g]? = some gpu → allocations[g]? = some allocation →
    q.placement.layerCounts[g]? ≠ some 0 → overhead + allocation ≤ gpu.freeMemory
  /-- the blocks that are placed are the first ones, each on one GPU -/
  blocks : ∃ k, k ≤ f.blockCount ∧ q.placement.placed.map Prod.fst = List.range k
  onGpu : ∀ b ∈ q.placement.placed, b.2 < gpus.length
  /-- a GPU counts its blocks, and one of them the output -/
  counts : ∃ output : Option Nat, ∀ g : Nat, g < gpus.length →
    q.placement.layerCounts[g]? = some (q.placement.placed.countP (fun b => b.2 = g) + if output = some g then 1 else 0)
  sizes : e.layers ≠ 0 → e.gpuSizes = allocations
  split : e.layers ≠ 0 → e.layers = q.placement.layerCounts.sum ∧
    (1 < gpus.length → e.tensorSplit = ",".intercalate (q.placement.layerCounts.map toString))
  le : e.layers ≤ f.blockCount + 1
  limit : 0 ≤ opts.numGPU → (e.layers : Int) ≤ opts.numGPU
  full : e.layers = f.blockCount + 1 → e.vramSize = e.totalSize

/-- For every list of GPUs and every model there is an estimate: no index is out of range. The estimate keeps its bounds. -/
theorem estimate_within_bounds (gpu : GpuInfo) (rest : List GpuInfo) {f : Ggml} (hblocks : 1 ≤ f.blockCount)
    (projectors : List (Nat × Nat)) (opts : Options) (overhead : Nat) :
    ∃ z q e, z = sizes (gpu :: rest) gpu.library f projectors opts overhead ∧
      placeLayers (gpu :: rest) z opts.numGPU = some q ∧
      e = q.estimate (gpu :: rest) z gpu.library ∧ estimateGPULayers (gpu :: rest) f projectors opts overhead = some e ∧
      Bounds (gpu :: rest) f opts overhead q (q.gpuAllocations z) e := by
  generalize hz : sizes (gpu :: rest) gpu.library f projectors opts overhead = z
  have hoverhead : z.overhead = overhead := by
    rw [← hz]
    rfl
  have hlen : z.blocks.length = f.blockCount := by
    rw [← hz]
    simp [sizes]
  obtain ⟨q, hq, h⟩ := placeLayers_planned (gpu :: rest) z opts.numGPU
  refine ⟨z, q, q.estimate (gpu :: rest) z gpu.library, rfl, hq, rfl, ?_, ?_⟩
  · have hpos : f.blockCount ≠ 0 := by omega
    simp only [estimateGPULayers, List.head?_cons, Option.bind_eq_bind, Option.bind_some, if_neg hpos, hz, hq,
      Option.pure_def]
  · have hblocks' := h.first
    have hle := h.le
    rw [hlen] at hblocks' hle
    refine ⟨?_, hblocks', h.gpu, h.each, ?_, ?_, ?_, ?_, ?_⟩
    · intro g gpu' allocation hgpu hallocation hcount
      rw [← hoverhead]
      exact h.toWithin.charged hgpu hallocation hcount
    all_goals
      unfold Placed.estimate
      dsimp only
      split
    · exact fun hne => absurd rfl hne
    · split
      · exact fun hne => absurd rfl hne
      · exact fun _ => rfl
    · exact fun hne => absurd rfl hne
    · split
      · exact fun hne => absurd rfl hne
      · exact fun _ => ⟨h.sum.symm, fun hmany => if_pos hmany⟩
    · exact Nat.zero_le _
    · split
      · exact Nat.zero_le _
      · exact hle
    · exact id
    · split
      · exact id
      · exact h.limit
    · nofun
    · split
      · nofun
      · intro heq
        show (q.gpuAllocations z).sum = (q.gpuAllocations z).sum + q.overflow
        rw [h.full (heq.trans (congrArg (· + 1) hlen.symm)), Nat.add_zero]

/-- A model of two blocks and an output. -/
def twoBlocks : Ggml :=
  ⟨[⟨ascii "blk.0.a", 0, 0, [1], []⟩, ⟨ascii "blk.1.a", 0, 0, [1], []⟩, ⟨ascii "output.b", 0, 0, [1], []⟩], 2, 1,
    fun _ _ => (2, 1, 1), (0, 0)⟩

/-- The blocks and the output of the model all fit on two GPUs, of which the second has less memory. -/
theorem estimate_within_bounds_two : ∃ q e allocations,
    estimateGPULayers [⟨.cuda, 30, 3⟩, ⟨.cuda, 20, 3⟩] twoBlocks [] ⟨2048, 512, -1⟩ 0 = some e ∧ e.layers = 3 ∧
    e.vramSize = e.totalSize ∧ Bounds [⟨.cuda, 30, 3⟩, ⟨.cuda, 20, 3⟩] twoBlocks ⟨2048, 512, -1⟩ 0 q allocations e := by
  obtain ⟨z, q, e, _, _, _, he, h⟩ :=
    estimate_within_bounds ⟨.cuda, 30, 3⟩ [⟨.cuda, 20, 3⟩] (show 1 ≤ twoBlocks.blockCount by decide)
    [] ⟨2048, 512, -1⟩ 0
  have hlayers :
      (estimateGPULayers [⟨.cuda, 30, 3⟩, ⟨.cuda, 20, 3⟩] twoBlocks [] ⟨2048, 512, -1⟩ 0).map
        MemoryEstimate.layers = some 3 := by
    decide +kernel
  rw [he] at hlayers
  have h3 : e.layers = 3 := Option.some.inj hlayers
  exact ⟨q, e, q.gpuAllocations z, he, h3, h.full h3, h⟩

end Ollama.Llm
