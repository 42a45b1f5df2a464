import Ollama.Ggml.Gguf
import Mathlib.Data.Prod.Lex

/-!
# The order of tensors in a file

`WriteGGUF` means to write the blocks in their order and then what is in no block. The comparison it sorts by treats
block 0 and a tensor without a block as integers, 0 and -1, so that the latter is less: with a later block in the list
there is a cycle (`blocks_cycle`), and without one the tensor is written first. The order is the meant one exactly
when the list does not have both (`blocks_ordered_iff`).
-/

namespace Ollama.Ggml

open Lib

/-- The comparison is a strict weak ordering on the tensors, blocks are written in their order and before all tensors
without one, and tensors of one rank as they were given. -/
structure BlocksOrdered (sort : StableSort) (ts : List Tensor) : Prop where
  weak : StrictWeak compareBlocks ts
  blocks : (sort.run compareBlocks ts).Pairwise (fun t u => 0 ≤ u.block → 0 ≤ t.block ∧ t.block ≤ u.block)
  ties : ∀ n : Int, (sort.run compareBlocks ts).filter (fun t => t.block = n) = ts.filter (fun t => t.block = n)

/-- Some tensor is of block 0, and some of none. -/
def Mixed (ts : List Tensor) : Prop := (∃ t ∈ ts, t.block = 0) ∧ ∃ t ∈ ts, t.block < 0

/-! ## The comparison -/

theorem compareBlocks_eq_zero {t u : Tensor} : compareBlocks t u = 0 ↔ t.block = u.block := by
  constructor
  · intro h
    unfold compareBlocks at h
    dsimp only at h
    split_ifs at h <;> omega
  · intro h
    unfold compareBlocks
    dsimp only
    split_ifs <;> omega

/-- The place of a tensor: blocks first, in their order. -/
def Tensor.place (t : Tensor) : Int ×ₗ Int := toLex (if t.block < 0 then 1 else 0, t.block)

/-- Of two tensors that are not of block 0 and of none, the comparison is that of their places. -/
theorem compareBlocks_lt {t u : Tensor} (htu : ¬(t.block = 0 ∧ u.block < 0)) (hut : ¬(u.block = 0 ∧ t.block < 0)) :
    (compareBlocks t u < 0 ↔ t.place < u.place) ∧ (0 < compareBlocks t u ↔ u.place < t.place) := by
  simp only [Tensor.place, Prod.Lex.toLex_lt_toLex]
  unfold compareBlocks
  dsimp only
  constructor <;> split_ifs <;> omega

/-- Without both there is a strict weak ordering. -/
theorem compareBlocks_strictWeak {ts : List Tensor} (h : ¬Mixed ts) : StrictWeak compareBlocks ts := by
  have hpair : ∀ t ∈ ts, ∀ u ∈ ts, ¬(t.block = 0 ∧ u.block < 0) :=
    fun t ht u hu hmixed => h ⟨⟨t, ht, hmixed.1⟩, u, hu, hmixed.2⟩
  refine StrictWeak.of_key Tensor.place ?_ ?_
  · intro t ht u hu
    exact (compareBlocks_lt (hpair t ht u hu) (hpair u hu t ht)).1
  · intro t ht u hu
    exact (compareBlocks_lt (hpair t ht u hu) (hpair u hu t ht)).2

/-- A list with both has a tensor of no block that is less than one of block 0. -/
theorem compareBlocks_mixed {t u : Tensor} (ht : t.block = 0) (hu : u.block < 0) : compareBlocks u t < 0 := by
  unfold compareBlocks
  dsimp only
  split_ifs <;> omega

/-! ## The order -/

/-- Of any stable sort: the blocks are written in their order and before all tensors without a block, the comparison
being a strict weak ordering, exactly when the list does not have both a tensor of block 0 and one without a block. -/
theorem blocks_ordered_iff {sort : StableSort} (hsort : sort.Lawful) (ts : List Tensor) :
    BlocksOrdered sort ts ↔ ¬Mixed ts := by
  have hmem : ∀ t, t ∈ sort.run compareBlocks ts ↔ t ∈ ts := fun t => (sort.perm compareBlocks ts).mem_iff
  constructor
  · rintro h ⟨⟨t, ht, hzero⟩, u, hu, hneg⟩
    have hsorted := hsort.sorted compareBlocks ts h.weak
    have hboth := List.pairwise_iff_getElem.1 (hsorted.and h.blocks)
    obtain ⟨i, hi, hti⟩ := List.getElem_of_mem ((hmem t).2 ht)
    obtain ⟨j, hj, huj⟩ := List.getElem_of_mem ((hmem u).2 hu)
    rcases Nat.lt_trichotomy i j with hij | rfl | hij
    · -- The tensor of block 0 is not before one that is less.
      have := (hboth i j hi hj hij).1
      rw [hti, huj] at this
      exact this (compareBlocks_mixed hzero hneg)
    · rw [hti] at huj
      rw [huj] at hzero
      omega
    · have := (hboth j i hj hi hij).2
      rw [hti, huj] at this
      have := this (by omega)
      omega
  · intro h
    have hweak := compareBlocks_strictWeak h
    refine ⟨hweak, ?_, ?_⟩
    · refine (hsort.sorted compareBlocks ts hweak).imp_of_mem ?_
      intro t u ht hu hle hblock
      have hnot : ¬(u.block = 0 ∧ t.block < 0) :=
        fun hmixed => h ⟨⟨u, (hmem u).1 hu, hmixed.1⟩, t, (hmem t).1 ht, hmixed.2⟩
      unfold compareBlocks at hle
      dsimp only at hle
      split_ifs at hle <;> omega
    · intro n
      by_cases hn : ∃ t ∈ ts, t.block = n
      · obtain ⟨t, ht, rfl⟩ := hn
        have := hsort.ties compareBlocks ts hweak t ht
        simp only [compareBlocks_eq_zero] at this
        simpa only [eq_comm (b := t.block)] using this
      · have hnone : ∀ l : List Tensor, (∀ t ∈ l, t ∈ ts) → l.filter (fun t => t.block = n) = [] := by
          intro l hl
          rw [List.filter_eq_nil_iff]
          intro t ht hblock
          exact hn ⟨t, hl t ht, of_decide_eq_true hblock⟩
        rw [hnone _ (fun t ht => (hmem t).1 ht), hnone _ (fun _ ht => ht)]

/-- A tensor of a name, without data. -/
def named (name : String) : Tensor := { name := ascii name, kind := 0, shape := [] }

/-- Blocks 2 and 1 and a tensor without a block. -/
theorem blocks_ordered_three :
    BlocksOrdered insertionSort [named "blk.2.w", named "output", named "blk.1.w"] ∧
      (insertionSort.run compareBlocks [named "blk.2.w", named "output", named "blk.1.w"]).map Tensor.name =
        [ascii "blk.1.w", ascii "blk.2.w", ascii "output"] := by
  refine ⟨(blocks_ordered_iff insertionSort_lawful _).2 ?_, by decide +kernel⟩
  rintro ⟨⟨t, ht, hzero⟩, -⟩
  have hnone : ∀ t ∈ [named "blk.2.w", named "output", named "blk.1.w"], t.block ≠ 0 := by decide +kernel
  exact hnone t ht hzero

/-- `output` is less than block 0, block 0 than block 1, and block 1 than `output`. -/
theorem blocks_cycle : ¬∀ (sort : StableSort) (ts : List Tensor), sort.Lawful → BlocksOrdered sort ts := by
  intro h
  have hweak := (h insertionSort [named "output", named "blk.0.w", named "blk.1.w"] insertionSort_lawful).weak
  have := hweak.trans (named "output") (by simp) (named "blk.0.w") (by simp) (named "blk.1.w") (by simp)
    (by decide +kernel)
    (by decide +kernel)
  exact absurd this (by decide +kernel)

end Ollama.Ggml
