import Mathlib.Data.List.MinMax
import Mathlib.Logic.Relation

/-!
# Merging neighbours by rank

A list of parts, of which two neighbours may have a rank. `MergeStep` merges some neighbours of the least rank, and
`mergeAll` the leftmost ones, until no neighbours have a rank. Which of the neighbours of the least rank are merged
can decide what is left in the end; `Canonical` says of a list that it does not.
-/

namespace Ollama.Lib

variable {α : Type} (rank : List α → List α → Option Nat)

/-- The ranks of all neighbours. -/
def ranks : List (List α) → List Nat
  | x :: y :: parts => (rank x y).toList ++ ranks (y :: parts)
  | _ => []

/-- The leftmost neighbours of a rank are merged. -/
def mergeFirst (k : Nat) : List (List α) → List (List α)
  | x :: y :: parts => if rank x y = some k then (x ++ y) :: parts else x :: mergeFirst k (y :: parts)
  | parts => parts

/-- The leftmost neighbours of the least rank are merged, so many times or until there are none. -/
def mergeTimes : Nat → List (List α) → List (List α)
  | 0, parts => parts
  | n + 1, parts =>
    match (ranks rank parts).min? with
    | none => parts
    | some k => mergeTimes n (mergeFirst rank k parts)

/-- The leftmost neighbours of the least rank are merged until there are none. -/
def mergeAll (parts : List (List α)) : List (List α) := mergeTimes rank parts.length parts

/-- Some neighbours of the least rank are merged. -/
def MergeStep (parts parts' : List (List α)) : Prop :=
  ∃ l x y r k, parts = l ++ x :: y :: r ∧ rank x y = some k ∧ (∀ k' ∈ ranks rank parts, k ≤ k') ∧
    parts' = l ++ (x ++ y) :: r

/-- The leftmost neighbours of the least rank are merged. -/
def LeftmostStep (parts parts' : List (List α)) : Prop :=
  ∃ l x y r k, parts = l ++ x :: y :: r ∧ rank x y = some k ∧ (∀ k' ∈ ranks rank parts, k ≤ k') ∧
    (∀ l' x' y' r', parts = l' ++ x' :: y' :: r' → rank x' y' = some k → l.length ≤ l'.length) ∧
    parts' = l ++ (x ++ y) :: r

/-- Whichever neighbours of the least rank are merged, the same is left in the end. -/
def Canonical (parts : List (List α)) : Prop :=
  ∀ parts', Relation.ReflTransGen (MergeStep rank) parts parts' → ranks rank parts' = [] → parts' = mergeAll rank parts

variable {rank} {parts parts' : List (List α)} {k : Nat}

/-! ## Ranks -/

theorem mem_ranks_iff : k ∈ ranks rank parts ↔ ∃ l x y r, parts = l ++ x :: y :: r ∧ rank x y = some k := by
  induction parts with
  | nil =>
    constructor
    · exact fun h => (List.not_mem_nil h).elim
    · rintro ⟨l, x, y, r, h, _⟩
      simp at h
  | cons x parts ih =>
    cases parts with
    | nil =>
      constructor
      · exact fun h => (List.not_mem_nil h).elim
      · rintro ⟨l, x', y, r, h, _⟩
        have := congrArg List.length h
        simp only [List.length_append, List.length_cons, List.length_nil] at this
        omega
    | cons y parts =>
      rw [ranks, List.mem_append, Option.mem_toList, ih]
      constructor
      · rintro (h | ⟨l, x', y', r, h, hrank⟩)
        · exact ⟨[], x, y, parts, rfl, h⟩
        · exact ⟨x :: l, x', y', r, by rw [h, List.cons_append], hrank⟩
      · rintro ⟨l, x', y', r, h, hrank⟩
        cases l with
        | nil =>
          rw [List.nil_append, List.cons.injEq, List.cons.injEq] at h
          obtain ⟨rfl, rfl, _⟩ := h
          exact Or.inl hrank
        | cons z l => exact Or.inr ⟨l, x', y', r, (List.cons.inj h).2, hrank⟩

theorem ranks_eq_nil_iff : ranks rank parts = [] ↔ ∀ l x y r, parts = l ++ x :: y :: r → rank x y = none := by
  rw [List.eq_nil_iff_forall_not_mem]
  constructor
  · intro h l x y r hparts
    rcases hrank : rank x y with _ | k
    · rfl
    · exact (h k (mem_ranks_iff.2 ⟨l, x, y, r, hparts, hrank⟩)).elim
  · rintro h k hk
    obtain ⟨l, x, y, r, hparts, hrank⟩ := mem_ranks_iff.1 hk
    rw [h l x y r hparts] at hrank
    nomatch hrank

/-- What is merged where there are neighbours of a rank. -/
theorem mergeFirst_spec (h : k ∈ ranks rank parts) : ∃ l x y r, parts = l ++ x :: y :: r ∧ rank x y = some k ∧
    (∀ l' x' y' r', parts = l' ++ x' :: y' :: r' → rank x' y' = some k → l.length ≤ l'.length) ∧
    mergeFirst rank k parts = l ++ (x ++ y) :: r := by
  induction parts with
  | nil => exact (List.not_mem_nil h).elim
  | cons x parts ih =>
    cases parts with
    | nil => exact (List.not_mem_nil h).elim
    | cons y parts =>
      rw [mergeFirst]
      by_cases hfirst : rank x y = some k
      · exact ⟨[], x, y, parts, rfl, hfirst, fun _ _ _ _ _ _ => Nat.zero_le _, if_pos hfirst⟩
      · rw [if_neg hfirst]
        rw [ranks, List.mem_append, Option.mem_toList] at h
        obtain ⟨l, x', y', r, hparts, hrank, hleft, hmerge⟩ := ih (h.resolve_left hfirst)
        refine ⟨x :: l, x', y', r,
          by rw [hparts, List.cons_append], hrank, fun l' a b r' hsplit hab => ?_, by rw [hmerge, List.cons_append]⟩
        cases l' with
        | nil =>
          rw [List.nil_append, List.cons.injEq, List.cons.injEq] at hsplit
          obtain ⟨rfl, rfl, _⟩ := hsplit
          exact (hfirst hab).elim
        | cons z l' => exact Nat.succ_le_succ (hleft l' a b r' (List.cons.inj hsplit).2 hab)

theorem length_mergeFirst (h : k ∈ ranks rank parts) : (mergeFirst rank k parts).length + 1 = parts.length := by
  obtain ⟨l, x, y, r, hparts, _, _, hmerge⟩ := mergeFirst_spec h
  rw [hmerge, hparts]
  simp only [List.length_append, List.length_cons]
  omega

/-! ## Merging from the left -/

/-- A step from the left is that of `mergeAll`. -/
theorem LeftmostStep.eq_mergeFirst (h : LeftmostStep rank parts parts') :
    ∃ k, (ranks rank parts).min? = some k ∧ parts' = mergeFirst rank k parts := by
  obtain ⟨l, x, y, r, k, hparts, hrank, hleast, hleft, rfl⟩ := h
  have hmem : k ∈ ranks rank parts := mem_ranks_iff.2 ⟨l, x, y, r, hparts, hrank⟩
  refine ⟨k, List.min?_eq_some_iff.2 ⟨hmem, hleast⟩, ?_⟩
  obtain ⟨l', x', y', r', hparts', hrank', hleft', hmerge⟩ := mergeFirst_spec hmem
  have hlength : l.length = l'.length :=
    Nat.le_antisymm (hleft l' x' y' r' hparts' hrank') (hleft' l x y r hparts hrank)
  obtain ⟨rfl, hrest⟩ := List.append_inj (hparts.symm.trans hparts') hlength
  rw [List.cons.injEq, List.cons.injEq] at hrest
  obtain ⟨rfl, rfl, rfl⟩ := hrest
  exact hmerge.symm

theorem mergeAll_of_nil (h : ranks rank parts = []) : mergeAll rank parts = parts := by
  rw [mergeAll]
  cases parts.length with
  | zero => rfl
  | succ n => rw [mergeTimes, h, List.min?_nil]

/-- A step from the left does not change what is left in the end. -/
theorem mergeAll_step (h : LeftmostStep rank parts parts') : mergeAll rank parts = mergeAll rank parts' := by
  obtain ⟨k, hmin, rfl⟩ := h.eq_mergeFirst
  have hlength := length_mergeFirst (List.min?_eq_some_iff.1 hmin).1
  rw [mergeAll, ← hlength, mergeTimes, hmin, mergeAll]

/-- What is left when the leftmost neighbours are merged. -/
theorem eq_mergeAll_of_leftmost (h : Relation.ReflTransGen (LeftmostStep rank) parts parts')
    (hlast : ranks rank parts' = []) :
    parts' = mergeAll rank parts := by
  induction h using Relation.ReflTransGen.head_induction_on with
  | refl => exact (mergeAll_of_nil hlast).symm
  | head hstep _ ih => rw [mergeAll_step hstep, ← ih]

end Ollama.Lib
