import Mathlib.Logic.Function.Basic
import Mathlib.Tactic.Common
import Mathlib.Data.UInt

/-!
# Block copies between rows

A tensor seen as its rows is a function from locations to rows. A `Move` copies a block of consecutive rows to another
place, and a list of moves is carried out in order. Where the row at each location comes from does not depend on the
rows: it is `pull`, what the moves leave in the tensor whose row at each location is the location itself
(`applyMoves_eq`).
-/

namespace Ollama.Lib

/-- A copy of `len` rows from location `src` on to location `dst` on. -/
structure Move where
  src : Nat
  dst : Nat
  len : Nat
  deriving DecidableEq, Repr

/-- What a copy leaves in the rows of one tensor. -/
def Move.rows {α : Type*} (m : Move) (f : Nat → α) : Nat → α :=
  fun j => if m.dst ≤ j ∧ j < m.dst + m.len then f (m.src + (j - m.dst)) else f j

/-- What a list of copies, carried out in order, leaves in the rows of one tensor. -/
def applyMoves {α : Type*} (q : List Move) (f : Nat → α) : Nat → α := q.foldl (fun f m => m.rows f) f

/-- The location whose row a list of copies leaves at each location. -/
def pull (q : List Move) : Nat → Nat := applyMoves q id

/-- The rows of a batch, copied from location `loc` on. -/
def putRows {α : Type*} (rows : List α) (loc : Nat) (f : Nat → α) : Nat → α :=
  fun j => if loc ≤ j then (rows[j - loc]?).getD (f j) else f j

variable {α : Type*}

@[simp] theorem applyMoves_nil (f : Nat → α) : applyMoves [] f = f := rfl

@[simp] theorem applyMoves_append (p q : List Move) (f : Nat → α) :
    applyMoves (p ++ q) f = applyMoves q (applyMoves p f) := by
  simp [applyMoves]

/-- Copying rows and reading them is reading the rows at the locations they come from. -/
theorem Move.rows_comp (m : Move) (f : Nat → α) (g : Nat → Nat) : m.rows (f ∘ g) = f ∘ m.rows g := by
  funext j
  simp only [Move.rows, Function.comp]
  split <;> rfl

theorem applyMoves_comp (q : List Move) (f : Nat → α) (g : Nat → Nat) : applyMoves q (f ∘ g) = f ∘ applyMoves q g := by
  induction q generalizing g with
  | nil => rfl
  | cons m q ih =>
    simp only [applyMoves, List.foldl_cons] at ih ⊢
    rw [Move.rows_comp]
    exact ih _

/-- The rows a list of copies leaves are the old rows at the locations `pull` names. -/
theorem applyMoves_eq (q : List Move) (f : Nat → α) : applyMoves q f = f ∘ pull q := applyMoves_comp q f id

@[simp] theorem pull_nil (j : Nat) : pull [] j = j := rfl

/-- One more copy, outside the block it writes. -/
theorem pull_snoc_of_not_mem (q : List Move) (m : Move) (j : Nat) (h : ¬(m.dst ≤ j ∧ j < m.dst + m.len)) :
    pull (q ++ [m]) j = pull q j := by
  simp only [pull, applyMoves_append]
  simp only [applyMoves, List.foldl_cons, List.foldl_nil, Move.rows, if_neg h]

/-- One more copy, in the block it writes. -/
theorem pull_snoc_of_mem (q : List Move) (m : Move) (j : Nat) (h : m.dst ≤ j ∧ j < m.dst + m.len) :
    pull (q ++ [m]) j = pull q (m.src + (j - m.dst)) := by
  simp only [pull, applyMoves_append]
  simp only [applyMoves, List.foldl_cons, List.foldl_nil, Move.rows, if_pos h]

/-- The rows of a batch where the batch is. -/
theorem putRows_of_mem (rows : List α) (loc : Nat) (f : Nat → α) (i : Nat) (h : i < rows.length) :
    putRows rows loc f (loc + i) = rows[i] := by
  simp [putRows, List.getElem?_eq_getElem h]

/-- The rows outside a batch stay as they were. -/
theorem putRows_of_not_mem (rows : List α) (loc : Nat) (f : Nat → α) (j : Nat)
    (h : j < loc ∨ loc + rows.length ≤ j) : putRows rows loc f j = f j := by
  unfold putRows
  split
  · rw [List.getElem?_eq_none (by omega)]
    rfl
  · rfl

/-! ## Tables -/

/-- A row of `n` entries for each of `xs`, laid end to end. -/
def table {ρ : Type*} (xs : List ρ) (n : Nat) (f : ρ → Nat → α) : List α :=
  (xs.map (fun x => (List.range n).map (f x))).flatten

variable {ρ : Type*}

theorem table_cons (x : ρ) (xs : List ρ) (n : Nat) (f : ρ → Nat → α) :
    table (x :: xs) n f = (List.range n).map (f x) ++ table xs n f := rfl

@[simp] theorem length_table (xs : List ρ) (n : Nat) (f : ρ → Nat → α) : (table xs n f).length = xs.length * n := by
  induction xs with
  | nil => simp [table]
  | cons x xs ih =>
    rw [table_cons, List.length_append, ih, List.length_map, List.length_range, List.length_cons, Nat.add_mul,
      Nat.one_mul, Nat.add_comm]

/-- The entry of row `i` and column `j`. -/
theorem table_getElem? (xs : List ρ) (n : Nat) (f : ρ → Nat → α) (i j : Nat) (hi : i < xs.length) (hj : j < n) :
    (table xs n f)[i * n + j]? = some (f xs[i] j) := by
  induction xs generalizing i with
  | nil => simp at hi
  | cons x xs ih =>
    rw [table_cons]
    cases i with
    | zero =>
      rw [Nat.zero_mul, Nat.zero_add, List.getElem?_append_left (by simpa using hj)]
      simp [hj]
    | succ i =>
      have hidx : (i + 1) * n + j = n + (i * n + j) := by
        rw [Nat.add_mul, Nat.one_mul]
        omega
      simp only [List.length_cons, Nat.add_lt_add_iff_right] at hi
      rw [hidx, List.getElem?_append_right (by simp), List.length_map, List.length_range,
        Nat.add_sub_cancel_left, ih i hi, List.getElem_cons_succ]

end Ollama.Lib
