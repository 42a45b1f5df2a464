import Ollama.Kvcache.Lemmas.Invariant

/-!
# The map a cache is for

For its users a cache is a map from sequences and positions to rows: a batch adds entries, `CopyPrefix` makes one
sequence the beginning of another, and `Remove` cuts a block out of a sequence and moves what follows down, with its
keys rotated to their new positions. `KvMap` and its operations say this without locations; `Causal.view` reads the
map off a cache.

A row has a key and a value in each of the `n` layers of a model. A layer that holds no tensors yet reads as zero, as
it does once `Put` has made them.
-/

namespace Ollama.Kvcache

/-- The rows of every sequence, by position. -/
abbrev KvMap (ρ : Type) := Int → Int → Option ρ

namespace KvMap

variable {ρ : Type}

/-- The map without entries. -/
def empty : KvMap ρ := fun _ _ => none

/-- The entries of a batch of positions and sequences, whose `i`-th row is `row i`, in front of those of the map. -/
def add (batch : List (Int × Int)) (row : Nat → ρ) (m : KvMap ρ) : KvMap ρ := fun s p =>
  match batch.findIdx? (fun x => x = (p, s)) with
  | some i => some (row i)
  | none => m s p

/-- `dst` becomes the part of `src` below position `len`. -/
def copyPrefix (src dst len : Int) (m : KvMap ρ) : KvMap ρ := fun s p =>
  if s = dst then if p < len then m src p else none else m s p

/-- The positions from `b` up to `e` are cut out of `seq`. What follows moves down by `e - b`, rotated, unless the
removal has no end. -/
def remove (rotate : ρ → ρ) (seq b e : Int) (m : KvMap ρ) : KvMap ρ := fun s p =>
  if s = seq then
    if p < b then m s p
    else if e = maxInt32 then if p < e then none else m s p
    else (m s (p + (e - b))).map rotate
  else
    m s p

end KvMap

variable {κ ν : Type}

/-- A key and a value in each of `n` layers. -/
abbrev Row (n : Nat) (κ ν : Type) := Fin n → κ × ν

/-- Whether a layer holds tensors. -/
def Causal.stored (c : Causal κ ν) (i : Nat) : Bool := (c.layers[i]?).join.isSome

/-- The row moved by `off` positions: its keys are rotated in the layers that hold any. -/
def Causal.rotateRow {n : Nat} (c : Causal κ ν) (off : Int) (r : Row n κ ν) : Row n κ ν := fun i =>
  match c.shiftFn with
  | some f => if c.stored i then (f i (r i).1 off, (r i).2) else r i
  | none => r i

section View

variable [Zero κ] [Zero ν]

/-- The tensors of a layer, zero where it holds none. -/
def Causal.layer (c : Causal κ ν) (i : Nat) : Layer κ ν := (c.layers[i]?).join.getD ⟨fun _ => 0, fun _ => 0⟩

/-- The row at a location. -/
def Causal.row (n : Nat) (c : Causal κ ν) (j : Nat) : Row n κ ν := fun i => ((c.layer i).key j, (c.layer i).value j)

/-- The map a cache holds: a sequence has at a position the row of a location that references the sequence there. -/
def Causal.view (n : Nat) (c : Causal κ ν) : KvMap (Row n κ ν) := fun s p =>
  ((List.range c.cells.length).find? (fun j => s ∈ (c.cell j).sequences ∧ (c.cell j).pos = p)).map (c.row n)

/-! ## The calls of a user -/

/-- `SetLayer` and `Put` for each layer from `i` on. -/
def Causal.putLayers : List (List (κ × ν)) → Nat → Causal κ ν → Option (Causal κ ν)
  | [], _, c => some c
  | rows :: rest, i, c => ((c.setLayer i).put rows).bind (Causal.putLayers rest (i + 1))

/-- A forward pass: `StartForward`, and `Put` for each layer when it succeeds. -/
def Causal.forward (ctx : Ctx) (positions seqs : List Int) (rows : List (List (κ × ν))) (c : Causal κ ν) :
    Outcome κ ν :=
  match c.startForward ctx positions seqs with
  | some (c', none) => (c'.putLayers rows 0).map (·, none)
  | out => out

/-- The row `i` of a batch given layer by layer. -/
def batchRow (n : Nat) (rows : List (List (κ × ν))) (i : Nat) : Row n κ ν :=
  fun l => ((rows[l.val]?).bind (·[i]?)).getD (0, 0)

/-- What a user of the cache calls. -/
inductive Call (κ ν : Type) where
  | forward (ctx : Ctx) (positions seqs : List Int) (rows : List (List (κ × ν)))
  | copyPrefix (srcSeq dstSeq len : Int)
  | remove (ctx : Ctx) (seq beginIndex endIndex : Int)

/-- The call on a cache. -/
def Call.run (c : Causal κ ν) : Call κ ν → Outcome κ ν
  | .forward ctx positions seqs rows => c.forward ctx positions seqs rows
  | .copyPrefix srcSeq dstSeq len => some (c.copyPrefix srcSeq dstSeq len, none)
  | .remove ctx seq b e => c.remove ctx seq b e

/-- The call on the map of a cache, when it succeeds. -/
def Call.apply (n : Nat) (c : Causal κ ν) (m : KvMap (Row n κ ν)) : Call κ ν → KvMap (Row n κ ν)
  | .forward _ positions seqs rows => m.add (positions.zip seqs) (batchRow n rows)
  | .copyPrefix srcSeq dstSeq len => m.copyPrefix srcSeq dstSeq len
  | .remove _ seq b e => m.remove (c.rotateRow (b - e)) seq b e

/-- The sequences a call is about. -/
def Call.seqs : Call κ ν → List Int
  | .forward _ positions seqs _ => seqs.take positions.length
  | .copyPrefix _ dstSeq _ => [dstSeq]
  | .remove _ seq _ _ => [seq]

/-- What is asked of a call: a batch has `int32` positions, rows for every layer and a place without defragmentation,
a prefix is copied to another sequence, and a removal is of a block of positions. -/
def Call.Admitted (n : Nat) (c : Causal κ ν) : Call κ ν → Prop
  | .forward _ positions _ rows =>
    (∀ p ∈ positions, IsInt32 p) ∧ rows.length = n ∧ { c with curBatchSize := positions.length }.findStartLoc ≠ none
  | .copyPrefix srcSeq dstSeq _ => srcSeq ≠ dstSeq
  | .remove _ _ b e => 0 ≤ b ∧ b ≤ e ∧ e ≤ maxInt32

/-- The positions of every sequence are distinct. -/
def Causal.Distinct (c : Causal κ ν) : Prop :=
  ∀ s j j', s ∈ (c.cell j).sequences → s ∈ (c.cell j').sequences → (c.cell j).pos = (c.cell j').pos → j = j'

omit [Zero κ] [Zero ν] in
/-- Only locations of the cache need to be looked at. -/
theorem distinct_iff (c : Causal κ ν) : c.Distinct ↔ ∀ j < c.cells.length, ∀ j' < c.cells.length,
    ∀ s ∈ (c.cell j).sequences, s ∈ (c.cell j').sequences → (c.cell j).pos = (c.cell j').pos → j = j' := by
  constructor
  · intro h j _ j' _ s h1 h2 h3
    exact h s j j' h1 h2 h3
  · intro h s j j' h1 h2 h3
    exact h j (lt_length_of_mem h1) j' (lt_length_of_mem h2) s h1 h2 h3

instance (c : Causal κ ν) : Decidable c.Distinct := decidable_of_iff _ (distinct_iff c).symm

/-- A step of a run: an admitted call, with or without an error, that leaves positions distinct. -/
def Call.Step (n : Nat) (call : Call κ ν) (err : Option Err) (c c' : Causal κ ν) : Prop :=
  call.Admitted n c ∧ call.run c = some (c', err) ∧ c'.Distinct

/-- The runs of a cache with a given shift function. -/
def mapSystem (n : Nat) (shiftFn : Option (Nat → κ → Int → κ)) : Lib.System (Causal κ ν) where
  init c := ∃ windowSize config capacity, IsInt32 windowSize ∧ Causal.init windowSize shiftFn config capacity = some c
  step c c' := ∃ (call : Call κ ν) (err : Option Err), call.Step n err c c'

end View

end Ollama.Kvcache
