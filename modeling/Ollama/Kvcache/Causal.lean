import Ollama.Lib.Rows
import Ollama.Lib.System
import Mathlib.Algebra.Group.Defs

/-!
# The causal KV cache

The cache of `kvcache/causal.go`: a fixed number of locations, each with a position and the sequences that share it,
the range of locations of every sequence, and for every layer a tensor of keys and one of values with a row at each
location.

Rows are values of two arbitrary types (`κ` for keys, `ν` for values). What the backend does with them is what the
source relies on: a copy between two views of `len` rows copies these rows in order, whether the values are stored by
row or permuted (`PermutedV`), and a tensor made by `Zeros` has the zero row everywhere. Tensor operations handed to
`Forward` take effect at the next `Compute` of their context. A call that panics has no outcome (`none`).
-/

namespace Ollama.Kvcache

open Lib

/-- `math.MaxInt32`, the end of a removal that has no end. -/
def maxInt32 : Int := 2 ^ 31 - 1

/-- `math.MaxInt`, the least location of a range that holds none. -/
def maxInt : Nat := 2 ^ 63 - 1

/-- The result of an operation on `int32` values, reduced as the machine does. -/
def int32 (x : Int) : Int := x.bmod (2 ^ 32)

/-- The values an `int32` takes. -/
def IsInt32 (x : Int) : Prop := -2 ^ 31 ≤ x ∧ x < 2 ^ 31

instance (x : Int) : Decidable (IsInt32 x) := inferInstanceAs (Decidable (_ ∧ _))

/-- The errors of the cache, and the ones its backend hands on. -/
inductive Err where
  | kvCacheFull (capacity : Nat)
  | notSupported
  | sharedCells
  | backend (text : String)
  deriving DecidableEq, Repr

/-- The text of an error. -/
def Err.text : Err → String
  | .kvCacheFull n => "could not find a kv cache slot (length: " ++ toString n ++ ")"
  | .notSupported => "model does not support operation"
  | .sharedCells => "shifting on cells shared by multiple sequences not yet implemented"
  | .backend t => t

/-- `cacheCell`: a position and the sequences that reference the data of the location. -/
structure CacheCell where
  pos : Int := 0
  sequences : List Int := []
  deriving DecidableEq, Repr

/-- A location no sequence references. -/
def CacheCell.empty (c : CacheCell) : Bool := c.sequences.isEmpty

/-- The cell at a location. -/
def cellAt (cells : List CacheCell) (i : Nat) : CacheCell := cells.getD i {}

/-- `cellRange`: the least and the greatest location of a sequence. -/
structure CellRange where
  min : Nat
  max : Nat
  deriving DecidableEq, Repr

/-- The range of a sequence that has no location. -/
def newRange : CellRange := ⟨maxInt, 0⟩

/-- The range with one more location. -/
def CellRange.extend (r : CellRange) (i : Nat) : CellRange :=
  ⟨if i < r.min then i else r.min, if i > r.max then i else r.max⟩

/-- The least range that covers both, as the batch's range takes in a sequence's. -/
def CellRange.join (r s : CellRange) : CellRange :=
  ⟨if s.min < r.min then s.min else r.min, if s.max > r.max then s.max else r.max⟩

/-- `ml.CacheConfig`, as far as it decides a location or a mask entry. -/
structure CacheConfig where
  cachePadding : Nat := 0
  maskBatchPadding : Nat := 0
  deriving DecidableEq, Repr

/-- What the backend answers during one call: the number of tensors a context holds, and the errors, if any, of
`FromFloatSlice`, of `FromIntSlice` and of the shift function at each layer. -/
structure Ctx where
  maxTensors : Nat := 0
  floatErr : Option Err := none
  intErr : Option Err := none
  shiftErr : Nat → Option Err := fun _ => none

/-- An entry of a mask: `0` or `-Inf`. -/
inductive MaskVal where
  | zero | negInf
  deriving DecidableEq, Repr

/-- The mask tensor: `batchSize` rows of `length` entries, row by row. -/
structure Mask where
  length : Nat := 0
  batchSize : Nat := 0
  data : List MaskVal := []
  deriving DecidableEq, Repr

/-- The entry of row `i` and column `j` of a mask. -/
def Mask.at (m : Mask) (i j : Nat) : Option MaskVal := m.data[i * m.length + j]?

/-- The tensors of one layer: the key row and the value row of every location. -/
structure Layer (κ ν : Type) where
  key : Nat → κ
  value : Nat → ν

/-- What a copy leaves in the tensors of one layer. -/
def Layer.move {κ ν : Type} (l : Layer κ ν) (m : Move) : Layer κ ν := ⟨m.rows l.key, m.rows l.value⟩

/-- The tensors of the layers: none where nothing has been stored yet. -/
abbrev Layers (κ ν : Type) := List (Option (Layer κ ν))

/-- `Compute`: the copies handed to `Forward` since the last one, in order, on every layer that holds keys. -/
def compute {κ ν : Type} (queue : List Move) (ls : Layers κ ν) : Layers κ ν :=
  ls.map (Option.map (fun l => queue.foldl Layer.move l))

/-- `Causal`. -/
structure Causal (κ ν : Type) where
  capacity : Nat
  windowSize : Int
  config : CacheConfig
  curLayer : Nat := 0
  curLoc : Nat := 0
  curBatchSize : Nat := 0
  curMask : Mask := {}
  curCellRange : CellRange := ⟨0, 0⟩
  cells : List CacheCell
  cellRanges : Int → Option CellRange := fun _ => none
  shiftFn : Option (Nat → κ → Int → κ)
  layers : Layers κ ν := []

/-- What a call leaves: the cache and the error it returns, or nothing when it panics. -/
abbrev Outcome (κ ν : Type) := Option (Causal κ ν × Option Err)

variable {κ ν : Type}

def roundDown (length pad : Nat) : Nat := length / pad * pad

def roundUp (length pad : Nat) : Nat := (length + pad - 1) / pad * pad

/-- `Init` on a cache made by `NewCausalCache` or `NewSWACache`. A capacity that rounds to more than an `int32` makes `make`
panic. -/
def Causal.init (windowSize : Int) (shiftFn : Option (Nat → κ → Int → κ)) (config : CacheConfig) (capacity : Nat) :
    Option (Causal κ ν) :=
  let config : CacheConfig :=
    { cachePadding := if config.cachePadding = 0 then 1 else config.cachePadding
      maskBatchPadding := if config.maskBatchPadding = 0 then 1 else config.maskBatchPadding }
  let capacity := roundUp capacity config.cachePadding
  if capacity < 2 ^ 31 then
    some { capacity, windowSize, config, shiftFn, cells := List.replicate capacity {} }
  else
    none

/-- The cell at a location of the cache. -/
def Causal.cell (c : Causal κ ν) (i : Nat) : CacheCell := cellAt c.cells i

/-! ## StartForward -/

/-- The loop of `findStartLoc` from location `i` on. -/
def findStartLocFrom (batch : Nat) : List CacheCell → Nat → Nat → Nat → Option Nat
  | [], _, _, _ => none
  | cell :: rest, i, start, count =>
    if cell.empty then
      if count + 1 ≥ batch then some start else findStartLocFrom batch rest (i + 1) start (count + 1)
    else
      findStartLocFrom batch rest (i + 1) (i + 1) 0

/-- `findStartLoc`: the first block of at least `curBatchSize` empty locations, none where the source returns
`ErrKvCacheFull`. -/
def Causal.findStartLoc (c : Causal κ ν) : Option Nat := findStartLocFrom c.curBatchSize c.cells 0 0 0

/-- `buildMask`, after the ends of the range are rounded: panics on a padding of 0 and where the range leaves the
cells or has a negative length. -/
def Causal.buildMask (c : Causal κ ν) (batch : List (Int × Int)) : Option (Causal κ ν) :=
  let batchSize := roundUp c.curBatchSize c.config.maskBatchPadding
  let lo := roundDown c.curCellRange.min c.config.cachePadding
  let hi := roundUp (c.curCellRange.max + 1) c.config.cachePadding - 1
  let length := hi + 1 - lo
  if c.config.cachePadding = 0 ∨ c.config.maskBatchPadding = 0 ∨
      (0 < c.curBatchSize ∧ (hi + 1 < lo ∨ (lo ≤ hi ∧ c.cells.length ≤ hi))) then
    none
  else
    let row (x : Int × Int) : List MaskVal := (List.range length).map (fun j =>
      let cell := c.cell (lo + j)
      if x.2 ∉ cell.sequences ∨ cell.pos > x.1 ∨ cell.pos < int32 (x.1 - c.windowSize) then .negInf else .zero)
    let data := (batch.map row).flatten ++ List.replicate ((batchSize - c.curBatchSize) * length) .negInf
    some { c with curCellRange := ⟨lo, hi⟩, curMask := ⟨length, batchSize, data⟩ }

/-- The loop of `StartForward` over the batch: the cell, the range of its sequence and the range of the batch. -/
def Causal.store (c : Causal κ ν) : List (Int × Int) → Nat → Causal κ ν
  | [], _ => c
  | (pos, seq) :: rest, loc =>
    let seqRange := ((c.cellRanges seq).getD newRange).extend loc
    Causal.store
      { c with
        cells := c.cells.set loc { pos := pos, sequences := [seq] }
        cellRanges := Function.update c.cellRanges seq (some seqRange)
        curCellRange := c.curCellRange.join seqRange }
      rest (loc + 1)

/-- The rest of `StartForward` once a place for the batch is found. A batch with fewer sequences than positions
panics, and so does one that leaves the cells. -/
def Causal.place (ctx : Ctx) (positions seqs : List Int) (loc : Nat) (c : Causal κ ν) : Outcome κ ν :=
  if seqs.length < positions.length ∨ c.cells.length < loc + positions.length then
    none
  else
    let batch := positions.zip seqs
    let c := { c with curLoc := loc, curCellRange := newRange }.store batch loc
    match c.buildMask batch with
    | none => none
    | some c => some (c, ctx.floatErr)

/-! ## Defragmentation -/

/-- The inner loop of `defrag`: the greatest occupied location at or below `src` and above `dst`, and `dst` where there is
none. -/
def findSrc (cells : List CacheCell) (dst : Nat) : Nat → Nat
  | 0 => 0
  | src + 1 =>
    if src + 1 > dst then
      if (cellAt cells (src + 1)).empty then findSrc cells dst src else src + 1
    else
      src + 1

/-- The variables of `defrag`: the cells, the layers as last computed, the copies handed to the current context, and
the loop's own. `origin` is not a variable of the source: it says from which location the metadata of each cell was
taken. -/
structure DefragSt (κ ν : Type) where
  cells : List CacheCell
  layers : Layers κ ν
  queue : List Move := []
  moves : Nat := 0
  src : Nat
  pendingSrc : Nat := 0
  pendingDst : Nat := 0
  pendingLen : Nat := 0
  origin : Nat → Nat := id

/-- `moveCells` on the pending run. -/
def DefragSt.moveCells (s : DefragSt κ ν) : DefragSt κ ν :=
  { s with queue := s.queue ++ [⟨s.pendingSrc, s.pendingDst, s.pendingLen⟩], moves := s.moves + 1 }

/-- `ctx.Compute()` and a new context. -/
def DefragSt.compute (s : DefragSt κ ν) : DefragSt κ ν :=
  { s with layers := Kvcache.compute s.queue s.layers, queue := [] }

/-- The move of the cell `src` into the hole `dst`: the metadata at once, the data held back while it extends the pending
run. -/
def DefragSt.moveCell (s : DefragSt κ ν) (dst src : Nat) : DefragSt κ ν :=
  let s :=
    { s with
      cells := (s.cells.set dst (cellAt s.cells src)).set src {}
      origin := Function.update s.origin dst (s.origin src)
      src := src }
  if s.pendingLen > 0 then
    if src + s.pendingLen = s.pendingSrc ∧ dst = s.pendingDst + s.pendingLen then
      { s with pendingSrc := src, pendingLen := s.pendingLen + 1 }
    else
      { s.moveCells with pendingSrc := src, pendingDst := dst, pendingLen := 1 }
  else
    { s with pendingSrc := src, pendingDst := dst, pendingLen := 1 }

/-- One turn of the outer loop of `defrag`. Once `dst` has met `src` the loop is over, and no later turn does anything. -/
def DefragSt.turn (maxMoves : Nat) (s : DefragSt κ ν) (dst : Nat) : DefragSt κ ν :=
  if dst < s.src then
    let s :=
      if (cellAt s.cells dst).empty then
        let src := findSrc s.cells dst s.src
        if src > dst then s.moveCell dst src else { s with src := src }
      else
        s
    if s.moves ≥ maxMoves then { s.compute with moves := 0 } else s
  else
    s

/-- The pending run and the queue after the loop. -/
def DefragSt.finish (s : DefragSt κ ν) : DefragSt κ ν :=
  let s := if s.pendingLen > 0 then s.moveCells else s
  if s.moves > 0 then s.compute else s

/-- The number of layers that hold keys. -/
def Causal.storedLayers (c : Causal κ ν) : Nat := c.layers.countP Option.isSome

/-- The loop of `defrag`, with the bound on the moves of one context. -/
def Causal.defragSt (maxMoves : Nat) (c : Causal κ ν) : DefragSt κ ν :=
  ((List.range c.cells.length).foldl (DefragSt.turn maxMoves)
    { cells := c.cells, layers := c.layers, src := c.cells.length - 1 }).finish

/-- The range of the cells that satisfy a predicate, from location `i` on. -/
def rangeFrom (p : CacheCell → Bool) : List CacheCell → Nat → CellRange → CellRange
  | [], _, r => r
  | cell :: rest, i, r => rangeFrom p rest (i + 1) (if p cell then r.extend i else r)

/-- `defrag`: panics on the division by the number of layers when none holds keys. -/
def Causal.defrag (ctx : Ctx) (c : Causal κ ν) : Option (Causal κ ν) :=
  if c.storedLayers = 0 then
    none
  else
    let s := c.defragSt (ctx.maxTensors / (6 * c.storedLayers))
    some { c with
      cells := s.cells
      layers := s.layers
      cellRanges := fun seq =>
        (c.cellRanges seq).map (fun _ => rangeFrom (fun x => seq ∈ x.sequences) s.cells 0 newRange) }

/-- `StartForward`: defragments once when no place is found for the batch. -/
def Causal.startForward (ctx : Ctx) (positions seqs : List Int) (c : Causal κ ν) : Outcome κ ν :=
  let c := { c with curBatchSize := positions.length }
  match c.findStartLoc with
  | some loc => c.place ctx positions seqs loc
  | none =>
    match c.defrag ctx with
    | none => none
    | some c =>
      match c.findStartLoc with
      | some loc => c.place ctx positions seqs loc
      | none => some ({ c with curLoc := 0 }, some (.kvCacheFull c.capacity))

/-! ## Put and Get -/

/-- `SetLayer`. -/
def Causal.setLayer (layer : Nat) (c : Causal κ ν) : Causal κ ν :=
  { c with layers := c.layers ++ List.replicate (layer + 1 - c.layers.length) none, curLayer := layer }

/-- `Put`: panics on a batch of another size, without `SetLayer` and where the rows leave the tensors. -/
def Causal.put [Zero κ] [Zero ν] (rows : List (κ × ν)) (c : Causal κ ν) : Option (Causal κ ν) :=
  if c.curBatchSize ≠ rows.length ∨ c.capacity < c.curLoc + rows.length then
    none
  else
    match c.layers[c.curLayer]? with
    | none => none
    | some l =>
      let l := l.getD ⟨fun _ => 0, fun _ => 0⟩
      let l : Layer κ ν :=
        ⟨putRows (rows.map Prod.fst) c.curLoc l.key, putRows (rows.map Prod.snd) c.curLoc l.value⟩
      some { c with layers := c.layers.set c.curLayer (some l) }

/-- `Get`, after a `StartForward` that returned no error: the rows of the current layer in the range of the batch, and
the mask. Panics on a layer without tensors and where the range leaves them. -/
def Causal.get (c : Causal κ ν) : Option (List κ × List ν × Mask) :=
  match (c.layers[c.curLayer]?).join with
  | none => none
  | some l =>
    if c.capacity < c.curCellRange.min + c.curMask.length then
      none
    else
      let view := List.range' c.curCellRange.min c.curMask.length
      some (view.map l.key, view.map l.value, c.curMask)

/-! ## CopyPrefix and Remove -/

/-- What `CopyPrefix` does to a cell: `dstSeq` is taken out, and put back where `srcSeq` has a position below `len`. -/
def copyCell (srcSeq dstSeq len : Int) (cell : CacheCell) : CacheCell :=
  let cell := { cell with sequences := cell.sequences.filter (· ≠ dstSeq) }
  if srcSeq ∈ cell.sequences ∧ cell.pos < len then { cell with sequences := cell.sequences ++ [dstSeq] } else cell

/-- `CopyPrefix`. -/
def Causal.copyPrefix (srcSeq dstSeq len : Int) (c : Causal κ ν) : Causal κ ν :=
  let cells := c.cells.map (copyCell srcSeq dstSeq len)
  { c with
    cells := cells
    cellRanges := Function.update c.cellRanges dstSeq
      (some (rangeFrom (fun x => dstSeq ∈ x.sequences) cells 0 newRange)) }

/-- The error the shift function returns for the first stored layer it fails on, from layer `i` on. -/
def firstShiftErr (err : Nat → Option Err) : Layers κ ν → Nat → Option Err
  | [], _ => none
  | none :: rest, i => firstShiftErr err rest (i + 1)
  | some _ :: rest, i => (err i).or (firstShiftErr err rest (i + 1))

/-- `shift`: rotates the keys of the range of `seq`, by `offset` where the cell is at `beginIndex` or later and by 0
elsewhere. The rotations of all layers are computed together, so an error leaves them undone. A range of negative size
panics, and so does one that leaves the cells. -/
def Causal.shift (ctx : Ctx) (seq beginIndex offset : Int) (c : Causal κ ν) : Outcome κ ν :=
  match c.shiftFn with
  | none => some (c, some .notSupported)
  | some f =>
    let seqRange := (c.cellRanges seq).getD ⟨0, 0⟩
    if seqRange.max + 1 < seqRange.min ∨ (c.cells.length ≤ seqRange.max ∧ seqRange.min ≤ seqRange.max) then
      none
    else
      match ctx.intErr.or (firstShiftErr ctx.shiftErr c.layers 0) with
      | some e => some (c, some e)
      | none =>
        let off (j : Nat) : Int := if seq ∈ (c.cell j).sequences ∧ (c.cell j).pos ≥ beginIndex then offset else 0
        let rotate (i : Nat) (l : Layer κ ν) : Layer κ ν :=
          { l with key := fun j => if seqRange.min ≤ j ∧ j ≤ seqRange.max then f i (l.key j) (off j) else l.key j }
        some ({ c with layers := c.layers.mapIdx (fun i l => l.map (rotate i)) }, none)

/-- The loop of `Remove` from location `i` on: the cells, the range of what stays, and whether it ended on a shared cell. -/
def removeFrom (seq beginIndex endIndex offset : Int) :
    List CacheCell → Nat → CellRange → List CacheCell × CellRange × Bool
  | [], _, r => ([], r, false)
  | cell :: rest, i, r =>
    let next (cell : CacheCell) (r : CellRange) :=
      let out := removeFrom seq beginIndex endIndex offset rest (i + 1) r
      (cell :: out.1, out.2)
    if seq ∈ cell.sequences then
      if cell.pos ≥ beginIndex ∧ cell.pos < endIndex then
        next { cell with sequences := cell.sequences.filter (· ≠ seq) } r
      else if cell.pos ≥ endIndex then
        if cell.sequences.any (· ≠ seq) then
          (cell :: rest, r, true)
        else
          next { cell with pos := int32 (cell.pos + offset) } (r.extend i)
      else
        next cell (r.extend i)
    else
      next cell r

/-- `Remove`. -/
def Causal.remove (ctx : Ctx) (seq beginIndex endIndex : Int) (c : Causal κ ν) : Outcome κ ν :=
  let offset := if endIndex ≠ maxInt32 then int32 (beginIndex - endIndex) else 0
  let out := removeFrom seq beginIndex endIndex offset c.cells 0 newRange
  let seqRange := out.2.1
  let c := { c with cells := out.1 }
  if out.2.2 then
    some (c, some .sharedCells)
  else if seqRange = newRange then
    some ({ c with cellRanges := Function.update c.cellRanges seq none }, none)
  else
    let c := { c with cellRanges := Function.update c.cellRanges seq (some seqRange) }
    if endIndex ≠ maxInt32 then c.shift ctx seq (int32 (endIndex + offset)) offset else some (c, none)

/-! ## Runs -/

/-- The calls of the cache's interface that change it, and `defrag`. -/
inductive Op (κ ν : Type) where
  | startForward (ctx : Ctx) (positions seqs : List Int)
  | setLayer (layer : Nat)
  | put (rows : List (κ × ν))
  | copyPrefix (srcSeq dstSeq len : Int)
  | remove (ctx : Ctx) (seq beginIndex endIndex : Int)
  | defrag (ctx : Ctx)

/-- One call. -/
def Op.run [Zero κ] [Zero ν] (c : Causal κ ν) : Op κ ν → Outcome κ ν
  | .startForward ctx positions seqs => c.startForward ctx positions seqs
  | .setLayer layer => some (c.setLayer layer, none)
  | .put rows => (c.put rows).map (·, none)
  | .copyPrefix srcSeq dstSeq len => some (c.copyPrefix srcSeq dstSeq len, none)
  | .remove ctx seq beginIndex endIndex => c.remove ctx seq beginIndex endIndex
  | .defrag ctx => (c.defrag ctx).map (·, none)

/-- The runs of a cache: from `Init` by any calls, those that return an error included. -/
def system (κ ν : Type) [Zero κ] [Zero ν] : Lib.System (Causal κ ν) where
  init c := ∃ windowSize shiftFn config capacity,
    IsInt32 windowSize ∧ Causal.init windowSize shiftFn config capacity = some c
  step c c' := ∃ (op : Op κ ν) (err : Option Err), op.run c = some (c', err)

end Ollama.Kvcache
