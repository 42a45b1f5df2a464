import Mathlib.Logic.Function.Iterate
import Ollama.Lib.Runes

/-!
# The line editor

`readline/buffer.go`, without what is written to the terminal. The lists are those of `arraylist` and the widths those
of `go-runewidth`: both are given, the lists with what is documented of them. A rune is its number.
-/

namespace Ollama.Readline

open Lib Utf8

/-- `arraylist.List`, with the values that are in a list. Nothing is got from an index that is out of range, and
nothing is removed there. -/
structure ArrayList (σ α : Type) where
  values : σ → List α
  new : σ
  size : σ → Nat
  get : σ → Int → Option α
  add : α → σ → σ
  insert : Int → α → σ → σ
  set : Int → α → σ → σ
  remove : Int → σ → σ
  clear : σ → σ
  values_new : values new = []
  size_eq : ∀ l, size l = (values l).length
  get_nat : ∀ l (i : Nat), get l i = (values l)[i]?
  get_neg : ∀ l i, i < 0 → get l i = none
  values_add : ∀ x l, values (add x l) = values l ++ [x]
  values_insert : ∀ (i : Nat) x l, i ≤ (values l).length → values (insert i x l) = (values l).insertIdx i x
  values_remove : ∀ (i : Nat) l, values (remove i l) = (values l).eraseIdx i
  values_clear : ∀ l, values (clear l) = []

/-- The packages of the editor: the lists of runes and of flags, and the widths of a rune and of a text. -/
structure Packages (σ τ : Type) where
  runes : ArrayList σ Nat
  flags : ArrayList τ Bool
  runeWidth : Nat → Int
  stringWidth : Bytes → Int

/-- `Buffer`. -/
structure Buffer (σ τ : Type) where
  displayPos : Int := 0
  pos : Int := 0
  buf : σ
  lineHasSpace : τ
  lineWidth : Int
  lineWidth_pos : 1 ≤ lineWidth

variable {σ τ : Type} (P : Packages σ τ)

/-- `NewBuffer`. -/
def newBuffer {lineWidth : Int} (h : 1 ≤ lineWidth) : Buffer σ τ :=
  { buf := P.runes.new
    lineHasSpace := P.flags.new
    lineWidth := lineWidth
    lineWidth_pos := h }

namespace Buffer

/-- The line of a display position. -/
def line (b : Buffer σ τ) (displayPos : Int) : Int := displayPos.tdiv b.lineWidth

/-- The place of a display position in its line. -/
def place (b : Buffer σ τ) (displayPos : Int) : Int := displayPos.tmod b.lineWidth

/-- `b.Buf.Size()`. -/
def size (b : Buffer σ τ) : Int := P.runes.size b.buf

/-- `GetLineSpacing`. -/
def getLineSpacing (b : Buffer σ τ) (line : Int) : Bool := (P.flags.get b.lineHasSpace line).getD false

/-- `b.LineHasSpace.Set`. -/
def setLineSpacing (b : Buffer σ τ) (line : Int) (hasSpace : Bool) : Buffer σ τ :=
  { b with lineHasSpace := P.flags.set line hasSpace b.lineHasSpace }

/-- `b.LineHasSpace.Remove`. -/
def removeLineSpacing (b : Buffer σ τ) (line : Int) : Buffer σ τ :=
  { b with lineHasSpace := P.flags.remove line b.lineHasSpace }

/-- `DisplaySize`. -/
def displaySize (b : Buffer σ τ) : Int :=
  ((List.range (P.runes.size b.buf)).map (fun i : Nat => ((P.runes.get b.buf i).map P.runeWidth).getD 0)).sum

/-- `StringN`. -/
def stringN (b : Buffer σ τ) (n : Int) : Bytes :=
  (List.range (b.size P - n).toNat).flatMap (fun k : Nat => encodeRune ((P.runes.get b.buf (n + k)).getD 0))

/-- `String`. -/
def string (b : Buffer σ τ) : Bytes := b.stringN P 0

/-! ## Moving -/

/-- `MoveLeft`. -/
def moveLeft (b : Buffer σ τ) : Buffer σ τ :=
  if b.pos > 0 then
    match P.runes.get b.buf (b.pos - 1) with
    | none => b
    | some r =>
      let rLength := P.runeWidth r
      let hasSpace := b.getLineSpacing P (b.line b.displayPos - 1)
      let displayPos := if b.place b.displayPos = 0 ∧ hasSpace then b.displayPos - 1 else b.displayPos
      { b with pos := b.pos - 1, displayPos := displayPos - rLength }
  else b

/-- `MoveRight`. -/
def moveRight (b : Buffer σ τ) : Buffer σ τ :=
  if b.pos < b.size P then
    match P.runes.get b.buf b.pos with
    | none => b
    | some r =>
      let rLength := P.runeWidth r
      let hasSpace := b.getLineSpacing P (b.line b.displayPos)
      let displayPos := b.displayPos + rLength
      let spaced :=
        if b.place displayPos = 0 then displayPos
        else if b.place (displayPos - rLength) = b.lineWidth - 1 ∧ hasSpace then displayPos + 1
        else if P.flags.size b.lineHasSpace > 0 ∧ b.place displayPos = b.lineWidth - 1 ∧ hasSpace then displayPos + 1
        else displayPos
      { b with pos := b.pos + 1, displayPos := spaced }
  else b

/-- The loop of `MoveLeftWord` and `DeleteWord`: over the blanks before the cursor and then over the word, with an act
for each rune. -/
def wordLoop (act : Buffer σ τ → Buffer σ τ) : (fuel : Nat) → (foundNonspace : Bool) → Buffer σ τ → Option (Buffer σ τ)
  | 0, _, _ => none
  | fuel + 1, foundNonspace, b =>
    let v := (P.runes.get b.buf (b.pos - 1)).getD 0
    if v = 0x20 ∧ foundNonspace then some b
    else
      let b := act b
      if b.pos = 0 then some b else wordLoop act fuel (foundNonspace || v ≠ 0x20) b

/-- `MoveLeftWord`. -/
def moveLeftWord (b : Buffer σ τ) : Option (Buffer σ τ) :=
  if b.pos > 0 then wordLoop P (moveLeft P) b.pos.toNat false b else some b

/-- The loop of `MoveRightWord`. -/
def moveRightLoop : (fuel : Nat) → Buffer σ τ → Option (Buffer σ τ)
  | 0, _ => none
  | fuel + 1, b =>
    let b := b.moveRight P
    let v := (P.runes.get b.buf b.pos).getD 0
    if v = 0x20 then some b else if b.pos = b.size P then some b else moveRightLoop fuel b

/-- `MoveRightWord`. -/
def moveRightWord (b : Buffer σ τ) : Option (Buffer σ τ) :=
  if b.pos < b.size P then moveRightLoop P (b.size P - b.pos).toNat b else some b

/-- `MoveToStart`. -/
def moveToStart (b : Buffer σ τ) : Buffer σ τ := if b.pos > 0 then { b with pos := 0, displayPos := 0 } else b

/-- `MoveToEnd`. -/
def moveToEnd (b : Buffer σ τ) : Buffer σ τ :=
  if b.pos < b.size P then { b with pos := b.size P, displayPos := b.displaySize P } else b

/-! ## Drawing -/

/-- The loop of `countRemainingLineWidth` over the runes from the cursor on, up to the first that there is not. -/
def countLoop (b : Buffer σ τ) : List (Option Nat) → (place : Int) → (sum prevLen : Nat) → Nat
  | some r :: rest, place, sum, prevLen =>
    if place ≤ b.lineWidth then b.countLoop rest (place + P.runeWidth r) (sum + prevLen) (encodeRune r).length else sum
  | none :: _, place, sum, prevLen => if place ≤ b.lineWidth then sum + prevLen else sum
  | [], _, sum, _ => sum

/-- `countRemainingLineWidth`. -/
def countRemainingLineWidth (b : Buffer σ τ) (place : Int) : Nat :=
  b.countLoop P ((List.range ((b.size P - b.pos).toNat + 1)).map (fun counter :
    Nat => P.runes.get b.buf (b.pos + counter))) place 0 0

/-- The loop of `drawRemaining` over the other lines. -/
def drawLines (b : Buffer σ τ) : List Nat → (totalLines displayLength lineLength : Int) → Buffer σ τ
  | [], _, _, _ => b
  | c :: rest, totalLines, displayLength, lineLength =>
    let width := P.runeWidth c
    if displayLength = 0 then b.drawLines rest (totalLines + 1) (displayLength + width) width
    else if b.place (displayLength + width) < b.place displayLength then
      (b.setLineSpacing P (b.line b.displayPos + totalLines) (lineLength ≠ b.lineWidth)).drawLines rest (totalLines + 1)
        (displayLength + width) width
    else b.drawLines rest totalLines (displayLength + width) (lineLength + width)

/-- What `drawRemaining` writes down of the line with the cursor. -/
def drawLine (b : Buffer σ τ) (place currLineSpace remLength : Int) : Buffer σ τ :=
  let line := b.line b.displayPos
  if currLineSpace ≠ b.lineWidth - place ∧ currLineSpace ≠ remLength then b.setLineSpacing P line true
  else if currLineSpace ≠ b.lineWidth - place then b.removeLineSpacing P line
  else b.setLineSpacing P line false

/-- `drawRemaining`. -/
def drawRemaining (b : Buffer σ τ) : Buffer σ τ :=
  let remainingText := b.stringN P b.pos
  let place := if b.pos > 0 then b.place b.displayPos else 0
  let currLineLength := b.countRemainingLineWidth P place
  let currLine := remainingText.take (min currLineLength remainingText.length)
  let currLineSpace := P.stringWidth currLine
  let remLength := P.stringWidth remainingText
  let b := b.drawLine P place currLineSpace remLength
  if remLength > currLineSpace then b.drawLines P (runes (remainingText.drop currLine.length)) 0 0 currLineSpace else b

/-! ## Adding and deleting -/

/-- What `AddChar` does before the rune is in the list: the display position, and what is written down of the lines. -/
def addDisplay (b : Buffer σ τ) (r : Nat) (insert : Bool) : Buffer σ τ :=
  let rLength := P.runeWidth r
  let displayPos := b.displayPos + rLength
  if b.pos > 0 ∧ b.place displayPos = 0 then
    let line := b.line displayPos - 1
    { b with
      displayPos := displayPos
      lineHasSpace := if insert then P.flags.set line false b.lineHasSpace else P.flags.add false b.lineHasSpace }
  else if b.pos > 0 ∧ b.place displayPos < b.place (displayPos - rLength) then
    -- a rune of two columns crosses the boundary of the line
    let line := b.line (displayPos + 1) - 1
    { b with
      displayPos := displayPos + 1
      lineHasSpace := if insert then P.flags.set line true b.lineHasSpace else P.flags.add true b.lineHasSpace }
  else { b with displayPos := displayPos }

/-- `AddChar`. -/
def addChar (b : Buffer σ τ) (r : Nat) (insert : Bool) : Buffer σ τ :=
  let b := b.addDisplay P r insert
  let b : Buffer σ τ :=
    { b with buf := if insert then P.runes.insert b.pos r b.buf else P.runes.add r b.buf, pos := b.pos + 1 }
  if insert then b.drawRemaining P else b

/-- `Add`. -/
def add (r : Nat) (b : Buffer σ τ) : Buffer σ τ := if b.pos = b.size P then b.addChar P r false else b.addChar P r true

/-- What `Remove` does before the rune is taken from the list: the display position, and what is written down of the
lines. -/
def removeDisplay (b : Buffer σ τ) (r : Nat) : Buffer σ τ :=
  let rLength := P.runeWidth r
  let line := b.line b.displayPos - 1
  let hasSpace := b.getLineSpacing P line
  let size := b.displaySize P
  if b.place b.displayPos = 0 then
    { b with
      displayPos := (if hasSpace then b.displayPos - 1 else b.displayPos) - rLength
      lineHasSpace := if b.place size < b.place (size - rLength) then P.flags.remove line b.lineHasSpace
        else b.lineHasSpace }
  else if b.place (b.displayPos - rLength) = 0 ∧ hasSpace then
    { b with
      displayPos := b.displayPos - 1 - rLength
      lineHasSpace := if b.pos = b.size P then P.flags.remove line b.lineHasSpace else b.lineHasSpace }
  else { b with displayPos := b.displayPos - rLength }

/-- `Remove`. -/
def remove (b : Buffer σ τ) : Buffer σ τ :=
  if b.size P > 0 ∧ b.pos > 0 then
    match P.runes.get b.buf (b.pos - 1) with
    | none => b
    | some r =>
      let b := b.removeDisplay P r
      let b : Buffer σ τ := { b with pos := b.pos - 1, buf := P.runes.remove (b.pos - 1) b.buf }
      if b.pos < b.size P then b.drawRemaining P else b
  else b

/-- `Delete`. -/
def delete (b : Buffer σ τ) : Buffer σ τ :=
  if b.size P > 0 ∧ b.pos < b.size P then drawRemaining P { b with buf := P.runes.remove b.pos b.buf } else b

/-- `DeleteBefore`. -/
def deleteBefore (b : Buffer σ τ) : Buffer σ τ := if b.pos > 0 then (remove P)^[b.pos.toNat] b else b

/-- `DeleteRemaining`. -/
def deleteRemaining (b : Buffer σ τ) : Buffer σ τ :=
  if b.displaySize P > 0 ∧ b.pos < b.displaySize P then (delete P)^[(b.size P - b.pos).toNat] b else b

/-- `DeleteWord`. -/
def deleteWord (b : Buffer σ τ) : Option (Buffer σ τ) :=
  if b.size P > 0 ∧ b.pos > 0 then wordLoop P (remove P) b.pos.toNat false b else some b

/-- `Replace`. -/
def replace (r : List Nat) (b : Buffer σ τ) : Buffer σ τ :=
  r.foldl (fun b c => b.add P c) { b with displayPos := 0, pos := 0, buf := P.runes.clear b.buf }

end Buffer

/-- The operations of a `Buffer`. -/
inductive Op where
  | add (r : Nat)
  | remove
  | delete
  | deleteBefore
  | deleteRemaining
  | deleteWord
  | moveLeft
  | moveRight
  | moveLeftWord
  | moveRightWord
  | moveToStart
  | moveToEnd
  | replace (r : List Nat)
  deriving DecidableEq

/-- What an operation makes of a buffer, if its loops come to their end. -/
def Op.apply (b : Buffer σ τ) : Op → Option (Buffer σ τ)
  | .add r => some (b.add P r)
  | .remove => some (b.remove P)
  | .delete => some (b.delete P)
  | .deleteBefore => some (b.deleteBefore P)
  | .deleteRemaining => some (b.deleteRemaining P)
  | .deleteWord => b.deleteWord P
  | .moveLeft => some (b.moveLeft P)
  | .moveRight => some (b.moveRight P)
  | .moveLeftWord => b.moveLeftWord P
  | .moveRightWord => b.moveRightWord P
  | .moveToStart => some b.moveToStart
  | .moveToEnd => some (b.moveToEnd P)
  | .replace r => some (b.replace P r)

/-- A buffer after operations. -/
def Buffer.run (b : Buffer σ τ) (ops : List Op) : Option (Buffer σ τ) := ops.foldlM (Op.apply P) b

end Ollama.Readline
