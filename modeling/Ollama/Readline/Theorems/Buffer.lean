import Ollama.Lib.Cursor
import Ollama.Readline.Buffer

/-!
# The line editor and a text with a cursor

The runes of a buffer and its position are those of a text with a cursor that is edited rune by rune, whatever the
widths of the runes are and whatever is written down of the lines on the screen. There is one exception:
`DeleteRemaining` compares the position with the columns of the text, where `Delete` compares it with the number of
its runes, and does nothing when runes without a width make the columns fewer (`buffer_refines_iff`).
-/

namespace Ollama.Readline

open Lib

variable {σ τ : Type} (P : Packages σ τ)

/-- The plain editor: what an operation makes of a text with a cursor. A word ends at a blank. -/
def Op.plain (c : Cursor Nat) : Op → Cursor Nat
  | .add r => c.insert r
  | .remove => c.backspace
  | .delete => c.delete
  | .deleteBefore => c.deleteBefore
  | .deleteRemaining => c.deleteAfter
  | .deleteWord => (c.backspaceWhile (· = 0x20)).backspaceWhile (· ≠ 0x20)
  | .moveLeft => c.left
  | .moveRight => c.right
  | .moveLeftWord => (c.leftWhile (· = 0x20)).leftWhile (· ≠ 0x20)
  | .moveRightWord => c.right.rightWhile (· ≠ 0x20)
  | .moveToStart => c.toStart
  | .moveToEnd => c.toEnd
  | .replace r => ⟨r.reverse, []⟩

/-- The plain editor after operations. -/
def Op.plainRun (ops : List Op) : Cursor Nat := ops.foldl Op.plain {}

/-- The runes and the position of a buffer are those of a text with a cursor. -/
structure Buffer.Refines (b : Buffer σ τ) (c : Cursor Nat) : Prop where
  values : P.runes.values b.buf = c.text
  pos : b.pos = c.pos

/-- What `DeleteRemaining` relies on: the position is less than the columns of the text, or at its end. -/
def Buffer.WidthReaches (b : Buffer σ τ) : Prop := b.pos < b.displaySize P ∨ b.pos = b.size P

namespace BufferAux

variable {P} {b b' : Buffer σ τ} {c : Cursor Nat}

/-! ## What is drawn -/

/-- Two buffers have the same runes and the same position. -/
structure Same (b b' : Buffer σ τ) : Prop where
  buf : b'.buf = b.buf
  pos : b'.pos = b.pos

/-- The runes and the position are kept by two changes if each of them keeps them. -/
theorem Same.trans {b₁ b₂ b₃ : Buffer σ τ} (h : Same b₁ b₂) (h' : Same b₂ b₃) : Same b₁ b₃ :=
  ⟨h'.buf.trans h.buf, h'.pos.trans h.pos⟩

/-- Drawing lines changes neither the text nor the place in it. -/
theorem same_drawLines (cs : List Nat) (totalLines displayLength lineLength : Int) :
    Same b (b.drawLines P cs totalLines displayLength lineLength) := by
  induction cs generalizing b totalLines displayLength lineLength with
  | nil => exact ⟨rfl, rfl⟩
  | cons r rest ih =>
    rw [Buffer.drawLines]
    split
    · exact ih ..
    · split
      · exact ⟨(ih ..).buf.trans rfl, (ih ..).pos.trans rfl⟩
      · exact ih ..

/-- Drawing a line changes neither the text nor the place in it. -/
theorem same_drawLine (place currLineSpace remLength : Int) : Same b (b.drawLine P place currLineSpace remLength) := by
  unfold Buffer.drawLine
  dsimp only
  split
  · exact ⟨rfl, rfl⟩
  · split
    · exact ⟨rfl, rfl⟩
    · exact ⟨rfl, rfl⟩

/-- To draw changes nothing but what is written down of the lines. -/
theorem same_drawRemaining : Same b (b.drawRemaining P) := by
  unfold Buffer.drawRemaining
  generalize (if b.pos > 0 then b.place b.displayPos else 0) = place
  dsimp only
  split
  · exact (same_drawLine ..).trans (same_drawLines ..)
  · exact same_drawLine ..

/-- A buffer with the same text and place refines the same text with a cursor. -/
theorem Same.refines (hsame : Same b b') (h : b.Refines P c) : b'.Refines P c :=
  ⟨hsame.buf ▸ h.values, hsame.pos.trans h.pos⟩

/-! ## Runes at the position -/

/-- `Size` is the length of the text. -/
theorem size_eq (h : b.Refines P c) : b.size P = c.text.length := by rw [Buffer.size, P.runes.size_eq, h.values]

/-- The rune at the place is the one behind the cursor. -/
theorem get_pos (h : b.Refines P c) : P.runes.get b.buf b.pos = c.after.head? := by
  rw [h.pos, P.runes.get_nat, h.values, c.getElem?_pos]

/-- The rune before the place is the one before the cursor. -/
theorem get_pred {x : Nat} {before : List Nat} (h : b.Refines P c) (hb : c.before = x :: before) :
    b.pos - 1 = before.length ∧ P.runes.get b.buf (b.pos - 1) = some x := by
  have hpos : b.pos - 1 = before.length := by
    rw [h.pos, Cursor.pos, hb, List.length_cons]
    push_cast
    omega
  refine ⟨hpos, ?_⟩
  rw [hpos, P.runes.get_nat, h.values, c.getElem?_pred x hb]

/-- With nothing before the cursor the place is 0. -/
theorem pos_zero (h : b.Refines P c) (hb : c.before = []) : b.pos = 0 := by rw [h.pos, Cursor.pos, hb]; rfl

/-- The place is the size exactly when there is nothing behind the cursor. -/
theorem pos_eq_size_iff (h : b.Refines P c) : b.pos = b.size P ↔ c.after = [] := by
  rw [size_eq h, h.pos, c.length_text, ← List.length_eq_zero_iff]
  push_cast
  omega

/-! ## One rune -/

/-- `MoveLeft` moves the cursor to the left. -/
theorem refines_moveLeft (h : b.Refines P c) : (b.moveLeft P).Refines P c.left := by
  obtain ⟨before, after⟩ := c
  cases before with
  | nil =>
    have hpos := pos_zero h rfl
    rw [Buffer.moveLeft, if_neg (by omega)]
    exact h
  | cons x before =>
    obtain ⟨hpos, hget⟩ := get_pred h rfl
    rw [Buffer.moveLeft, if_pos (by omega), hget]
    exact ⟨h.values.trans (Cursor.text_left _).symm, hpos⟩

/-- `MoveRight` moves the cursor to the right. -/
theorem refines_moveRight (h : b.Refines P c) : (b.moveRight P).Refines P c.right := by
  have hget := get_pos h
  have hend := pos_eq_size_iff h
  have hsize := size_eq h
  have hpos := h.pos
  obtain ⟨before, after⟩ := c
  cases after with
  | nil =>
    rw [Buffer.moveRight, if_neg (by rw [hend.2 rfl]; exact lt_irrefl _)]
    exact h
  | cons x after =>
    have hlt : b.pos < b.size P := by
      rw [hsize, hpos, Cursor.length_text]
      push_cast [List.length_cons]
      omega
    rw [Buffer.moveRight, if_pos hlt, hget]
    refine ⟨h.values.trans (Cursor.text_right _).symm, ?_⟩
    show b.pos + 1 = _
    rw [hpos]
    rfl

/-- What `AddChar` shows changes neither the text nor the place in it. -/
theorem same_addDisplay (r : Nat) (insert : Bool) : Same b (b.addDisplay P r insert) := by
  unfold Buffer.addDisplay
  dsimp only
  split
  · exact ⟨rfl, rfl⟩
  · split
    · exact ⟨rfl, rfl⟩
    · exact ⟨rfl, rfl⟩

/-- `AddChar` puts the rune into the text and goes behind it, whatever it shows. -/
theorem same_addChar (r : Nat) (insert : Bool) :
    Same { b with buf := if insert then P.runes.insert b.pos r b.buf else P.runes.add r b.buf, pos := b.pos + 1 }
      (b.addChar P r insert) := by
  obtain ⟨hbuf, hpos⟩ := same_addDisplay (P := P) (b := b) r insert
  rw [← hbuf, ← hpos]
  unfold Buffer.addChar
  dsimp only
  split
  · exact ⟨same_drawRemaining.buf.trans rfl, same_drawRemaining.pos.trans rfl⟩
  · exact ⟨rfl, rfl⟩

/-- `Add` puts the rune before the cursor. -/
theorem refines_add (r : Nat) (h : b.Refines P c) : (b.add P r).Refines P (c.insert r) := by
  have hend := pos_eq_size_iff h
  have hpos : b.pos + 1 = (c.insert r).pos := by
    rw [h.pos]
    rfl
  unfold Buffer.add
  split
  · rename_i hsize
    have hlen : c.pos = c.text.length := by rw [c.length_text, hend.1 hsize, List.length_nil, Nat.add_zero]
    refine (same_addChar r false).refines ⟨?_, hpos⟩
    rw [c.text_insert, hlen, List.insertIdx_length_self, ← h.values]
    exact P.runes.values_add r b.buf
  · refine (same_addChar r true).refines ⟨?_, hpos⟩
    rw [c.text_insert, ← h.values, if_pos rfl, h.pos]
    exact P.runes.values_insert _ _ _ (h.values ▸ c.pos_le)

/-- What `Remove` shows changes neither the text nor the place in it. -/
theorem same_removeDisplay (r : Nat) : Same b (b.removeDisplay P r) := by
  unfold Buffer.removeDisplay
  dsimp only
  split
  · exact ⟨rfl, rfl⟩
  · split
    · exact ⟨rfl, rfl⟩
    · exact ⟨rfl, rfl⟩

/-- `Remove` takes the rune before the place away, whatever it shows. -/
theorem same_remove {r : Nat} (hsize : b.size P > 0) (hpos : b.pos > 0)
    (hget : P.runes.get b.buf (b.pos - 1) = some r) :
    Same { b with buf := P.runes.remove (b.pos - 1) b.buf, pos := b.pos - 1 } (b.remove P) := by
  unfold Buffer.remove
  rw [if_pos ⟨hsize, hpos⟩, hget]
  dsimp only
  obtain ⟨hbuf, hpos'⟩ := same_removeDisplay (P := P) (b := b) r
  rw [← hbuf, ← hpos']
  split
  · exact ⟨same_drawRemaining.buf.trans rfl, same_drawRemaining.pos.trans rfl⟩
  · exact ⟨rfl, rfl⟩

/-- `Remove` takes the rune before the cursor away. -/
theorem refines_remove (h : b.Refines P c) : (b.remove P).Refines P c.backspace := by
  cases hb : c.before with
  | nil =>
    have hpos := pos_zero h hb
    have hsame : c.backspace = c := by rw [Cursor.backspace, hb, List.tail_nil, ← hb]
    rw [Buffer.remove, if_neg (by omega), hsame]
    exact h
  | cons x before =>
    obtain ⟨hpos, hget⟩ := get_pred h hb
    have hle := c.pos_le
    have hsize := size_eq h
    have hcpos := h.pos
    have hlen : c.pos = before.length + 1 := by rw [Cursor.pos, hb, List.length_cons]
    refine (same_remove (by omega) (by omega) hget).refines ⟨?_, ?_⟩
    · rw [hpos, P.runes.values_remove, h.values, c.text_backspace x hb]
    · rw [hpos, Cursor.pos, Cursor.backspace, hb, List.tail_cons]

/-- `Delete` takes the rune behind the cursor away. -/
theorem refines_delete (h : b.Refines P c) : (b.delete P).Refines P c.delete := by
  have hend := pos_eq_size_iff h
  have hle := c.pos_le
  have hsize := size_eq h
  have hcpos := h.pos
  unfold Buffer.delete
  split
  · refine same_drawRemaining.refines ⟨?_, h.pos⟩
    rw [c.text_delete, ← h.values, ← P.runes.values_remove, h.pos]
  · have hnil : c.after = [] := hend.1 (by omega)
    have hsame : c.delete = c := by rw [Cursor.delete, hnil, List.tail_nil, ← hnil]
    rw [hsame]
    exact h

/-! ## Several runes -/

/-- An operation that is a step of the cursor is as many steps when it is made many times. -/
theorem refines_iterate {act : Buffer σ τ → Buffer σ τ} {step : Cursor Nat → Cursor Nat}
    (hact : ∀ b c, b.Refines P c → (act b).Refines P (step c)) (n : Nat) (h : b.Refines P c) :
    (act^[n] b).Refines P (step^[n] c) := by
  induction n generalizing b c with
  | zero => exact h
  | succ n ih => exact ih (hact b c h)

/-- `DeleteBefore` takes away all that is before the cursor. -/
theorem refines_deleteBefore (h : b.Refines P c) : (b.deleteBefore P).Refines P c.deleteBefore := by
  rw [← c.backspace_iterate]
  unfold Buffer.deleteBefore
  have hn : b.pos.toNat = c.pos := by rw [h.pos, Int.toNat_natCast]
  split
  · rw [hn]
    exact refines_iterate (fun _ _ => refines_remove) c.pos h
  · rw [← hn, Int.toNat_eq_zero.2 (by omega)]
    exact h

/-- `DeleteRemaining` deletes what is after the cursor when the columns of the text reach it, and nothing else. -/
theorem refines_deleteRemaining (h : b.Refines P c) :
    (b.WidthReaches P → (b.deleteRemaining P).Refines P c.deleteAfter) ∧
      (¬b.WidthReaches P → b.deleteRemaining P = b) := by
  have hpos := h.pos
  constructor
  · intro hreaches
    rw [← c.delete_iterate]
    unfold Buffer.deleteRemaining
    have hn : (b.size P - b.pos).toNat = c.after.length := by
      rw [size_eq h, hpos, c.length_text]
      push_cast
      omega
    split
    · rw [hn]
      exact refines_iterate (fun _ _ => refines_delete) c.after.length h
    · rename_i hnot
      have hnil : c.after = [] := (pos_eq_size_iff h).1 (hreaches.resolve_left (fun hlt => hnot ⟨by omega, hlt⟩))
      rw [hnil]
      exact h
  · intro hnot
    unfold Buffer.WidthReaches at hnot
    rw [Buffer.deleteRemaining, if_neg (fun hguard => hnot (.inl hguard.2))]

/-- The loop of `MoveLeftWord` and `DeleteWord` goes over the blanks before the cursor and then over the word, and
comes to its end. -/
theorem refines_wordLoop {act : Buffer σ τ → Buffer σ τ} {step : Cursor Nat → Cursor Nat}
    {sweep : (Nat → Bool) → Cursor Nat → Cursor Nat} (hact : ∀ b c, b.Refines P c → (act b).Refines P (step c))
    (hsweep : Cursor.Sweeps step sweep) {before : List Nat} (hne : before ≠ []) (found : Bool) (h : b.Refines P c)
    (hb : c.before = before) :
    ∃ b', Buffer.wordLoop P act before.length found b = some b' ∧
      b'.Refines P (sweep (· ≠ 0x20) (if found then c else sweep (· = 0x20) c)) := by
  induction before generalizing b c found with
  | nil => exact (hne rfl).elim
  | cons x before ih =>
    have hhead : c.before.head? = some x := by rw [hb, List.head?_cons]
    obtain ⟨_, hget⟩ := get_pred h hb
    have hbefore : (step c).before = before := by rw [hsweep.before_step, hb, List.tail_cons]
    have hnext := hact b c h
    rw [List.length_cons, Buffer.wordLoop, hget]
    dsimp only [Option.getD_some]
    by_cases hstop : x = 0x20 ∧ found = true
    · rw [if_pos hstop, hstop.2, if_pos rfl, hsweep.neg _ c x hhead (by simp [hstop.1])]
      exact ⟨b, rfl, h⟩
    · rw [if_neg hstop]
      -- the loop goes on as from the next state
      have hgoal : sweep (· ≠ 0x20) (if found then c else sweep (· = 0x20) c) =
          sweep (· ≠ 0x20) (if (found || decide (x ≠ 0x20)) then step c else sweep (· = 0x20) (step c)) := by
        by_cases hx : x = 0x20
        · have hfound : found = false := by simpa [hx] using hstop
          rw [hfound, if_neg Bool.false_ne_true, if_neg (by simp [hx]), hsweep.pos _ c x hhead (by simp [hx])]
        · have hword : (found || decide (x ≠ 0x20)) = true := by simp [hx]
          rw [hword, if_pos rfl, ← hsweep.pos (· ≠ 0x20) c x hhead (by simp [hx])]
          cases found with
          | false => rw [if_neg Bool.false_ne_true, hsweep.neg (· = 0x20) c x hhead (by simp [hx])]
          | true => rw [if_pos rfl]
      rw [hgoal]
      by_cases hnil : before = []
      · rw [if_pos (pos_zero hnext (hbefore.trans hnil))]
        refine ⟨act b, rfl, ?_⟩
        have hlast : ∀ p, sweep p (step c) = step c := fun p => hsweep.nil p _ (hbefore.trans hnil)
        rw [hlast, ite_self, hlast]
        exact hnext
      · have hpos : (act b).pos ≠ 0 := by
          have hlen := List.length_pos_iff.2 hnil
          rw [hnext.pos, Cursor.pos, hbefore]
          omega
        rw [if_neg hpos]
        exact ih hnil _ hnext hbefore

/-- `MoveLeftWord` goes to the left over spaces, and then over what is no space. -/
theorem refines_moveLeftWord (h : b.Refines P c) :
    ∃ b', b.moveLeftWord P = some b' ∧ b'.Refines P ((c.leftWhile (· = 0x20)).leftWhile (· ≠ 0x20)) := by
  unfold Buffer.moveLeftWord
  have hpos := h.pos
  by_cases hnil : c.before = []
  · rw [if_neg (by rw [pos_zero h hnil]; exact lt_irrefl _), Cursor.sweeps_left.nil _ c hnil,
      Cursor.sweeps_left.nil _ c hnil]
    exact ⟨b, rfl, h⟩
  · have hlen := List.length_pos_iff.2 hnil
    have hn : b.pos.toNat = c.before.length := by rw [hpos, Int.toNat_natCast, Cursor.pos]
    rw [if_pos (by rw [hpos, Cursor.pos]; omega), hn]
    exact refines_wordLoop (fun _ _ => refines_moveLeft) Cursor.sweeps_left hnil false h rfl

/-- `DeleteWord` takes away spaces to the left, and then what is no space. -/
theorem refines_deleteWord (h : b.Refines P c) :
    ∃ b', b.deleteWord P = some b' ∧ b'.Refines P ((c.backspaceWhile (· = 0x20)).backspaceWhile (· ≠ 0x20)) := by
  unfold Buffer.deleteWord
  have hpos := h.pos
  by_cases hnil : c.before = []
  · rw [if_neg (fun hguard => absurd (pos_zero h hnil) (ne_of_gt hguard.2)), Cursor.sweeps_backspace.nil _ c hnil,
      Cursor.sweeps_backspace.nil _ c hnil]
    exact ⟨b, rfl, h⟩
  · have hlen := List.length_pos_iff.2 hnil
    have hle := c.pos_le
    have hn : b.pos.toNat = c.before.length := by rw [hpos, Int.toNat_natCast, Cursor.pos]
    have hguard : b.size P > 0 ∧ b.pos > 0 := by
      rw [size_eq h, hpos]
      rw [Cursor.pos] at *
      omega
    rw [if_pos hguard, hn]
    exact refines_wordLoop (fun _ _ => refines_remove) Cursor.sweeps_backspace hnil false h rfl

/-- The loop of `MoveRightWord` goes over a rune and then on to a blank, and comes to its end. -/
theorem refines_moveRightLoop {after : List Nat} (hne : after ≠ []) (h : b.Refines P c) (ha : c.after = after) :
    ∃ b', b.moveRightLoop P after.length = some b' ∧ b'.Refines P (c.right.rightWhile (· ≠ 0x20)) := by
  induction after generalizing b c with
  | nil => exact (hne rfl).elim
  | cons x after ih =>
    have hnext := refines_moveRight h
    have hafter : c.right.after = after := by rw [c.after_right, ha, List.tail_cons]
    rw [List.length_cons, Buffer.moveRightLoop, get_pos hnext, hafter]
    cases after with
    | nil =>
      have hend := (pos_eq_size_iff hnext).2 hafter
      rw [c.right.rightWhile_of_neg _ (by simp [hafter]), if_neg (by simp), if_pos hend]
      exact ⟨_, rfl, hnext⟩
    | cons y after =>
      rw [List.head?_cons, Option.getD_some]
      by_cases hy : y = 0x20
      · rw [if_pos hy, c.right.rightWhile_of_neg _ (by simp [hafter, hy])]
        exact ⟨_, rfl, hnext⟩
      · have hend : (b.moveRight P).pos ≠ (b.moveRight P).size P := by
          rw [ne_eq, pos_eq_size_iff hnext, hafter]
          exact List.cons_ne_nil _ _
        rw [if_neg hy, if_neg hend, c.right.rightWhile_of_pos y _ (by rw [hafter, List.head?_cons]) (by simp [hy])]
        exact ih (List.cons_ne_nil _ _) hnext hafter

/-- `MoveRightWord` goes to the right over one rune, and then over what is no space. -/
theorem refines_moveRightWord (h : b.Refines P c) :
    ∃ b', b.moveRightWord P = some b' ∧ b'.Refines P (c.right.rightWhile (· ≠ 0x20)) := by
  unfold Buffer.moveRightWord
  have hend := pos_eq_size_iff h
  have hsize := size_eq h
  have hlen := c.length_text
  have hpos := h.pos
  by_cases hnil : c.after = []
  · have hright : c.right = c := by
      obtain ⟨before, _⟩ := c
      subst hnil
      rfl
    rw [if_neg (by rw [hend.2 hnil]; exact lt_irrefl _), hright, c.rightWhile_of_neg _ (by simp [hnil])]
    exact ⟨b, rfl, h⟩
  · have hafter := List.length_pos_iff.2 hnil
    have hn : (b.size P - b.pos).toNat = c.after.length := by omega
    rw [if_pos (by omega), hn]
    exact refines_moveRightLoop hnil h rfl

/-- `Replace` leaves the new text, with the cursor at its end. -/
theorem refines_replace (r : List Nat) : (b.replace P r).Refines P ⟨r.reverse, []⟩ := by
  have hall : ∀ {b : Buffer σ τ} {c : Cursor Nat}, b.Refines P c →
      (r.foldl (fun b x => b.add P x) b).Refines P (r.foldl (fun c x => c.insert x) c) := by
    induction r with
    | nil => exact fun h => h
    | cons x r ih => exact fun h => ih (refines_add x h)
  have hclear : ({ b with displayPos := 0, pos := 0, buf := P.runes.clear b.buf } : Buffer σ τ).Refines P {} :=
    ⟨P.runes.values_clear _, rfl⟩
  have hfold := Cursor.insert_foldl ({} : Cursor Nat) r
  rw [List.append_nil] at hfold
  rw [← hfold]
  exact hall hclear

/-! ## Operations -/

/-- `MoveToStart` puts the cursor at the start. -/
theorem refines_moveToStart (h : b.Refines P c) : b.moveToStart.Refines P c.toStart := by
  unfold Buffer.moveToStart
  split
  · exact ⟨h.values, rfl⟩
  · refine ⟨h.values, ?_⟩
    have hpos := h.pos
    show b.pos = 0
    omega

/-- `MoveToEnd` puts the cursor at the end. -/
theorem refines_moveToEnd (h : b.Refines P c) : (b.moveToEnd P).Refines P c.toEnd := by
  have htext : P.runes.values b.buf = c.toEnd.text := by
    rw [h.values]
    simp [Cursor.toEnd, Cursor.text]
  have hlen : (c.toEnd.pos : Int) = c.text.length := congrArg Nat.cast List.length_reverse
  have hle := c.pos_le
  have hpos := h.pos
  have hsize := size_eq h
  unfold Buffer.moveToEnd
  split
  · exact ⟨htext, hsize.trans hlen.symm⟩
  · refine ⟨htext, ?_⟩
    rw [hlen]
    omega

/-- An operation comes to its end, and does what it does in the plain editor; but `DeleteRemaining` does so only if
the columns reach the position, and nothing otherwise. -/
theorem refines_apply (op : Op) (h : b.Refines P c) : ∃ b', op.apply P b = some b' ∧
    (op ≠ .deleteRemaining ∨ b.WidthReaches P → b'.Refines P (op.plain c)) ∧
      (op = .deleteRemaining → ¬b.WidthReaches P → b' = b) := by
  have hof : ∀ {b'}, op.apply P b = some b' → b'.Refines P (op.plain c) → op ≠ .deleteRemaining →
    ∃ b', op.apply P b = some b' ∧
      (op ≠ .deleteRemaining ∨ b.WidthReaches P → b'.Refines P (op.plain c)) ∧
      (op = .deleteRemaining → ¬b.WidthReaches P → b' = b) :=
    fun hb' hr hne => ⟨_, hb', fun _ => hr, fun heq => (hne heq).elim⟩
  cases op with
  | add r => exact hof rfl (refines_add r h) (by simp)
  | remove => exact hof rfl (refines_remove h) (by simp)
  | delete => exact hof rfl (refines_delete h) (by simp)
  | deleteBefore => exact hof rfl (refines_deleteBefore h) (by simp)
  | deleteRemaining =>
    obtain ⟨hreaches, hnot⟩ := refines_deleteRemaining h
    exact ⟨_, rfl, fun hor => hreaches (hor.resolve_left (fun hne => hne rfl)), fun _ => hnot⟩
  | deleteWord =>
    obtain ⟨b', hb', hr⟩ := refines_deleteWord h
    exact hof hb' hr (by simp)
  | moveLeft => exact hof rfl (refines_moveLeft h) (by simp)
  | moveRight => exact hof rfl (refines_moveRight h) (by simp)
  | moveLeftWord =>
    obtain ⟨b', hb', hr⟩ := refines_moveLeftWord h
    exact hof hb' hr (by simp)
  | moveRightWord =>
    obtain ⟨b', hb', hr⟩ := refines_moveRightWord h
    exact hof hb' hr (by simp)
  | moveToStart => exact hof rfl (refines_moveToStart h) (by simp)
  | moveToEnd => exact hof rfl (refines_moveToEnd h) (by simp)
  | replace r => exact hof rfl (refines_replace r) (by simp)

/-! ## Runs -/

/-- A run of operations and one more is the run, and then the operation. -/
theorem run_concat (b : Buffer σ τ) (ops : List Op) (op : Op) :
    b.run P (ops ++ [op]) = (b.run P ops).bind (fun b => op.apply P b) := by
  simp only [Buffer.run, List.foldlM_append, List.foldlM_cons, List.foldlM_nil, bind_pure]
  rfl

/-- On the text with a cursor, a run and one more operation is the run, and then the operation. -/
theorem plainRun_concat (ops : List Op) (op : Op) : Op.plainRun (ops ++ [op]) = op.plain (Op.plainRun ops) := by
  rw [Op.plainRun, List.foldl_append]
  rfl

/-- Every run comes to its end, with the runes and the position of some text with a cursor. -/
theorem exists_refines (h : b.Refines P c) (ops : List Op) : ∃ b' c', b.run P ops = some b' ∧ b'.Refines P c' := by
  induction ops using List.reverseRecOn with
  | nil => exact ⟨b, c, rfl, h⟩
  | append_singleton ops op ih =>
    obtain ⟨b₁, c₁, hrun, h₁⟩ := ih
    obtain ⟨b₂, hb₂, hr, hsame⟩ := refines_apply op h₁
    rw [run_concat, hrun, Option.bind_some]
    by_cases hok : op ≠ .deleteRemaining ∨ b₁.WidthReaches P
    · exact ⟨b₂, _, hb₂, hr hok⟩
    · rw [not_or, not_not] at hok
      rw [hsame hok.1 hok.2] at hb₂
      exact ⟨b₁, c₁, hb₂, h₁⟩

end BufferAux

open BufferAux

/-- **After any operations the position is in the text. The runes and the position are those of the plain editor in
every state of a run, exactly when at each `DeleteRemaining` the position is less than the columns of the text or at
its end.** -/
theorem buffer_refines_iff {lineWidth : Int} (h : 1 ≤ lineWidth) :
    (∀ ops, ∃ b, (newBuffer P h).run P ops = some b ∧ 0 ≤ b.pos ∧ b.pos ≤ b.size P) ∧
    ∀ ops, (∀ done, done <+: ops → ∃ b, (newBuffer P h).run P done = some b ∧ b.Refines P (Op.plainRun done)) ↔
      ∀ done, done ++ [.deleteRemaining] <+: ops → ∀ b, (newBuffer P h).run P done = some b → b.WidthReaches P := by
  have hnew : (newBuffer P h).Refines P {} := ⟨P.runes.values_new, rfl⟩
  refine ⟨fun ops => ?_, fun ops => ⟨fun hall done hdone b hb => ?_, fun hall done => ?_⟩⟩
  · obtain ⟨b, c, hrun, hr⟩ := exists_refines hnew ops
    have hle := c.pos_le
    have hpos := hr.pos
    have hsize := size_eq hr
    exact ⟨b, hrun, by omega, by omega⟩
  · by_contra hnot
    obtain ⟨b₁, hb₁, hr₁⟩ := hall done ((List.prefix_append _ _).trans hdone)
    obtain rfl := Option.some.inj (hb₁.symm.trans hb)
    obtain ⟨b₂, hb₂, hr₂⟩ := hall _ hdone
    obtain ⟨b₃, hb₃, _, hsame⟩ := refines_apply .deleteRemaining hr₁
    rw [run_concat, hb₁, Option.bind_some, hb₃] at hb₂
    obtain rfl := Option.some.inj hb₂
    rw [hsame rfl hnot, plainRun_concat] at hr₂
    -- the text is as long as before, so nothing was after the cursor
    have htext := congrArg List.length (hr₁.values.symm.trans hr₂.values)
    rw [Cursor.length_text, Cursor.length_text] at htext
    have hnil : (Op.plainRun done).after = [] := List.length_eq_zero_iff.1 (Nat.add_left_cancel htext)
    exact hnot (.inr ((pos_eq_size_iff hr₁).2 hnil))
  · induction done using List.reverseRecOn with
    | nil => exact fun _ => ⟨_, rfl, hnew⟩
    | append_singleton done op ih =>
      intro hdone
      obtain ⟨b, hb, hr⟩ := ih ((List.prefix_append _ _).trans hdone)
      obtain ⟨b', hb', hr', _⟩ := refines_apply op hr
      refine ⟨b', by rw [run_concat, hb, Option.bind_some, hb'], ?_⟩
      rw [plainRun_concat]
      refine hr' ?_
      by_cases hop : op = .deleteRemaining
      · subst hop
        exact .inr (hall done hdone b hb)
      · exact .inl hop

/-! ## Runes without a width -/

/-- Lists as lists. -/
def lists (α : Type) : ArrayList (List α) α where
  values l := l
  new := []
  size := List.length
  get l i := if i < 0 then none else l[i.toNat]?
  add x l := l ++ [x]
  insert i x l := if i < 0 then l else l.insertIdx i.toNat x
  set i x l := if i < 0 then l else if i.toNat = l.length then l ++ [x] else l.set i.toNat x
  remove i l := if i < 0 then l else l.eraseIdx i.toNat
  clear _ := []
  values_new := rfl
  size_eq _ := rfl
  get_nat _ i := if_neg (Int.not_lt.2 (Int.natCast_nonneg i))
  get_neg _ _ h := if_pos h
  values_add _ _ := rfl
  values_insert i _ _ _ := if_neg (Int.not_lt.2 (Int.natCast_nonneg i))
  values_remove i _ := if_neg (Int.not_lt.2 (Int.natCast_nonneg i))
  values_clear _ := rfl

/-- Lists as lists, and runes of one column but for the combining marks. -/
def marks : Packages (List Nat) (List Bool) where
  runes := lists Nat
  flags := lists Bool
  runeWidth r := if 0x300 ≤ r ∧ r ≤ 0x36F then 0 else 1
  stringWidth s := ((Utf8.runes s).map (fun r => if 0x300 ≤ r ∧ r ≤ 0x36F then 0 else 1)).sum

/-- Two letters, of which the second is deleted from the cursor on. -/
def typed : List Op := [.add 0x61, .add 0x62, .moveLeft, .deleteRemaining]

/-- The columns of the letters reach the cursor. -/
theorem buffer_refines_typed : (Op.plainRun typed).text = [0x61] ∧ ∀ done, done <+: typed →
    ∃ b, (newBuffer marks (by decide : (1 : Int) ≤ 10)).run marks done = some b ∧
      b.Refines marks (Op.plainRun done) := by
  refine ⟨by decide +kernel, ((buffer_refines_iff marks _).2 typed).2 (fun done hdone b hb => .inl ?_)⟩
  obtain rfl : done = [.add 0x61, .add 0x62, .moveLeft] := by
    rw [typed] at hdone
    rcases done with _ | ⟨_, _ | ⟨_, _ | ⟨_, _ | ⟨_, _⟩⟩⟩⟩
    all_goals simp_all [List.cons_prefix_cons]
  have hreaches : ((newBuffer marks (by decide : (1 : Int) ≤ 10)).run marks [.add 0x61, .add 0x62, .moveLeft]).all
      (fun b => decide (b.pos < b.displaySize marks)) = true := by decide +kernel
  rw [hb] at hreaches
  exact of_decide_eq_true hreaches

/-- A letter and an accent over it: with the cursor between them nothing is deleted from it on. -/
theorem buffer_keeps_accent : ¬∀ done, done <+: [.add 0x65, .add 0x301, .moveLeft, .deleteRemaining] →
    ∃ b, (newBuffer marks (by decide : (1 : Int) ≤ 10)).run marks done = some b ∧
      b.Refines marks (Op.plainRun done) := by
  intro h
  obtain ⟨b, hb, hr⟩ := h _ (List.prefix_refl _)
  have hkept : ((newBuffer marks (by decide : (1 : Int) ≤ 10)).run marks [.add 0x65, .add 0x301, .moveLeft,
    .deleteRemaining]).map
      (fun b => b.buf) = some [0x65, 0x301] := by decide +kernel
  have hplain : (Op.plainRun [.add 0x65, .add 0x301, .moveLeft, .deleteRemaining]).text = [0x65] := by decide +kernel
  rw [hb] at hkept
  have hbuf := (Option.some.inj hkept).symm.trans (hr.values.trans hplain)
  exact absurd hbuf (by decide)

end Ollama.Readline
