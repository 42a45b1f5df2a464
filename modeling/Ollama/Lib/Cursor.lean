import Mathlib.Tactic.Common
import Mathlib.Data.List.InsertIdx
import Mathlib.Logic.Function.Iterate

/-!
# A text with a cursor

A text that is edited at a cursor: what is before the cursor, the nearest first, and what is after it. The cursor is
in the text by the way it is represented. An entry is inserted or deleted at the cursor, the cursor moves over one
entry, or over entries for as long as they have a property.
-/

namespace Ollama.Lib

/-- A text with a cursor. -/
structure Cursor (α : Type*) where
  before : List α := []
  after : List α := []
  deriving DecidableEq, Repr

namespace Cursor

variable {α : Type*}

/-- The text. -/
def text (c : Cursor α) : List α := c.before.reverse ++ c.after

/-- The number of entries before the cursor. -/
def pos (c : Cursor α) : Nat := c.before.length

/-- An entry is inserted before the cursor. -/
def insert (x : α) (c : Cursor α) : Cursor α := { c with before := x :: c.before }

/-- The entry before the cursor is deleted. -/
def backspace (c : Cursor α) : Cursor α := { c with before := c.before.tail }

/-- The entry after the cursor is deleted. -/
def delete (c : Cursor α) : Cursor α := { c with after := c.after.tail }

/-- Everything before the cursor is deleted. -/
def deleteBefore (c : Cursor α) : Cursor α := { c with before := [] }

/-- Everything after the cursor is deleted. -/
def deleteAfter (c : Cursor α) : Cursor α := { c with after := [] }

/-- The entries before the cursor are deleted for as long as they have a property. -/
def backspaceWhile (p : α → Bool) (c : Cursor α) : Cursor α := { c with before := c.before.dropWhile p }

/-- The cursor moves over the entry before it. -/
def left : Cursor α → Cursor α
  | ⟨[], after⟩ => ⟨[], after⟩
  | ⟨x :: before, after⟩ => ⟨before, x :: after⟩

/-- The cursor moves over the entry after it. -/
def right : Cursor α → Cursor α
  | ⟨before, []⟩ => ⟨before, []⟩
  | ⟨before, x :: after⟩ => ⟨x :: before, after⟩

/-- The cursor moves over the entries before it for as long as they have a property. -/
def leftWhile (p : α → Bool) (c : Cursor α) : Cursor α :=
  ⟨c.before.dropWhile p, (c.before.takeWhile p).reverse ++ c.after⟩

/-- The cursor moves over the entries after it for as long as they have a property. -/
def rightWhile (p : α → Bool) (c : Cursor α) : Cursor α :=
  ⟨(c.after.takeWhile p).reverse ++ c.before, c.after.dropWhile p⟩

/-- The cursor moves to the beginning. -/
def toStart (c : Cursor α) : Cursor α := ⟨[], c.text⟩

/-- The cursor moves to the end. -/
def toEnd (c : Cursor α) : Cursor α := ⟨c.text.reverse, []⟩

variable (c : Cursor α) (x : α) (p : α → Bool)

/-! ## The text and the cursor -/

/-- The cursor is within the text. -/
theorem pos_le : c.pos ≤ c.text.length := by
  rw [text, List.length_append, List.length_reverse]
  exact Nat.le_add_right _ _

/-- The text is what is before the cursor and what is behind it. -/
theorem length_text : c.text.length = c.pos + c.after.length :=
  by rw [text, List.length_append, List.length_reverse, pos]

/-- The entry after the cursor. -/
theorem getElem?_pos : c.text[c.pos]? = c.after.head? := by
  rw [text, pos, ← List.length_reverse, List.getElem?_append_right (Nat.le_refl _), Nat.sub_self,
    List.head?_eq_getElem?]

/-- The entry before the cursor. -/
theorem getElem?_pred {before : List α} (h : c.before = x :: before) : c.text[before.length]? = some x := by
  rw [text, h, List.reverse_cons, List.append_assoc, ← List.length_reverse,
    List.getElem?_append_right (Nat.le_refl _), Nat.sub_self]
  rfl

/-- An insertion is made at the cursor. -/
theorem text_insert : (c.insert x).text = c.text.insertIdx c.pos x := by
  have hend : ∀ l : List α, (l ++ c.after).insertIdx l.length x = l ++ x :: c.after := by
    intro l
    induction l with
    | nil => rfl
    | cons y l ih => rw [List.cons_append, List.length_cons, List.insertIdx_succ_cons, ih, List.cons_append]
  rw [text, text, pos, ← List.length_reverse, hend, insert, List.reverse_cons, List.append_assoc]
  rfl

/-- A deletion is made at the cursor. -/
theorem text_delete : c.delete.text = c.text.eraseIdx c.pos := by
  rw [text, text, pos, ← List.length_reverse, delete, List.eraseIdx_append_of_length_le (Nat.le_refl _),
    Nat.sub_self, List.eraseIdx_zero]

/-- A backspace takes away what is before the cursor. -/
theorem text_backspace {before : List α} (h : c.before = x :: before) :
    c.backspace.text = c.text.eraseIdx before.length := by
  rw [text, text, backspace, h, List.tail_cons, List.reverse_cons, List.append_assoc, ← List.length_reverse,
    List.eraseIdx_append_of_length_le (Nat.le_refl _), Nat.sub_self]
  rfl

/-- Moving to the left leaves the text. -/
@[simp]
theorem text_left : c.left.text = c.text := by
  obtain ⟨before, after⟩ := c
  cases before with
  | nil => rfl
  | cons x before => simp [left, text]

/-- Moving to the right leaves the text. -/
@[simp]
theorem text_right : c.right.text = c.text := by
  obtain ⟨before, after⟩ := c
  cases after with
  | nil => rfl
  | cons x after => simp [right, text]

/-! ## One entry after another -/

/-- `sweep p` takes a step over the entry before the cursor for as long as the entry has the property `p`. -/
structure Sweeps (step : Cursor α → Cursor α) (sweep : (α → Bool) → Cursor α → Cursor α) : Prop where
  before_step : ∀ c, (step c).before = c.before.tail
  nil : ∀ p c, c.before = [] → sweep p c = c
  pos : ∀ p c x, c.before.head? = some x → p x = true → sweep p c = sweep p (step c)
  neg : ∀ p c x, c.before.head? = some x → p x = false → sweep p c = c

/-- Moving to the left while a condition holds is a sweep. -/
theorem sweeps_left : Sweeps (α := α) left leftWhile := by
  refine ⟨fun c => ?_, fun p c h => ?_, fun p c x h hp => ?_, fun p c x h hp => ?_⟩
  all_goals
    obtain ⟨_ | ⟨y, before⟩, after⟩ := c
    all_goals simp_all [left, leftWhile]

/-- Deleting to the left while a condition holds is a sweep. -/
theorem sweeps_backspace : Sweeps (α := α) backspace backspaceWhile := by
  refine ⟨fun c => rfl, fun p c h => ?_, fun p c x h hp => ?_, fun p c x h hp => ?_⟩
  all_goals
    obtain ⟨_ | ⟨y, before⟩, after⟩ := c
    all_goals simp_all [backspace, backspaceWhile]

/-- Where the condition holds the cursor moves to the right, and goes on. -/
theorem rightWhile_of_pos (h : c.after.head? = some x) (hp : p x = true) : c.rightWhile p = c.right.rightWhile p := by
  obtain ⟨before, _ | ⟨y, after⟩⟩ := c
  · cases h
  · obtain rfl := Option.some.inj h
    simp [rightWhile, right, hp]

/-- Where the condition does not hold the cursor stays. -/
theorem rightWhile_of_neg (h : c.after.head?.all (fun x => !p x)) : c.rightWhile p = c := by
  obtain ⟨before, _ | ⟨y, after⟩⟩ := c
  · rfl
  · simp_all [rightWhile]

/-- A move to the right leaves one less behind the cursor. -/
theorem after_right : c.right.after = c.after.tail := by
  obtain ⟨before, _ | ⟨y, after⟩⟩ := c
  · rfl
  · rfl

/-- To delete the entry before the cursor as often as there are entries deletes them all. -/
theorem backspace_iterate : backspace^[c.pos] c = c.deleteBefore := by
  obtain ⟨before, after⟩ := c
  induction before with
  | nil => rfl
  | cons x before ih => exact ih

/-- To delete the entry after the cursor as often as there are entries deletes them all. -/
theorem delete_iterate : delete^[c.after.length] c = c.deleteAfter := by
  obtain ⟨before, after⟩ := c
  induction after with
  | nil => rfl
  | cons x after ih => exact ih

/-- To insert one entry after another puts them all before the cursor. -/
theorem insert_foldl (xs : List α) : xs.foldl (fun c x => insert x c) c = ⟨xs.reverse ++ c.before, c.after⟩ := by
  induction xs generalizing c with
  | nil => rfl
  | cons x xs ih => rw [List.foldl_cons, ih, List.reverse_cons, List.append_assoc, insert, List.singleton_append]

end Cursor

end Ollama.Lib
