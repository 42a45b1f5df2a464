import Mathlib.Data.List.Basic
import Mathlib.Order.Lattice

/-!
# Rows of cells

A page that is written row by row. A write names its column, and may be empty. The row ends when there is a cell
behind the column; else the cell of the column, if there is one, is written over. Everything that was written is on
the page, in its order, if and only if between a write that is not empty and the next one of its column there is one
of an earlier column, or one of a later column that is not empty.
-/

namespace Ollama.Lib

variable {κ : Type*} {α : Type*}

/-- The rows that are complete, and the one that is written. -/
structure Page (κ α : Type*) where
  rows : List (List (κ × α)) := []
  row : List (κ × α) := []

namespace Page

/-- The cell of a write. -/
def cell (w : κ × Option α) : Option (κ × α) := w.2.map (fun a => (w.1, a))

/-- The cells of some writes are that of the first and those of the others. -/
theorem filterMap_cell_cons (w : κ × Option α) (ws : List (κ × Option α)) :
    (w :: ws).filterMap cell = (cell w).toList ++ ws.filterMap cell := by
  rw [List.filterMap_cons]
  cases cell w <;> rfl

variable [LinearOrder κ]

/-- There is a cell behind the column. -/
def Ends (row : List (κ × α)) (k : κ) : Prop := ∃ e ∈ row, k < e.1

instance decidableEnds (row : List (κ × α)) (k : κ) : Decidable (Ends row k) :=
  inferInstanceAs (Decidable (∃ e ∈ row, k < e.1))

/-- One write. -/
def write (p : Page κ α) (w : κ × Option α) : Page κ α :=
  if Ends p.row w.1 then { rows := p.rows ++ [p.row], row := (cell w).toList }
  else { p with row := p.row.filter (fun e => e.1 < w.1) ++ (cell w).toList }

/-- Several writes. -/
def writes (p : Page κ α) (ws : List (κ × Option α)) : Page κ α := ws.foldl write p

/-- What is on the page. -/
def all (p : Page κ α) : List (κ × α) := p.rows.flatten ++ p.row

/-- A write that takes a cell away. -/
def Overwrites (row : List (κ × α)) (k : κ) : Prop := ¬Ends row k ∧ ∃ e ∈ row, e.1 = k

/-- After a write of column `k` that is not empty, a write that ends its row. -/
def Separates (k : κ) (w : κ × Option α) : Prop := w.1 < k ∨ k < w.1 ∧ w.2.isSome

/-- Before the next write of column `k` there is one that separates. -/
def Guarded (k : κ) (ws : List (κ × Option α)) : Prop :=
  ∀ mid c rest, ws = mid ++ (k, c) :: rest → ∃ z ∈ mid, Separates k z

/-- Every write that is not empty is separated from the next one of its column. -/
def Separated (ws : List (κ × Option α)) : Prop :=
  ∀ before k a mid c rest, ws = before ++ (k, some a) :: (mid ++ (k, c) :: rest) → ∃ z ∈ mid, Separates k z

variable {p : Page κ α} {row : List (κ × α)} {k : κ} {w : κ × Option α} {ws : List (κ × Option α)}

/-! ## One write -/

/-- A write of a column with a cell behind it ends the row. -/
theorem write_of_ends {c : Option α} (h : Ends p.row k) :
    p.write (k, c) = ⟨p.rows ++ [p.row], (cell (k, c)).toList⟩ := if_pos h

/-- A write of a column with no cell behind it keeps the cells before the column. -/
theorem write_of_not_ends {c : Option α} (h : ¬Ends p.row k) :
    p.write (k, c) = ⟨p.rows, p.row.filter (fun e => e.1 < k) ++ (cell (k, c)).toList⟩ := if_neg h

/-- A write that takes no cell away adds its own to the page. -/
theorem all_write_of_not_overwrites (h : ¬Overwrites p.row w.1) : (p.write w).all = p.all ++ (cell w).toList := by
  rw [write]
  split
  · simp only [all, List.flatten_append, List.flatten_cons, List.flatten_nil, List.append_nil]
  · rename_i hends
    have hbefore : p.row.filter (fun e => e.1 < w.1) = p.row := by
      refine List.filter_eq_self.2 (fun e he => decide_eq_true (lt_of_le_of_ne ?_ ?_))
      · exact not_lt.1 (fun hlt => hends ⟨e, he, hlt⟩)
      · exact fun heq => h ⟨hends, e, he, heq⟩
    simp only [all, hbefore, List.append_assoc]

/-- After a write that takes a cell away there are fewer cells than were written. -/
theorem length_all_write_of_overwrites (h : Overwrites p.row w.1) :
    (p.write w).all.length < p.all.length + (cell w).toList.length := by
  obtain ⟨hends, e, he, heq⟩ := h
  have hshort : (p.row.filter (fun e => e.1 < w.1)).length < p.row.length := by
    refine List.length_filter_lt_length_iff_exists.2 ⟨e, he, ?_⟩
    rw [heq, decide_eq_false (lt_irrefl _)]
    exact Bool.false_ne_true
  rw [write, if_neg hends]
  simp only [all, List.length_append]
  omega

/-- No write adds more than one cell. -/
theorem length_all_write_le (p : Page κ α) (w : κ × Option α) :
    (p.write w).all.length ≤ p.all.length + (cell w).toList.length := by
  by_cases h : Overwrites p.row w.1
  · exact Nat.le_of_lt (length_all_write_of_overwrites h)
  · exact Nat.le_of_eq (by rw [all_write_of_not_overwrites h, List.length_append])

/-! ## Guards -/

/-- Before no writes there is nothing to guard from. -/
theorem guarded_nil : Guarded k ([] : List (κ × Option α)) := by
  intro mid c rest h
  exact absurd h.symm (List.append_ne_nil_of_right_ne_nil _ (List.cons_ne_nil _ _))

/-- A column is not guarded from a write of itself that comes next. -/
theorem not_guarded_self (c : Option α) : ¬Guarded k ((k, c) :: ws) := by
  intro h
  obtain ⟨z, hz, _⟩ := h [] c ws rfl
  exact List.not_mem_nil hz

/-- A write that separates guards the column from all that follow. -/
theorem guarded_of_separates (h : Separates k w) : Guarded k (w :: ws) := by
  intro mid c rest heq
  cases mid with
  | nil =>
    obtain ⟨rfl, _⟩ := List.cons.inj heq
    rcases h with h | h
    · exact absurd h (lt_irrefl _)
    · exact absurd h.1 (lt_irrefl _)
  | cons z mid =>
    obtain ⟨rfl, _⟩ := List.cons.inj heq
    exact ⟨w, List.mem_cons_self, h⟩

/-- A write of another column that does not separate leaves the guard to those that follow. -/
theorem guarded_cons_iff (hne : w.1 ≠ k) (hnot : ¬Separates k w) : Guarded k (w :: ws) ↔ Guarded k ws := by
  constructor
  · intro h mid c rest heq
    obtain ⟨z, hz, hsep⟩ := h (w :: mid) c rest (by rw [heq]; rfl)
    rcases List.mem_cons.1 hz with rfl | hz
    · exact absurd hsep hnot
    · exact ⟨z, hz, hsep⟩
  · intro h mid c rest heq
    cases mid with
    | nil =>
      obtain ⟨rfl, _⟩ := List.cons.inj heq
      exact absurd rfl hne
    | cons z mid =>
      obtain ⟨rfl, hrest⟩ := List.cons.inj heq
      obtain ⟨z, hz, hsep⟩ := h mid c rest hrest
      exact ⟨z, List.mem_cons_of_mem _ hz, hsep⟩

/-- No writes are separated. -/
theorem separated_nil : Separated ([] : List (κ × Option α)) := by
  intro before k a mid c rest h
  exact absurd h.symm (List.append_ne_nil_of_right_ne_nil _ (List.cons_ne_nil _ _))

/-- Writes are separated if the first is guarded from the others, and those are separated. -/
theorem separated_cons_iff : Separated (w :: ws) ↔ (w.2.isSome → Guarded w.1 ws) ∧ Separated ws := by
  constructor
  · intro h
    refine ⟨fun hsome mid c rest heq => ?_, fun before k a mid c rest heq => ?_⟩
    · obtain ⟨a, ha⟩ := Option.isSome_iff_exists.1 hsome
      exact h [] w.1 a mid c rest (by rw [heq, ← ha]; rfl)
    · exact h (w :: before) k a mid c rest (by rw [heq]; rfl)
  · rintro ⟨hguard, hsep⟩ before k a mid c rest heq
    cases before with
    | nil =>
      obtain ⟨rfl, hws⟩ := List.cons.inj heq
      exact hguard rfl mid c rest hws
    | cons w' before =>
      obtain ⟨rfl, hws⟩ := List.cons.inj heq
      exact hsep before k a mid c rest hws

/-! ## Several writes -/

/-- The last cell of a row is guarded. -/
def Held (row : List (κ × α)) (ws : List (κ × Option α)) : Prop := ∀ e ∈ row, (∀ e' ∈ row, e'.1 ≤ e.1) → Guarded e.1 ws

/-- An empty row holds, whatever is written. -/
theorem held_nil : Held ([] : List (κ × α)) ws := fun _ he => absurd he List.not_mem_nil

/-- A row does not hold before a write that takes a cell away. -/
theorem not_held_of_overwrites (h : Overwrites row w.1) : ¬Held row (w :: ws) := by
  obtain ⟨hends, e, he, heq⟩ := h
  intro hheld
  have hlast : ∀ e' ∈ row, e'.1 ≤ e.1 := fun e' he' => by
    rw [heq]
    exact not_lt.1 (fun hlt => hends ⟨e', he', hlt⟩)
  have hguard := hheld e he hlast
  rw [heq] at hguard
  exact not_guarded_self w.2 hguard

/-- A row that ends takes care of its cells. -/
theorem held_of_ends (h : Ends row w.1) : Held row (w :: ws) := by
  obtain ⟨e, he, hlt⟩ := h
  exact fun e' _ hlast => guarded_of_separates (.inl (lt_of_lt_of_le hlt (hlast e he)))

/-- A row of one cell holds if its column is guarded. -/
theorem held_singleton (e : κ × α) : Held [e] ws ↔ Guarded e.1 ws := by
  constructor
  · intro h
    exact h e List.mem_cons_self (fun e' he' => by rw [List.mem_singleton.1 he'])
  · intro h e' he' _
    rw [List.mem_singleton.1 he']
    exact h

/-- A cell behind all the others is the last one. -/
theorem held_concat {e : κ × α} (h : ∀ e' ∈ row, e'.1 < e.1) : Held (row ++ [e]) ws ↔ Guarded e.1 ws := by
  constructor
  · intro hheld
    refine hheld e (List.mem_append_right _ List.mem_cons_self) (fun e' he' => ?_)
    rcases List.mem_append.1 he' with he' | he'
    · exact le_of_lt (h e' he')
    · rw [List.mem_singleton.1 he']
  · intro hguard e' he' hlast
    rcases List.mem_append.1 he' with he' | he'
    · exact absurd (h e' he') (not_lt.2 (hlast e (List.mem_append_right _ List.mem_cons_self)))
    · rw [List.mem_singleton.1 he']
      exact hguard

/-- The cell of a write holds if its column is guarded. -/
theorem held_cell : Held (cell w).toList ws ↔ (w.2.isSome → Guarded w.1 ws) := by
  obtain ⟨k, _ | a⟩ := w
  · exact ⟨fun _ h => absurd h Bool.false_ne_true, fun _ => held_nil⟩
  · exact (held_singleton (k, a)).trans ⟨fun h _ => h, fun h => h rfl⟩

/-- A write that takes nothing away: its own cell has to be guarded behind it. -/
theorem held_write_iff (h : ¬Overwrites p.row w.1) :
    Held (p.write w).row ws ↔ Held p.row (w :: ws) ∧ (w.2.isSome → Guarded w.1 ws) := by
  rw [write]
  split
  · rename_i hends
    exact held_cell.trans (and_iff_right (held_of_ends hends)).symm
  · rename_i hends
    have hlt : ∀ e ∈ p.row, e.1 < w.1 := fun e he =>
      lt_of_le_of_ne (not_lt.1 (fun hlt => hends ⟨e, he, hlt⟩)) (fun heq => h ⟨hends, e, he, heq⟩)
    have hbefore : p.row.filter (fun e => e.1 < w.1) = p.row :=
      List.filter_eq_self.2 (fun e he => decide_eq_true (hlt e he))
    dsimp only
    rw [hbefore]
    obtain ⟨k, _ | a⟩ := w
    · have hskip : ∀ e ∈ p.row, Guarded e.1 ((k, none) :: ws) ↔ Guarded e.1 ws := fun e he =>
        guarded_cons_iff (ne_of_gt (hlt e he))
          (fun hsep => hsep.elim (fun hback => lt_asymm hback (hlt e he))
            (fun hsome => absurd hsome.2 Bool.false_ne_true))
      have hrow : p.row ++ (cell (k, (none : Option α))).toList = p.row := List.append_nil _
      rw [hrow]
      constructor
      · intro hheld
        exact ⟨fun e he hlast => (hskip e he).2 (hheld e he hlast), fun hsome => absurd hsome Bool.false_ne_true⟩
      · intro hheld e he hlast
        exact (hskip e he).1 (hheld.1 e he hlast)
    · have hconcat : Held (p.row ++ [(k, a)]) ws ↔ Guarded k ws := held_concat hlt
      refine hconcat.trans ⟨fun hguard => ⟨fun e he _ => ?_, fun _ => hguard⟩, fun hheld => hheld.2 rfl⟩
      exact guarded_of_separates (.inr ⟨hlt e he, rfl⟩)

/-- Some writes do not add more cells than they have. -/
theorem length_all_writes_le (p : Page κ α) (ws : List (κ × Option α)) :
    (p.writes ws).all.length ≤ p.all.length + (ws.filterMap cell).length := by
  induction ws generalizing p with
  | nil => exact Nat.le_refl _
  | cons w ws ih =>
    have hstep := length_all_write_le p w
    have hrest := ih (p.write w)
    rw [filterMap_cell_cons, List.length_append]
    rw [writes] at hrest
    rw [writes, List.foldl_cons]
    omega

/-- Nothing is taken away if and only if the last cell is guarded, and the writes are separated. -/
theorem all_writes_iff_held : (p.writes ws).all = p.all ++ ws.filterMap cell ↔ Held p.row ws ∧ Separated ws := by
  induction ws generalizing p with
  | nil => exact ⟨fun _ => ⟨fun _ _ _ => guarded_nil, separated_nil⟩, fun _ => (List.append_nil _).symm⟩
  | cons w ws ih =>
    rw [filterMap_cell_cons, writes, List.foldl_cons]
    change ((p.write w).writes ws).all = _ ↔ _
    by_cases h : Overwrites p.row w.1
    · refine ⟨fun heq => ?_, fun hheld => absurd hheld.1 (not_held_of_overwrites h)⟩
      have hshort := length_all_write_of_overwrites h
      have hle := length_all_writes_le (p.write w) ws
      rw [heq, List.length_append, List.length_append] at hle
      omega
    · rw [← List.append_assoc, ← all_write_of_not_overwrites h, ih, separated_cons_iff, held_write_iff h, and_assoc]

/-- A page that was empty has everything that was written, in its order, if and only if the writes are separated. -/
theorem all_writes_iff : (writes ({} : Page κ α) ws).all = ws.filterMap cell ↔ Separated ws := by
  have h := @all_writes_iff_held κ α _ {} ws
  rw [show (Page.all ({} : Page κ α)) = [] from rfl, List.nil_append] at h
  rw [h]
  exact and_iff_right held_nil

end Page

end Ollama.Lib
