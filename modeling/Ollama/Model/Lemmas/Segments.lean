import Ollama.Model.Lemmas.Encode

/-!
# Parts and their neighbours

The parts that are left of a word are a list of segments, and two parts with nothing between them are next to each
other in it (`Neighbours.segments_eq`, `exists_neighbours`). The links of a part lead to its neighbours, and still do
so when two neighbours are joined.
-/

namespace Ollama.Model

open Lib Utf8

/-- The parts that are left. -/
def segments (merges : List Merge) : List (List Nat) := (merges.map Merge.runes).filter (fun r => r ≠ [])

/-- There is a part at an index. -/
def Live (merges : List Merge) (i : Nat) : Prop := (entry merges i).runes ≠ []

/-- There are parts at two indices, and nothing between them. -/
structure Neighbours (merges : List Merge) (i j : Nat) : Prop where
  left : Live merges i
  right : Live merges j
  lt : i < j
  gap : Gap merges i j

/-- The links of each part lead to its neighbours. -/
structure Linked (merges : List Merge) : Prop where
  next : ∀ i, Live merges i → i < (entry merges i).n ∧ (entry merges i).n ≤ merges.length ∧
    Gap merges i (entry merges i).n ∧ ((entry merges i).n < merges.length → Live merges (entry merges i).n)
  prev : ∀ i, Live merges i → -1 ≤ (entry merges i).p ∧ (entry merges i).p < i ∧ Gap merges (entry merges i).p i ∧
    (0 ≤ (entry merges i).p → Live merges (entry merges i).p.toNat)

/-! ## Neighbours -/

theorem live_lt {merges : List Merge} {i : Nat} (h : Live merges i) : i < merges.length := by
  by_contra hle
  refine h ?_
  rw [entry, List.getElem?_eq_none (Nat.le_of_not_lt hle)]
  rfl

/-- A part has one neighbour before it. -/
theorem Neighbours.unique_left {merges : List Merge} {i i' j : Nat} (h : Neighbours merges i j)
    (h' : Neighbours merges i' j) : i = i' := by
  rcases Nat.lt_trichotomy i i' with hlt | heq | hgt
  · exact (h'.left (h.gap i' (by omega) h'.lt)).elim
  · exact heq
  · exact (h.left (h'.gap i (by omega) h.lt)).elim

/-- A part has one neighbour after it. -/
theorem Neighbours.unique_right {merges : List Merge} {i j j' : Nat} (h : Neighbours merges i j)
    (h' : Neighbours merges i j') : j = j' := by
  rcases Nat.lt_trichotomy j j' with hlt | heq | hgt
  · exact (h.right (h'.gap j (by have := h.lt; omega) hlt)).elim
  · exact heq
  · exact (h'.right (h.gap j' (by have := h'.lt; omega) hgt)).elim

/-- The link of a part to the next one leads to its neighbour. -/
theorem Linked.next_eq {merges : List Merge} {i j : Nat} (hlinked : Linked merges) (h : Neighbours merges i j) :
    (entry merges i).n = j := by
  obtain ⟨hlt, hle, hgap, hlive⟩ := hlinked.next i h.left
  rcases Nat.lt_or_eq_of_le hle with hin | hend
  · exact Neighbours.unique_right ⟨h.left, hlive hin, hlt, hgap⟩ h
  · have hj := live_lt h.right
    exact (h.right (hgap j (by have := h.lt; omega) (by omega))).elim

/-- The link of a part to the one before it leads to its neighbour. -/
theorem Linked.prev_eq {merges : List Merge} {i j : Nat} (hlinked : Linked merges) (h : Neighbours merges i j) :
    (entry merges j).p = i := by
  obtain ⟨hge, hlt, hgap, hlive⟩ := hlinked.prev j h.right
  by_cases hnone : 0 ≤ (entry merges j).p
  · have heq : i = (entry merges j).p.toNat :=
      h.unique_left ⟨hlive hnone, h.right, by omega, fun k h1 h2 => hgap k (by omega) h2⟩
    omega
  · exact (h.left (hgap i (by omega) h.lt)).elim

/-! ## Segments -/

/-- The segments before an index. -/
def segmentsBefore (merges : List Merge) (i : Nat) : List (List Nat) := segments (merges.take i)

/-- The segments from an index on. -/
def segmentsFrom (merges : List Merge) (i : Nat) : List (List Nat) := segments (merges.drop i)

theorem segments_append (a b : List Merge) : segments (a ++ b) = segments a ++ segments b := by
  rw [segments, List.map_append, List.filter_append]
  rfl

theorem segmentsBefore_append (merges : List Merge) (i : Nat) :
    segmentsBefore merges i ++ segmentsFrom merges i = segments merges := by
  rw [segmentsBefore, segmentsFrom, ← segments_append, List.take_append_drop]

theorem segmentsFrom_live {merges : List Merge} {i : Nat} (h : Live merges i) :
    segmentsFrom merges i = (entry merges i).runes :: segmentsFrom merges (i + 1) := by
  have hlt := live_lt h
  have hget : merges[i] = entry merges i := by simp [entry, hlt]
  rw [segmentsFrom, List.drop_eq_getElem_cons hlt, segments, List.map_cons, hget,
    List.filter_cons_of_pos (by exact decide_eq_true h)]
  rfl

theorem segmentsFrom_dead {merges : List Merge} {i : Nat} (h : ¬Live merges i) :
    segmentsFrom merges i = segmentsFrom merges (i + 1) := by
  by_cases hlt : i < merges.length
  · have hget : merges[i] = entry merges i := by simp [entry, hlt]
    rw [segmentsFrom, List.drop_eq_getElem_cons hlt, segments, List.map_cons, hget,
      List.filter_cons_of_neg (by simpa using not_not.1 h)]
    rfl
  · rw [segmentsFrom, segmentsFrom, List.drop_eq_nil_of_le (by omega), List.drop_eq_nil_of_le (by omega)]

/-- Over a gap there are no segments. -/
theorem segmentsFrom_gap {merges : List Merge} {i j : Nat} (h : Gap merges i j) (hij : i < j) :
    segmentsFrom merges (i + 1) = segmentsFrom merges j := by
  induction j with
  | zero => omega
  | succ j ih =>
    rcases Nat.lt_or_eq_of_le (Nat.le_of_lt_succ hij) with hlt | rfl
    · rw [ih (fun k h1 h2 => h k h1 (by omega)) hlt]
      exact segmentsFrom_dead (fun hlive => hlive (h j (by omega) (Nat.lt_succ_self j)))
    · rfl

/-- Neighbours are next to each other among the segments. -/
theorem Neighbours.segments_eq {merges : List Merge} {i j : Nat} (h : Neighbours merges i j) :
    segments merges = segmentsBefore merges i ++ (entry merges i).runes :: (entry merges j).runes ::
      segmentsFrom merges (j + 1) := by
  rw [← segmentsFrom_live h.right, ← segmentsFrom_gap h.gap h.lt, ← segmentsFrom_live h.left, segmentsBefore_append]

/-- The first segment from an index on. -/
theorem segmentsFrom_eq_cons {merges : List Merge} {i : Nat} {x : List Nat} {rest : List (List Nat)}
    (h : segmentsFrom merges i = x :: rest) :
    ∃ j, i ≤ j ∧ Live merges j ∧ (∀ k, i ≤ k → k < j → ¬Live merges k) ∧ (entry merges j).runes = x ∧
      segmentsFrom merges (j + 1) = rest := by
  induction hn : merges.length - i generalizing i with
  | zero =>
    rw [segmentsFrom, List.drop_eq_nil_of_le (by omega)] at h
    nomatch h
  | succ n ih =>
    by_cases hlive : Live merges i
    · rw [segmentsFrom_live hlive, List.cons.injEq] at h
      exact ⟨i, Nat.le_refl i, hlive, fun k h1 h2 => by omega, h.1, h.2⟩
    · rw [segmentsFrom_dead hlive] at h
      obtain ⟨j, hij, hj, hgap, hx, hrest⟩ := ih h (by omega)
      refine ⟨j, by omega, hj, fun k h1 h2 => ?_, hx, hrest⟩
      rcases Nat.lt_or_eq_of_le h1 with hlt | rfl
      · exact hgap k hlt h2
      · exact hlive

/-- A segment is a part at some index. -/
theorem segmentsFrom_eq_append {merges : List Merge} {l : List (List Nat)} {i : Nat} {x : List Nat}
    {rest : List (List Nat)} (h : segmentsFrom merges i = l ++ x :: rest) :
    ∃ j, Live merges j ∧ (entry merges j).runes = x ∧ segmentsFrom merges (j + 1) = rest := by
  induction l generalizing i with
  | nil =>
    obtain ⟨j, _, hj, _, hx, hrest⟩ := segmentsFrom_eq_cons h
    exact ⟨j, hj, hx, hrest⟩
  | cons y l ih =>
    obtain ⟨j, _, _, _, _, hrest⟩ := segmentsFrom_eq_cons h
    exact ih hrest

/-- Two segments next to each other are neighbours. -/
theorem exists_neighbours {merges : List Merge} {l r : List (List Nat)} {x y : List Nat}
    (h : segments merges = l ++ x :: y :: r) :
    ∃ i j, Neighbours merges i j ∧ (entry merges i).runes = x ∧ (entry merges j).runes = y ∧
      segmentsBefore merges i = l := by
  obtain ⟨i, hi, hx, hrest⟩ := segmentsFrom_eq_append (i := 0) (show segmentsFrom merges 0 = l ++ x :: y :: r from h)
  obtain ⟨j, hij, hj, hgap, hy, _⟩ := segmentsFrom_eq_cons hrest
  refine ⟨i, j, ⟨hi, hj, hij, fun k h1 h2 => not_not.1 (hgap k (by omega) h2)⟩, hx, hy, ?_⟩
  rw [← segmentsBefore_append merges i, segmentsFrom_live hi, hx, hrest] at h
  exact List.append_cancel_right h

/-- The segments before an index come first among those before a later one. -/
theorem segmentsBefore_length_le {merges : List Merge} {i j : Nat} (h : i ≤ j) :
    (segmentsBefore merges i).length ≤ (segmentsBefore merges j).length := by
  have htake : merges.take i ++ (merges.take j).drop i = merges.take j := by
    rw [← Nat.min_eq_left h, ← List.take_take, Nat.min_eq_left h, List.take_append_drop]
  rw [segmentsBefore, segmentsBefore, ← htake, segments_append, List.length_append]
  exact Nat.le_add_right _ _

/-! ## Joining two neighbours -/

section Join

variable {merges : List Merge} {a b : Nat}

/-- The links and runes after two neighbours are joined. -/
theorem Linked.entry_join (hlinked : Linked merges) (h : Neighbours merges a b) (i : Nat) :
    (entry (join merges a b) i).runes =
      (if i = a then (entry merges a).runes ++ (entry merges b).runes else if i =
        b then [] else (entry merges i).runes) ∧
    (entry (join merges a b) i).n = (if i = a then (entry merges b).n else (entry merges i).n) ∧
    (entry (join merges a b) i).p =
      (if i = (entry merges b).n ∧ (entry merges b).n < merges.length then (a : Int) else (entry merges i).p) :=
  Model.entry_join h.lt (live_lt h.right) (hlinked.next b h.right).1 i

/-- The parts there are after a join: those from before, but for the right one. -/
theorem Linked.live_join (hlinked : Linked merges) (h : Neighbours merges a b) (i : Nat) :
    Live (join merges a b) i ↔ i ≠ b ∧ Live merges i := by
  have hne : a ≠ b := Nat.ne_of_lt h.lt
  unfold Live
  rw [(hlinked.entry_join h i).1]
  by_cases hia : i = a
  · subst hia
    rw [if_pos rfl]
    exact ⟨fun _ => ⟨hne, h.left⟩, fun _ h0 => h.left (List.append_eq_nil_iff.1 h0).1⟩
  · rw [if_neg hia]
    by_cases hib : i = b
    · rw [if_pos hib]
      exact ⟨fun h0 => (h0 rfl).elim, fun h0 => (h0.1 hib).elim⟩
    · rw [if_neg hib]
      exact ⟨fun h0 => ⟨hib, h0⟩, fun h0 => h0.2⟩

theorem Linked.gap_join (hlinked : Linked merges) (h : Neighbours merges a b) {x : Int} {y : Nat}
    (hgap : Gap merges x y) :
    Gap (join merges a b) x y :=
  hgap.join h.lt (live_lt h.right) (hlinked.next b h.right).1 h.left

/-- From the joined part to what followed the right one there is nothing. -/
theorem Linked.gap_joined (hlinked : Linked merges) (h : Neighbours merges a b) :
    Gap (join merges a b) a (entry merges b).n := by
  intro k h1 h2
  by_contra hk
  obtain ⟨hkb, hlive⟩ := (hlinked.live_join h k).1 hk
  rcases Nat.lt_or_gt_of_ne hkb with hlt | hgt
  · exact hlive (h.gap k h1 hlt)
  · exact hlive ((hlinked.next b h.right).2.2.1 k (by omega) h2)

/-- The links still lead to the neighbours. -/
theorem Linked.join (hlinked : Linked merges) (h : Neighbours merges a b) : Linked (Model.join merges a b) := by
  have hab := h.lt
  have hbn := (hlinked.next b h.right).1
  constructor
  · intro i hi
    obtain ⟨hib, hi⟩ := (hlinked.live_join h i).1 hi
    rw [(hlinked.entry_join h i).2.1, length_join]
    by_cases hia : i = a
    · subst hia
      rw [if_pos rfl]
      obtain ⟨_, hle, _, hlive⟩ := hlinked.next b h.right
      exact ⟨by omega, hle, hlinked.gap_joined h, fun hlt => (hlinked.live_join h _).2 ⟨by omega, hlive hlt⟩⟩
    · rw [if_neg hia]
      obtain ⟨hlt, hle, hgap, hlive⟩ := hlinked.next i hi
      refine ⟨hlt, hle, hlinked.gap_join h hgap, fun hin => (hlinked.live_join h _).2 ⟨fun heq => hia ?_, hlive hin⟩⟩
      rw [heq] at hlt hgap
      exact Neighbours.unique_left ⟨hi, h.right, hlt, hgap⟩ h
  · intro i hi
    obtain ⟨hib, hi⟩ := (hlinked.live_join h i).1 hi
    rw [(hlinked.entry_join h i).2.2]
    by_cases hin : i = (entry merges b).n ∧ (entry merges b).n < merges.length
    · rw [if_pos hin, hin.1]
      exact ⟨by omega, by omega, hlinked.gap_joined h, fun _ => (hlinked.live_join h _).2 ⟨by omega, h.left⟩⟩
    · rw [if_neg hin]
      obtain ⟨hge, hlt, hgap, hlive⟩ := hlinked.prev i hi
      refine ⟨hge, hlt, hlinked.gap_join h hgap,
        fun hsome => (hlinked.live_join h _).2 ⟨fun heq => hin ?_, hlive hsome⟩⟩
      have hpb : (entry merges i).p = b := by omega
      rw [hpb] at hlt hgap
      have hnext := hlinked.next_eq ⟨h.right, hi, by omega, hgap⟩
      exact ⟨hnext.symm, hnext ▸ live_lt hi⟩

/-- The segments after two neighbours are joined. -/
theorem Linked.segments_join (hlinked : Linked merges) (h : Neighbours merges a b) :
    segments (Model.join merges a b) =
      segmentsBefore merges a ++ ((entry merges a).runes ++ (entry merges b).runes) :: segmentsFrom merges (b + 1) := by
  have hruns := runes_join h.lt (live_lt h.right) (hlinked.next b h.right).1
  have hb : b < merges.length := live_lt h.right
  have hjoined : Live (Model.join merges a b) a := (hlinked.live_join h a).2 ⟨Nat.ne_of_lt h.lt, h.left⟩
  have hafter : segmentsFrom (Model.join merges a b) (b + 1) = segmentsFrom merges (b + 1) := by
    unfold segmentsFrom segments
    rw [List.map_drop, List.map_drop, hruns, List.drop_set_of_lt (by omega),
      List.drop_set_of_lt (by have := h.lt; omega)]
  have hbefore : segmentsBefore (Model.join merges a b) a = segmentsBefore merges a := by
    unfold segmentsBefore segments
    rw [List.map_take, List.map_take, hruns, List.take_set_of_le (Nat.le_of_lt h.lt),
      List.take_set_of_le (Nat.le_refl a)]
  have hgap : Gap (Model.join merges a b) a (b + 1) := by
    intro k h1 h2
    by_contra hk
    obtain ⟨hkb, hlive⟩ := (hlinked.live_join h k).1 hk
    exact hlive (h.gap k h1 (by omega))
  rw [← segmentsBefore_append (Model.join merges a b) a, hbefore, segmentsFrom_live hjoined,
    (hlinked.entry_join h a).1, if_pos rfl, segmentsFrom_gap hgap (by have := h.lt; omega), hafter]

end Join

end Ollama.Model
