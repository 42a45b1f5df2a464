import Mathlib.Data.List.Perm.Basic
import Mathlib.Data.Int.Order.Basic
import Mathlib.Data.UInt

/-!
# Sorting by a comparison

A comparison is a function to the integers: below 0 for less, above for greater. A stable sort promises an order only
of a list the comparison is a strict weak ordering on (`StrictWeak`), so that is said of a list and not of a type.
Insertion from the back keeps the promise: `insertBack_sorted` and `insertBack_ties`.
-/

namespace Ollama.Lib

variable {α β : Type}

/-- A comparison is a strict weak ordering on a list. -/
structure StrictWeak (cmp : α → α → Int) (l : List α) : Prop where
  flip : ∀ a ∈ l, ∀ b ∈ l, cmp a b < 0 ↔ 0 < cmp b a
  trans : ∀ a ∈ l, ∀ b ∈ l, ∀ c ∈ l, cmp a b < 0 → cmp b c < 0 → cmp a c < 0
  tie : ∀ a ∈ l, ∀ b ∈ l, ∀ c ∈ l, cmp a b = 0 → cmp b c = 0 → cmp a c = 0

/-- No element is less than one before it. -/
def Sorted (cmp : α → α → Int) (l : List α) : Prop := l.Pairwise (fun a b => ¬cmp b a < 0)

/-- The elements that compare as equal stand in the same order in both lists. -/
def SameTies (cmp : α → α → Int) (l l' : List α) : Prop :=
  ∀ a ∈ l, l'.filter (fun b => cmp a b = 0) = l.filter (fun b => cmp a b = 0)

/-! ## Strict weak orderings -/

namespace StrictWeak

variable {cmp : α → α → Int} {l : List α}

/-- A comparison by a key of a linear order is one on every list. -/
theorem of_key [LinearOrder β] (key : α → β) (h : ∀ a ∈ l, ∀ b ∈ l, cmp a b < 0 ↔ key a < key b)
    (h' : ∀ a ∈ l, ∀ b ∈ l, 0 < cmp a b ↔ key b < key a) : StrictWeak cmp l := by
  have htie : ∀ a ∈ l, ∀ b ∈ l, cmp a b = 0 ↔ key a = key b := by
    intro a ha b hb
    have h1 := h a ha b hb
    have h2 := h' a ha b hb
    constructor
    · intro h0
      rw [h0] at h1 h2
      exact le_antisymm (not_lt.1 (fun hlt => absurd (h2.2 hlt) (by simp)))
        (not_lt.1 (fun hlt => absurd (h1.2 hlt) (by simp)))
    · intro heq
      rw [heq] at h1 h2
      have := mt h1.1 (lt_irrefl _)
      have := mt h2.1 (lt_irrefl _)
      omega
  refine ⟨?_, ?_, ?_⟩
  · intro a ha b hb
    rw [h a ha b hb, h' b hb a ha]
  · intro a ha b hb c hc hab hbc
    rw [h a ha b hb] at hab
    rw [h b hb c hc] at hbc
    rw [h a ha c hc]
    exact lt_trans hab hbc
  · intro a ha b hb c hc hab hbc
    rw [htie a ha b hb] at hab
    rw [htie b hb c hc] at hbc
    rw [htie a ha c hc]
    exact hab.trans hbc

/-- It is one on the elements of the list in any order, and on some of them. -/
theorem mono (h : StrictWeak cmp l) {l' : List α} (hsub : ∀ a ∈ l', a ∈ l) : StrictWeak cmp l' :=
  ⟨fun a ha b hb => h.flip a (hsub a ha) b (hsub b hb),
    fun a ha b hb c hc => h.trans a (hsub a ha) b (hsub b hb) c (hsub c hc),
    fun a ha b hb c hc => h.tie a (hsub a ha) b (hsub b hb) c (hsub c hc)⟩

theorem asymm (h : StrictWeak cmp l) {a b : α} (ha : a ∈ l) (hb : b ∈ l) (hab : cmp a b < 0) : ¬cmp b a < 0 := by
  have := (h.flip a ha b hb).1 hab
  omega

/-- Ties are the same from both sides. -/
theorem tie_comm (h : StrictWeak cmp l) {a b : α} (ha : a ∈ l) (hb : b ∈ l) (hab : cmp a b = 0) : cmp b a = 0 := by
  have h1 := h.flip a ha b hb
  have h2 := h.flip b hb a ha
  omega

/-- Not being less carries over. -/
theorem not_lt_trans (h : StrictWeak cmp l) {a b c : α} (ha : a ∈ l) (hb : b ∈ l) (hc : c ∈ l) (hab : ¬cmp a b < 0)
    (hbc : ¬cmp b c < 0) : ¬cmp a c < 0 := by
  intro hac
  have hba := h.flip b hb a ha
  have hcb := h.flip c hc b hb
  have hca := h.flip a ha c hc
  by_cases hlt : cmp b a < 0
  · exact hbc (h.trans b hb a ha c hc hlt hac)
  · by_cases hlt' : cmp c b < 0
    · exact hab (h.trans a ha c hc b hb hac hlt')
    · -- Both are ties, and so is the pair.
      have := h.tie a ha b hb c hc (by omega) (by omega)
      omega

end StrictWeak

/-! ## Insertion -/

/-- An element is moved back over those it is less than, in a list that is kept in reverse. -/
def insertBack (cmp : α → α → Int) (x : α) : List α → List α
  | [] => [x]
  | y :: ys => if cmp x y < 0 then y :: insertBack cmp x ys else x :: y :: ys

theorem insertBack_perm (cmp : α → α → Int) (x : α) (ys : List α) : (insertBack cmp x ys).Perm (x :: ys) := by
  induction ys with
  | nil => exact List.Perm.refl _
  | cons y ys ih =>
    rw [insertBack]
    split
    · exact (ih.cons y).trans (List.Perm.swap x y ys)
    · exact List.Perm.refl _

theorem insertBack_map (f : α → β) (cmp : β → β → Int) (x : α) (ys : List α) :
    (insertBack (fun a b => cmp (f a) (f b)) x ys).map f = insertBack cmp (f x) (ys.map f) := by
  induction ys with
  | nil => rfl
  | cons y ys ih =>
    rw [insertBack, List.map_cons, insertBack]
    split
    · rw [List.map_cons, ih]
    · rfl

/-- In a list that is sorted in reverse, an element finds its place. -/
theorem insertBack_sorted {cmp : α → α → Int} {x : α} {ys : List α} (h : StrictWeak cmp (x :: ys))
    (hys : ys.Pairwise (fun a b => ¬cmp a b < 0)) : (insertBack cmp x ys).Pairwise (fun a b => ¬cmp a b < 0) := by
  induction ys with
  | nil => exact List.pairwise_singleton _ _
  | cons y ys ih =>
    rw [List.pairwise_cons] at hys
    have hx : x ∈ x :: y :: ys := List.mem_cons_self
    have hy : y ∈ x :: y :: ys := by simp
    have htail : ∀ z ∈ ys, z ∈ x :: y :: ys := fun z hz => by simp [hz]
    rw [insertBack]
    split
    · rename_i hlt
      refine List.pairwise_cons.2 ⟨?_, ih (h.mono (fun z hz => ?_)) hys.2⟩
      · intro z hz
        rw [(insertBack_perm cmp x ys).mem_iff, List.mem_cons] at hz
        rcases hz with rfl | hz
        · exact h.asymm hx hy hlt
        · exact hys.1 z hz
      · rcases List.mem_cons.1 hz with rfl | hz
        · exact hx
        · exact htail z hz
    · rename_i hnot
      refine List.pairwise_cons.2 ⟨?_, List.pairwise_cons.2 hys⟩
      intro z hz
      rcases List.mem_cons.1 hz with rfl | hz
      · exact hnot
      · exact h.not_lt_trans hx hy (htail z hz) hnot (hys.1 z hz)

/-- An element passes none that it is equal to. -/
theorem insertBack_ties {cmp : α → α → Int} {x : α} {ys l : List α} (h : StrictWeak cmp l) (hx : x ∈ l)
    (hys : ∀ y ∈ ys, y ∈ l) {a : α} (ha : a ∈ l) :
    (insertBack cmp x ys).filter (fun b => cmp a b = 0) = (x :: ys).filter (fun b => cmp a b = 0) := by
  induction ys with
  | nil => rfl
  | cons y ys ih =>
    have hy := hys y List.mem_cons_self
    rw [insertBack]
    split
    · rename_i hlt
      rw [List.filter_cons, ih (fun z hz => hys z (List.mem_cons_of_mem _ hz)), List.filter_cons, List.filter_cons,
        List.filter_cons]
      -- What is equal to both would make them equal.
      by_cases hax : cmp a x = 0 <;> by_cases hay : cmp a y =
        0 <;> simp only [hax, hay, decide_true, decide_false, if_true, if_false, Bool.false_eq_true]
      have := h.tie x hx a ha y hy (h.tie_comm ha hx hax) hay
      omega
    · rfl

/-- Insertion sort: each element is inserted from the back, and the list kept in reverse. -/
def insertAll (cmp : α → α → Int) (l : List α) : List α :=
  (l.foldl (fun sorted x => insertBack cmp x sorted) []).reverse

theorem foldl_insertBack_perm (cmp : α → α → Int) (l sorted : List α) :
    (l.foldl (fun sorted x => insertBack cmp x sorted) sorted).Perm (l ++ sorted) := by
  induction l generalizing sorted with
  | nil => exact List.Perm.refl _
  | cons x l ih =>
    rw [List.foldl_cons, List.cons_append]
    exact (ih _).trans (((insertBack_perm cmp x sorted).append_left l).trans List.perm_middle)

theorem insertAll_perm (cmp : α → α → Int) (l : List α) : (insertAll cmp l).Perm l := by
  have := foldl_insertBack_perm cmp l []
  rw [List.append_nil] at this
  exact (List.reverse_perm _).trans this

theorem insertAll_map (f : α → β) (cmp : β → β → Int) (l : List α) :
    (insertAll (fun a b => cmp (f a) (f b)) l).map f = insertAll cmp (l.map f) := by
  have h : ∀ sorted, (l.foldl (fun sorted x => insertBack (fun a b => cmp (f a) (f b)) x sorted) sorted).map f =
      (l.map f).foldl (fun sorted x => insertBack cmp x sorted) (sorted.map f) := by
    induction l with
    | nil => exact fun sorted => rfl
    | cons x l ih =>
      intro sorted
      rw [List.foldl_cons, List.map_cons, List.foldl_cons, ih, insertBack_map]
  rw [insertAll, insertAll, List.map_reverse, h]
  rfl

/-- What has been inserted is sorted in reverse. -/
theorem foldl_insertBack_sorted {cmp : α → α → Int} {l sorted : List α} (h : StrictWeak cmp (l ++ sorted))
    (hsorted : sorted.Pairwise (fun a b => ¬cmp a b < 0)) :
    (l.foldl (fun sorted x => insertBack cmp x sorted) sorted).Pairwise (fun a b => ¬cmp a b < 0) := by
  induction l generalizing sorted with
  | nil => exact hsorted
  | cons x l ih =>
    rw [List.foldl_cons]
    refine ih (h.mono (fun z hz => ?_)) (insertBack_sorted (h.mono (fun z hz => ?_)) hsorted)
    · rw [List.mem_append, (insertBack_perm cmp x sorted).mem_iff] at hz
      simp only [List.cons_append, List.mem_cons, List.mem_append] at hz ⊢
      tauto
    · simp only [List.cons_append, List.mem_cons, List.mem_append] at hz ⊢
      tauto

/-- What has been inserted keeps its order where it compares as equal. -/
theorem foldl_insertBack_ties {cmp : α → α → Int} {l sorted m : List α} (h : StrictWeak cmp m) (hl : ∀ x ∈ l, x ∈ m)
    (hsorted : ∀ x ∈ sorted, x ∈ m) {a : α} (ha : a ∈ m) :
    (l.foldl (fun sorted x => insertBack cmp x sorted) sorted).filter (fun b => cmp a b = 0) =
      (l.filter (fun b => cmp a b = 0)).reverse ++ sorted.filter (fun b => cmp a b = 0) := by
  induction l generalizing sorted with
  | nil => rfl
  | cons x l ih =>
    have hx := hl x List.mem_cons_self
    rw [List.foldl_cons, ih (fun z hz => hl z (List.mem_cons_of_mem _ hz)), insertBack_ties h hx hsorted ha]
    · rw [List.filter_cons, List.filter_cons]
      split
      · rw [List.reverse_cons, List.append_assoc, List.singleton_append]
      · rfl
    · intro z hz
      rw [(insertBack_perm cmp x sorted).mem_iff] at hz
      rcases List.mem_cons.1 hz with rfl | hz
      · exact hx
      · exact hsorted z hz

/-- Insertion sort sorts. -/
theorem insertAll_sorted {cmp : α → α → Int} {l : List α} (h : StrictWeak cmp l) : Sorted cmp (insertAll cmp l) := by
  refine List.pairwise_reverse.2 (foldl_insertBack_sorted ?_ List.Pairwise.nil)
  rwa [List.append_nil]

/-- Insertion sort is stable. -/
theorem insertAll_ties {cmp : α → α → Int} {l : List α} (h : StrictWeak cmp l) : SameTies cmp l (insertAll cmp l) := by
  intro a ha
  rw [insertAll, List.filter_reverse,
    foldl_insertBack_ties h (fun _ hx => hx) (fun _ hx => (List.not_mem_nil hx).elim) ha,
    List.filter_nil, List.append_nil, List.reverse_reverse]

end Ollama.Lib
