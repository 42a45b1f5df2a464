import Ollama.Kvcache.Lemmas.Cells
import Ollama.Kvcache.Lemmas.Plan
import Mathlib.Data.Nat.Init

/-!
# The invariant of a defragmentation

`PlanInv` says where the loop of `defrag` stands: below `k` every hole is filled, from `u` on every cell has been
moved away, in between nothing has changed, and the holes filled are as many as the cells moved. It holds of every
turn, whatever the runs are.

The data follow in one of two ways. As long as no move extended a run, every occupied cell has the row of the location
its metadata came from (`Sound`). The first move that does extend one puts the run down in the wrong order, and from
then on some occupied cell has the row of an earlier location than its metadata (`Swapped`). Which of the two happens
is decided by the cells before the first turn (`Mergeable`).
-/

namespace Ollama.Kvcache

open Lib

/-- The number of empty cells below a location. -/
def holesBelow (cells : List CacheCell) (h : Nat) : Nat := (cells.take h).countP CacheCell.empty

/-- The number of occupied cells from a location on. -/
def occupiedFrom (cells : List CacheCell) (u : Nat) : Nat := (cells.drop u).countP (fun c => !c.empty)

/-- Two neighbouring holes `h`, `h + 1` and two neighbouring occupied cells `t`, `t + 1` beyond them that meet: as
many holes lie below `h` as occupied cells lie above `t + 1`. -/
def Mergeable (cells : List CacheCell) : Prop :=
  ∃ h t, h + 1 < t ∧ (cellAt cells h).empty ∧ (cellAt cells (h + 1)).empty ∧ ¬(cellAt cells t).empty ∧
    ¬(cellAt cells (t + 1)).empty ∧ holesBelow cells h = occupiedFrom cells (t + 2)

namespace DefragAux

/-! ## Counting cells -/

/-- One location further there is a hole more if its cell is empty. -/
theorem holesBelow_succ (cells : List CacheCell) (d : Nat) (h : d < cells.length) :
    holesBelow cells (d + 1) = holesBelow cells d + if (cellAt cells d).empty then 1 else 0 := by
  rw [cellAt_eq_getElem h]
  simp only [holesBelow, List.take_succ_eq_append_getElem h, List.countP_append, List.countP_singleton]

/-- Below a later location there are no fewer holes. -/
theorem holesBelow_mono (cells : List CacheCell) {a b : Nat} (h : a ≤ b) : holesBelow cells a ≤ holesBelow cells b :=
  (List.take_sublist_take_left h).countP_le

/-- From one location further on there is a cell fewer if this one is occupied. -/
theorem occupiedFrom_succ (cells : List CacheCell) (u : Nat) :
    occupiedFrom cells u = (if (cellAt cells u).empty then 0 else 1) + occupiedFrom cells (u + 1) := by
  by_cases hu : u < cells.length
  · rw [cellAt_eq_getElem hu]
    simp only [occupiedFrom, List.drop_eq_getElem_cons hu, List.countP_cons]
    cases cells[u].empty <;> simp [Nat.add_comm]
  · rw [cellAt_eq_default (by omega)]
    simp [occupiedFrom, List.drop_eq_nil_of_le (by omega : cells.length ≤ u),
      List.drop_eq_nil_of_le (by omega : cells.length ≤ u + 1)]

/-- Empty cells between two locations do not count. -/
theorem occupiedFrom_of_empty (cells : List CacheCell) {a b : Nat} (hab : a ≤ b)
    (h : ∀ j, a ≤ j → j < b → (cellAt cells j).empty) : occupiedFrom cells a = occupiedFrom cells b := by
  induction b, hab using Nat.le_induction with
  | base => rfl
  | succ b hab ih =>
    rw [ih (fun j h1 h2 => h j h1 (by omega)), occupiedFrom_succ cells b, if_pos (h b hab (by omega)), Nat.zero_add]

/-- From a later location on there are no more occupied cells. -/
theorem occupiedFrom_anti (cells : List CacheCell) {a b : Nat} (hab : a ≤ b) :
    occupiedFrom cells b ≤ occupiedFrom cells a := by
  induction b, hab using Nat.le_induction with
  | base => exact Nat.le_refl _
  | succ b _ ih =>
    have := occupiedFrom_succ cells b
    omega

/-! ## The inner loop -/

/-- What the inner loop finds: an occupied cell above `dst` and at or below `src` with only empty cells above it, or
`dst`. -/
theorem findSrc_spec (cells : List CacheCell) (dst : Nat) :
    ∀ src, dst ≤ src → dst ≤ findSrc cells dst src ∧ findSrc cells dst src ≤ src ∧
      (dst < findSrc cells dst src → ¬(cellAt cells (findSrc cells dst src)).empty) ∧
      ∀ j, findSrc cells dst src < j → j ≤ src → (cellAt cells j).empty := by
  intro src
  induction src with
  | zero =>
    intro h
    refine ⟨by simpa [findSrc] using h, by simp [findSrc], ?_, ?_⟩
    · intro h'
      simp [findSrc] at h'
    · intro j h1 h2
      simp [findSrc] at h1
      omega
  | succ src ih =>
    intro h
    by_cases hd : src + 1 > dst
    · by_cases he : (cellAt cells (src + 1)).empty
      · have hf : findSrc cells dst (src + 1) = findSrc cells dst src := by simp [findSrc, hd, he]
        rw [hf]
        obtain ⟨h1, h2, h3, h4⟩ := ih (by omega)
        refine ⟨h1, by omega, h3, fun j hj1 hj2 => ?_⟩
        by_cases hj : j = src + 1
        · rw [hj]
          exact he
        · exact h4 j hj1 (by omega)
      · have hf : findSrc cells dst (src + 1) = src + 1 := by simp [findSrc, he]
        rw [hf]
        exact ⟨h, Nat.le_refl _, fun _ => he, fun j h1 h2 => by omega⟩
    · have hf : findSrc cells dst (src + 1) = src + 1 := by simp [findSrc, hd]
      rw [hf]
      exact ⟨h, Nat.le_refl _, fun h' => by omega, fun j h1 h2 => by omega⟩

/-! ## The cells of a move -/

/-- After a move the destination has the cell of the source, which is empty. -/
theorem cellAt_move (cells : List CacheCell) (dst src j : Nat) (hd : dst < cells.length) (hs : src < cells.length) :
    cellAt ((cells.set dst (cellAt cells src)).set src {}) j =
      if j = src then {} else if j = dst then cellAt cells src else cellAt cells j := by
  rw [cellAt_set _ _ _ _ (by simpa using hs), cellAt_set _ _ _ _ hd]

/-! ## Where the loop stands -/

/-- The loop of `defrag` on the cells `c₀` before turn `d`: the holes below `k` are filled, the cells from `u` on
moved away, the ones in between as they were. The loop is over (`p.src ≤ k`) or `k` is the turn. -/
structure PlanInv (c₀ : List CacheCell) (d k u : Nat) (p : Plan) : Prop where
  le_turn : k ≤ d
  done : k = d ∨ p.src ≤ k
  front : u = p.src ∨ u = p.src + 1
  le_front : k ≤ u
  front_le : u ≤ c₀.length
  length : p.cells.length = c₀.length
  moved : ∀ j, u ≤ j → (cellAt p.cells j).empty
  kept : ∀ j, k ≤ j → j < u → cellAt p.cells j = cellAt c₀ j ∧ p.origin j = j
  taken : ∀ j, ¬(cellAt p.cells j).empty → cellAt p.cells j = cellAt c₀ (p.origin j)
  count : holesBelow c₀ k = occupiedFrom c₀ u

/-- The invariant holds before the first turn. -/
theorem planInv_start (cells : List CacheCell) : PlanInv cells 0 0 cells.length (Plan.start cells) := by
  refine ⟨Nat.le_refl _, Or.inl rfl, ?_, Nat.zero_le _, Nat.le_refl _, rfl, ?_, ?_, ?_, ?_⟩
  · simp only [Plan.start]
    omega
  · intro j hj
    rw [Plan.start, cellAt_eq_default hj]
    rfl
  · intro j _ _
    exact ⟨rfl, rfl⟩
  · intro j _
    rfl
  · simp [holesBelow, occupiedFrom]

/-- A turn the loop takes, and what it does: nothing, the end, or the move of the last occupied cell into the hole. -/
theorem turn_cases {c₀ : List CacheCell} {d k u : Nat} {p : Plan} (h : PlanInv c₀ d k u p) :
    (p.turn d = p ∧ (p.src ≤ d ∨ ¬(cellAt p.cells d).empty ∧ d < p.src)) ∨
    (p.turn d = { p with src := d } ∧ d < p.src ∧ k = d ∧ ∀ j, d ≤ j → (cellAt p.cells j).empty) ∨
    (∃ s, p.turn d = p.moveCell d s ∧ k = d ∧ d < s ∧ s < u ∧ d < p.src ∧ (cellAt p.cells d).empty ∧
      ¬(cellAt p.cells s).empty ∧ ∀ j, s < j → (cellAt p.cells j).empty) := by
  by_cases hd : d < p.src
  · have hk : k = d := by
      rcases h.done with hk | hk
      · exact hk
      · have := h.le_turn
        omega
    by_cases he : (cellAt p.cells d).empty
    · obtain ⟨h1, h2, h3, h4⟩ := findSrc_spec p.cells d p.src (by omega)
      have hab : ∀ j, findSrc p.cells d p.src < j → (cellAt p.cells j).empty := by
        intro j hj
        by_cases hj' : j ≤ p.src
        · exact h4 j hj hj'
        · apply h.moved
          have := h.front
          omega
      by_cases hf : findSrc p.cells d p.src > d
      · refine Or.inr (Or.inr ⟨findSrc p.cells d p.src, ?_, hk, hf, ?_, hd, he, h3 hf, hab⟩)
        · simp only [Plan.turn, if_pos hd, if_pos he, if_pos hf]
        · by_contra hu
          exact h3 hf (h.moved _ (by omega))
      · have hf' : findSrc p.cells d p.src = d := by omega
        refine Or.inr (Or.inl ⟨?_, hd, hk, ?_⟩)
        · rw [Plan.turn, if_pos hd, if_pos he, if_neg hf, hf']
        · intro j hj
          rcases Nat.eq_or_lt_of_le hj with rfl | hj
          · exact he
          · exact hab j (by omega)
    · refine Or.inl ⟨?_, Or.inr ⟨he, hd⟩⟩
      simp only [Plan.turn, if_pos hd, if_neg he]
  · refine Or.inl ⟨?_, Or.inl (by omega)⟩
    simp only [Plan.turn, if_neg hd]

/-- Every turn keeps the invariant. -/
theorem planInv_turn {c₀ : List CacheCell} {d k u : Nat} {p : Plan} (h : PlanInv c₀ d k u p) :
    ∃ k' u', PlanInv c₀ (d + 1) k' u' (p.turn d) := by
  have hfront := h.front
  have hlt : ∀ {j}, j < u → j < c₀.length := fun hj => Nat.lt_of_lt_of_le hj h.front_le
  rcases turn_cases h with ⟨ht, hc⟩ | ⟨ht, hd, hk, he⟩ | ⟨s, ht, hk, hds, hsu, hd, he, ho, hab⟩
  · rcases hc with hc | ⟨hne, hd⟩
    · refine ⟨k, u, ?_⟩
      rw [ht]
      have hle := h.le_turn
      have hover : p.src ≤ k := by
        rcases h.done with hk | hk
        · omega
        · exact hk
      exact ⟨by omega, Or.inr hover, h.front, h.le_front, h.front_le, h.length, h.moved, h.kept, h.taken, h.count⟩
    · have hk : k = d := by
        rcases h.done with hk | hk
        · exact hk
        · have := h.le_turn
          omega
      subst hk
      have hku : k < u := by omega
      refine ⟨k + 1, u, ?_⟩
      rw [ht]
      refine ⟨Nat.le_refl _, Or.inl rfl, h.front, hku, h.front_le, h.length, h.moved,
        fun j h1 h2 => h.kept j (by omega) h2, h.taken, ?_⟩
      rw [holesBelow_succ c₀ k (hlt hku), ← (h.kept k (Nat.le_refl _) hku).1, if_neg hne, Nat.add_zero, h.count]
  · subst hk
    refine ⟨k, k, ?_⟩
    rw [ht]
    refine ⟨by omega, Or.inr (Nat.le_refl _), Or.inl rfl, Nat.le_refl _, ?_, h.length, he, fun j h1 h2 => by omega,
      h.taken, ?_⟩
    · have := h.front_le
      have := h.le_front
      omega
    · rw [h.count]
      symm
      apply occupiedFrom_of_empty c₀ h.le_front
      intro j h1 h2
      rw [← (h.kept j h1 h2).1]
      exact he j h1
  · subst hk
    have hku : k < u := by omega
    have hkept := h.kept k (Nat.le_refl _) hku
    have hskept := h.kept s (by omega) hsu
    have hdl : k < p.cells.length := by rw [h.length]; exact hlt hku
    have hsl : s < p.cells.length := by rw [h.length]; exact hlt hsu
    have hcells : ∀ j, cellAt (p.moveCell k s).cells j =
        if j = s then {} else if j = k then cellAt p.cells s else cellAt p.cells j := by
      intro j
      exact cellAt_move p.cells k s j hdl hsl
    refine ⟨k + 1, s, ?_⟩
    rw [ht]
    refine ⟨Nat.le_refl _, Or.inl rfl, Or.inl rfl, hds, by have := h.front_le; omega, ?_, ?_, ?_, ?_, ?_⟩
    · simp [Plan.moveCell, h.length]
    · intro j hj
      rw [hcells]
      by_cases hjs : j = s
      · rw [if_pos hjs]
        rfl
      · rw [if_neg hjs, if_neg (by omega)]
        exact hab j (by omega)
    · intro j h1 h2
      rw [hcells, if_neg (by omega), if_neg (by omega)]
      have := h.kept j (by omega) (by omega)
      refine ⟨this.1, ?_⟩
      simp only [Plan.moveCell, Function.update_apply, if_neg (by omega : ¬j = k)]
      exact this.2
    · intro j hj
      rw [hcells] at hj ⊢
      by_cases hjs : j = s
      · rw [if_pos hjs] at hj
        exact absurd rfl hj
      · rw [if_neg hjs] at hj ⊢
        by_cases hjk : j = k
        · rw [if_pos hjk]
          simp only [Plan.moveCell, Function.update_apply, if_pos hjk, hskept.2]
          exact hskept.1
        · rw [if_neg hjk] at hj ⊢
          simp only [Plan.moveCell, Function.update_apply, if_neg hjk]
          exact h.taken j hj
    · rw [holesBelow_succ c₀ k (hlt hku), ← hkept.1, if_pos he, h.count]
      have h1 : occupiedFrom c₀ (s + 1) = occupiedFrom c₀ u := by
        apply occupiedFrom_of_empty c₀ (by omega)
        intro j hj1 hj2
        rw [← (h.kept j (by omega) hj2).1]
        exact hab j (by omega)
      rw [occupiedFrom_succ c₀ s, ← hskept.1, if_neg ho, h1, Nat.add_comm]

/-- The hole `d` takes the occupied cell `x` above which as many cells are occupied as holes lie below `d`. -/
theorem turn_eq_moveCell {c₀ : List CacheCell} {d k u x : Nat} {p : Plan} (h : PlanInv c₀ d k u p) (hx : d < x)
    (he : (cellAt c₀ d).empty) (ho : ¬(cellAt c₀ x).empty) (hc : holesBelow c₀ d = occupiedFrom c₀ (x + 1)) :
    k = d ∧ p.turn d = p.moveCell d x := by
  have hfront := h.front
  have hcount := h.count
  have hxs := occupiedFrom_succ c₀ x
  rw [if_neg ho] at hxs
  have hux : x + 1 ≤ u := by
    by_contra hlt
    have h1 := occupiedFrom_anti c₀ (by omega : u ≤ x)
    have h2 := holesBelow_mono c₀ h.le_turn
    omega
  have hk : k = d := by
    rcases h.done with hk | hk
    · exact hk
    · have := h.le_turn
      omega
  subst hk
  have hempty : ∀ j, x < j → j < u → (cellAt c₀ j).empty := by
    intro j h1 h2
    by_contra hj
    have h3 := occupiedFrom_anti c₀ (by omega : x + 1 ≤ j)
    have h4 := occupiedFrom_succ c₀ j
    rw [if_neg hj] at h4
    have h5 := occupiedFrom_anti c₀ (by omega : j + 1 ≤ u)
    omega
  have hkeptx := (h.kept x (by omega) (by omega)).1
  refine ⟨rfl, ?_⟩
  rcases turn_cases h with ⟨_, hc⟩ | ⟨_, _, _, hall⟩ | ⟨s, ht, _, hds, hsu, _, _, hso, hab⟩
  · rcases hc with hc | ⟨hne, _⟩
    · omega
    · rw [(h.kept k (Nat.le_refl _) (by omega)).1] at hne
      exact absurd he hne
  · rw [← hkeptx] at ho
    exact absurd (hall x (by omega)) ho
  · rw [ht]
    rcases Nat.lt_trichotomy s x with hs | rfl | hs
    · rw [← hkeptx] at ho
      exact absurd (hab x hs) ho
    · rfl
    · rw [(h.kept s (by omega) hsu).1] at hso
      exact absurd (hempty s hs hsu) hso

/-! ## Where the data are -/

/-- Before turn `d` no copy reaches `d` or beyond. -/
structure CopyInv (d : Nat) (p : Plan) : Prop where
  emitted : ∀ j, d ≤ j → pull p.emitted j = j
  run_le : 0 < p.run.len → p.run.dst + p.run.len ≤ d

/-- Behind the turns so far no copy has reached a row. -/
theorem CopyInv.all {d : Nat} {p : Plan} (h : CopyInv d p) : ∀ j, d ≤ j → pull p.all j = j := by
  intro j hj
  unfold Plan.all
  split
  · rename_i hl
    have := h.run_le hl
    rw [pull_snoc_of_not_mem _ _ _ (by omega)]
    exact h.emitted j hj
  · rw [List.append_nil]
    exact h.emitted j hj

/-- A move into the next hole reaches no row behind it. -/
theorem copyInv_moveCell {d : Nat} {p : Plan} (h : CopyInv d p) (s : Nat) : CopyInv (d + 1) (p.moveCell d s) := by
  by_cases hm : p.Merges d s
  · obtain ⟨hl, _, hd⟩ := id hm
    refine ⟨fun j hj => ?_, fun _ => ?_⟩
    · simp only [Plan.moveCell, hm, not_true_eq_false, and_false, if_false]
      exact h.emitted j (by omega)
    · simp only [Plan.moveCell, hm, if_true]
      omega
  · refine ⟨fun j hj => ?_, fun _ => ?_⟩
    · simp only [Plan.moveCell, hm, not_false_eq_true, and_true]
      split
      · rename_i hl
        have := h.run_le hl
        rw [pull_snoc_of_not_mem _ _ _ (by omega)]
        exact h.emitted j (by omega)
      · exact h.emitted j (by omega)
    · simp [Plan.moveCell, hm]

/-- A turn reaches no row behind it. -/
theorem copyInv_turn {c₀ : List CacheCell} {d k u : Nat} {p : Plan} (hp : PlanInv c₀ d k u p) (h : CopyInv d p) :
    CopyInv (d + 1) (p.turn d) := by
  have next : CopyInv (d + 1) p :=
    ⟨fun j hj => h.emitted j (by omega), fun hl => Nat.le_succ_of_le (h.run_le hl)⟩
  rcases turn_cases hp with ⟨ht, _⟩ | ⟨ht, _⟩ | ⟨s, ht, _⟩
  · rw [ht]
    exact next
  · rw [ht]
    exact ⟨next.emitted, next.run_le⟩
  · rw [ht]
    exact copyInv_moveCell h s

/-- No move has extended a run before turn `d`: the pending run is a single row, and every occupied cell has the row of the
location its metadata came from. -/
structure Sound (c₀ : List CacheCell) (d : Nat) (p : Plan) : Prop where
  len_le : p.run.len ≤ 1
  run : p.run.len = 1 → p.run.dst < d ∧ (cellAt c₀ p.run.dst).empty ∧ ¬(cellAt c₀ p.run.src).empty ∧
    holesBelow c₀ p.run.dst = occupiedFrom c₀ (p.run.src + 1) ∧ p.origin p.run.dst = p.run.src ∧
    ¬(cellAt p.cells p.run.dst).empty
  rows : ∀ j, ¬(cellAt p.cells j).empty → pull p.all j = p.origin j

/-- Some occupied cell has the row of an earlier location than its metadata came from. -/
def Swapped (d : Nat) (p : Plan) : Prop := ∃ j < d, ¬(cellAt p.cells j).empty ∧ pull p.all j < p.origin j

/-- What a move into `d` leaves at the other occupied cells. -/
theorem moveCell_other {c₀ : List CacheCell} {d k u s j : Nat} {p : Plan} (h : PlanInv c₀ d k u p) (hds : d < s)
    (hsu : s < u) (hj : j ≠ d) : (p.moveCell d s).origin j = p.origin j ∧
      cellAt (p.moveCell d s).cells j = if j = s then {} else cellAt p.cells j := by
  have hu := h.front_le
  have hl := h.length
  refine ⟨by simp [Plan.moveCell, hj], ?_⟩
  simp only [Plan.moveCell]
  rw [cellAt_move _ _ _ _ (by omega) (by omega)]
  simp [hj]

/-- What a move into `d` leaves there. -/
theorem moveCell_self {c₀ : List CacheCell} {d u s : Nat} {p : Plan} (h : PlanInv c₀ d d u p) (hds : d < s)
    (hsu : s < u) : (p.moveCell d s).origin d = s ∧ cellAt (p.moveCell d s).cells d = cellAt c₀ s := by
  have hu := h.front_le
  have hl := h.length
  obtain ⟨hkept, horigin⟩ := h.kept s (by omega) hsu
  refine ⟨by simp [Plan.moveCell, horigin], ?_⟩
  simp only [Plan.moveCell]
  rw [cellAt_move _ _ _ _ (by omega) (by omega), if_neg (by omega), if_pos rfl, hkept]

/-- A move that extends no run keeps the data with the metadata. -/
theorem sound_moveCell {c₀ : List CacheCell} {d u s : Nat} {p : Plan} (hp : PlanInv c₀ d d u p) (hc : CopyInv d p)
    (h : Sound c₀ d p) (hds : d < s) (hsu : s < u) (he : (cellAt p.cells d).empty) (ho : ¬(cellAt p.cells s).empty)
    (hab : ∀ j, s < j → (cellAt p.cells j).empty) (hm : ¬p.Merges d s) : Sound c₀ (d + 1) (p.moveCell d s) := by
  obtain ⟨horigin, hcell⟩ := moveCell_self hp hds hsu
  have hkeptd := (hp.kept d (Nat.le_refl _) (by omega)).1
  have hkepts := (hp.kept s (by omega) hsu).1
  have hrun : (p.moveCell d s).run = ⟨s, d, 1⟩ := by simp [Plan.moveCell, hm]
  refine ⟨by simp [hrun], fun _ => ?_, ?_⟩
  · rw [hrun]
    refine ⟨by simp, by rw [← hkeptd]; exact he, by rw [← hkepts]; exact ho, ?_, horigin, ?_⟩
    · simp only
      rw [hp.count]
      symm
      apply occupiedFrom_of_empty c₀ (by omega)
      intro j h1 h2
      rw [← (hp.kept j (by omega) h2).1]
      exact hab j (by omega)
    · simp only
      rw [hcell, ← hkepts]
      exact ho
  · intro j hj
    rw [Plan.all_moveCell_of_not_merges hm]
    by_cases hjd : j = d
    · subst hjd
      rw [pull_snoc_of_mem _ _ _ (by simp), horigin]
      simp only [Nat.sub_self, Nat.add_zero]
      exact hc.all s (by omega)
    · obtain ⟨ho', hc'⟩ := moveCell_other hp hds hsu hjd
      rw [pull_snoc_of_not_mem _ _ _ (by simp only; omega), ho']
      apply h.rows
      rw [hc'] at hj
      split at hj
      · exact absurd rfl hj
      · exact hj

/-- The first move that extends a run swaps rows. -/
theorem swapped_moveCell {c₀ : List CacheCell} {d u s : Nat} {p : Plan} (hp : PlanInv c₀ d d u p) (hc : CopyInv d p)
    (h : Sound c₀ d p) (hds : d < s) (hsu : s < u) (hm : p.Merges d s) : Swapped (d + 1) (p.moveCell d s) := by
  obtain ⟨hl, hsrc, hdst⟩ := id hm
  have hlen : p.run.len = 1 := by have := h.len_le; omega
  obtain ⟨hlt, _, _, _, horigin, hocc⟩ := h.run hlen
  obtain ⟨ho, hcell⟩ := moveCell_other hp hds hsu (by omega : p.run.dst ≠ d)
  refine ⟨p.run.dst, by omega, ?_, ?_⟩
  · rw [hcell, if_neg (by omega)]
    exact hocc
  · rw [Plan.all_moveCell_of_merges hm, ho, horigin, pull_snoc_of_mem _ _ _ (by simp only; omega)]
    simp only [Nat.sub_self, Nat.add_zero]
    rw [hc.emitted s (by omega)]
    omega

/-- Rows once swapped stay swapped. -/
theorem swapped_turn {c₀ : List CacheCell} {d k u : Nat} {p : Plan} (hp : PlanInv c₀ d k u p) (hc : CopyInv d p)
    (h : Swapped d p) : Swapped (d + 1) (p.turn d) := by
  obtain ⟨j, hj, hocc, hlt⟩ := h
  rcases turn_cases hp with ⟨ht, _⟩ | ⟨ht, _⟩ | ⟨s, ht, _, hds, hsu, _⟩
  · rw [ht]
    exact ⟨j, by omega, hocc, hlt⟩
  · rw [ht]
    exact ⟨j, by omega, hocc, hlt⟩
  · rw [ht]
    obtain ⟨ho, hcell⟩ := moveCell_other hp hds hsu (by omega : j ≠ d)
    refine ⟨j, by omega, by rw [hcell, if_neg (by omega)]; exact hocc, ?_⟩
    rw [ho]
    refine Nat.lt_of_le_of_lt ?_ hlt
    by_cases hm : p.Merges d s
    · obtain ⟨hl, hsrc, hdst⟩ := id hm
      rw [Plan.all_moveCell_of_merges hm, Plan.all, if_pos hl]
      by_cases hb : p.run.dst ≤ j ∧ j < p.run.dst + p.run.len
      · rw [pull_snoc_of_mem _ _ _ (by simp only; omega), pull_snoc_of_mem _ _ _ hb]
        simp only
        rw [hc.emitted _ (by omega), hc.emitted _ (by omega)]
        omega
      · apply Nat.le_of_eq
        rw [pull_snoc_of_not_mem _ _ _ (by simp only; omega), pull_snoc_of_not_mem _ _ _ hb]
    · apply Nat.le_of_eq
      rw [Plan.all_moveCell_of_not_merges hm, pull_snoc_of_not_mem _ _ _ (by simp only; omega)]

/-- A turn after which no run has been extended, or the move of the turn extended one: then the cells are mergeable. -/
theorem sound_turn {c₀ : List CacheCell} {d k u : Nat} {p : Plan} (hp : PlanInv c₀ d k u p) (hc : CopyInv d p)
    (h : Sound c₀ d p) :
    Sound c₀ (d + 1) (p.turn d) ∨ (Swapped (d + 1) (p.turn d) ∧ Mergeable c₀) := by
  have next : Sound c₀ (d + 1) p :=
    ⟨h.len_le, fun hl => ⟨by have := (h.run hl).1; omega, (h.run hl).2⟩, h.rows⟩
  rcases turn_cases hp with ⟨ht, _⟩ | ⟨ht, _⟩ | ⟨s, ht, hk, hds, hsu, _, he, ho, hab⟩
  · rw [ht]
    exact Or.inl next
  · rw [ht]
    exact Or.inl ⟨next.len_le, next.run, next.rows⟩
  · subst hk
    rw [ht]
    by_cases hm : p.Merges k s
    · refine Or.inr ⟨swapped_moveCell hp hc h hds hsu hm, ?_⟩
      obtain ⟨hl, hsrc, hdst⟩ := hm
      have hlen : p.run.len = 1 := by have := h.len_le; omega
      obtain ⟨_, h1, h2, h3, _, _⟩ := h.run hlen
      rw [hlen] at hsrc hdst
      refine ⟨p.run.dst, s, by omega, h1, ?_, ?_, ?_, ?_⟩
      · rw [← hdst, ← (hp.kept k (Nat.le_refl _) (by omega)).1]
        exact he
      · rw [← (hp.kept s (by omega) hsu).1]
        exact ho
      · rw [hsrc]
        exact h2
      · rw [h3, ← hsrc]
    · exact Or.inl (sound_moveCell hp hc h hds hsu he ho hab hm)

/-! ## The whole loop -/

/-- The plan after the first `n` turns. -/
def planAfter (cells : List CacheCell) (n : Nat) : Plan := (List.range n).foldl Plan.turn (Plan.start cells)

/-- One turn more is the turns so far, and then one. -/
theorem planAfter_succ (cells : List CacheCell) (n : Nat) :
    planAfter cells (n + 1) = (planAfter cells n).turn n := by
  simp [planAfter, List.range_succ]

/-- After any number of turns the invariant holds. -/
theorem planInv_planAfter (cells : List CacheCell) (n : Nat) : ∃ k u, PlanInv cells n k u (planAfter cells n) := by
  induction n with
  | zero => exact ⟨0, cells.length, planInv_start cells⟩
  | succ n ih =>
    obtain ⟨k, u, h⟩ := ih
    rw [planAfter_succ]
    exact planInv_turn h

/-- After any number of turns no copy has reached a row behind them. -/
theorem copyInv_planAfter (cells : List CacheCell) (n : Nat) : CopyInv n (planAfter cells n) := by
  induction n with
  | zero => exact ⟨fun j _ => rfl, fun h => absurd h (by simp [planAfter, Plan.start])⟩
  | succ n ih =>
    obtain ⟨k, u, h⟩ := planInv_planAfter cells n
    rw [planAfter_succ]
    exact copyInv_turn h ih

/-- After any number of turns the data are with the metadata, or rows are swapped and the cells were mergeable. -/
theorem sound_or_swapped (cells : List CacheCell) (n : Nat) :
    Sound cells n (planAfter cells n) ∨ (Swapped n (planAfter cells n) ∧ Mergeable cells) := by
  induction n with
  | zero =>
    refine Or.inl ⟨by simp [planAfter, Plan.start], fun h => absurd h (by simp [planAfter, Plan.start]), ?_⟩
    intro j _
    rfl
  | succ n ih =>
    obtain ⟨k, u, h⟩ := planInv_planAfter cells n
    rw [planAfter_succ]
    rcases ih with ih | ⟨ih, hm⟩
    · exact sound_turn h (copyInv_planAfter cells n) ih
    · exact Or.inr ⟨swapped_turn h (copyInv_planAfter cells n) ih, hm⟩

/-- A cell that has the row of another after some turns is there after all later ones. -/
theorem swapped_mono {cells : List CacheCell} {m n : Nat} (hmn : m ≤ n) (h : Swapped m (planAfter cells m)) :
    Swapped n (planAfter cells n) := by
  induction n, hmn using Nat.le_induction with
  | base => exact h
  | succ n _ ih =>
    obtain ⟨k, u, hp⟩ := planInv_planAfter cells n
    rw [planAfter_succ]
    exact swapped_turn hp (copyInv_planAfter cells n) ih

/-- On mergeable cells the two turns at the holes `h` and `h + 1` swap rows, if none were before. -/
theorem swapped_of_mergeable {cells : List CacheCell} (h : Mergeable cells) :
    Swapped cells.length (planAfter cells cells.length) := by
  obtain ⟨h, t, hht, he, he', ho, ho', hcount⟩ := h
  have hlen := lt_length_of_not_empty ho'
  apply swapped_mono (m := h + 2) (by omega)
  obtain ⟨k, u, hp⟩ := planInv_planAfter cells h
  obtain ⟨rfl, hturn⟩ := turn_eq_moveCell hp (by omega) he ho' hcount
  have hp1 := planInv_planAfter cells (k + 1)
  have hc1 := copyInv_planAfter cells (k + 1)
  rcases sound_or_swapped cells (k + 1) with hs1 | ⟨hsw, _⟩
  · obtain ⟨k1, u1, hp1⟩ := hp1
    have hcount1 : holesBelow cells (k + 1) = occupiedFrom cells (t + 1) := by
      have hx := occupiedFrom_succ cells (t + 1)
      rw [if_neg ho'] at hx
      rw [holesBelow_succ cells k (by omega), if_pos he, hcount, hx, Nat.add_comm]
    obtain ⟨rfl, hturn1⟩ := turn_eq_moveCell hp1 (by omega) he' ho hcount1
    have hmerge : (planAfter cells (k + 1)).Merges (k + 1) t := by
      have hrun := hs1.len_le
      rw [planAfter_succ, hturn] at hrun ⊢
      by_cases hm : (planAfter cells k).Merges k (t + 1)
      · simp only [Plan.moveCell, hm, if_true] at hrun
        have := hm.1
        omega
      · have hrun' : ((planAfter cells k).moveCell k (t + 1)).run = ⟨t + 1, k, 1⟩ := by simp [Plan.moveCell, hm]
        rw [Plan.Merges, hrun']
        exact ⟨Nat.one_pos, rfl, rfl⟩
    have htu : t < u1 := by
      by_contra hle
      have hx := occupiedFrom_succ cells t
      rw [if_neg ho] at hx
      have h1 := occupiedFrom_anti cells (by omega : u1 ≤ t)
      have h2 := hp1.count
      omega
    rw [planAfter_succ, hturn1]
    exact swapped_moveCell hp1 hc1 hs1 (by omega) htu hmerge
  · rw [planAfter_succ]
    obtain ⟨k1, u1, hp1⟩ := hp1
    exact swapped_turn hp1 hc1 hsw

/-- The cells of the plan come from the locations it says. -/
theorem final_taken (cells : List CacheCell) (j : Nat) (h : ¬(cellAt (Plan.final cells).cells j).empty) :
    cellAt (Plan.final cells).cells j = cellAt cells ((Plan.final cells).origin j) := by
  obtain ⟨k, u, hp⟩ := planInv_planAfter cells cells.length
  exact hp.taken j h

/-- The copies of the plan bring every occupied cell the row of the location its metadata came from, or the cells were
mergeable and some occupied cell gets another row. -/
theorem final_pull (cells : List CacheCell) :
    (¬Mergeable cells → ∀ j, ¬(cellAt (Plan.final cells).cells j).empty →
      pull (Plan.final cells).all j = (Plan.final cells).origin j) ∧
    (Mergeable cells → ∃ j, ¬(cellAt (Plan.final cells).cells j).empty ∧
      pull (Plan.final cells).all j ≠ (Plan.final cells).origin j) := by
  refine ⟨fun hm => ?_, fun hm => ?_⟩
  · rcases sound_or_swapped cells cells.length with h | ⟨_, h⟩
    · exact h.rows
    · exact absurd h hm
  · obtain ⟨j, _, hocc, hlt⟩ := swapped_of_mergeable hm
    exact ⟨j, hocc, Nat.ne_of_lt hlt⟩

end DefragAux

end Ollama.Kvcache
