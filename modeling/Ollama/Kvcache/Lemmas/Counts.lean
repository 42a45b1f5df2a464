import Ollama.Kvcache.Lemmas.Entries
import Mathlib.Algebra.Order.BigOperators.Group.Finset

/-!
# How many cells there are

A property of cells in use is counted over the cells of a cache: a batch adds its cells, a defragmentation adds none
and loses none. After a defragmentation the cells in use lie in front of the free ones, so that `StartForward` finds a
place for every batch that fits in what is free (`startForward_not_full`).
-/

namespace Ollama.Kvcache

variable {κ ν : Type}

/-- A property that only cells in use have. -/
def OfUsed (q : CacheCell → Bool) : Prop := ∀ x : CacheCell, x.empty = true → q x = false

/-- The number of cells of a sequence at a position. -/
def Causal.count (c : Causal κ ν) (s p : Int) : Nat := c.cells.countP (fun x => s ∈ x.sequences ∧ x.pos = p)

/-- The number of cells in use. -/
def Causal.used (c : Causal κ ν) : Nat := c.cells.countP (fun x => !x.empty)

theorem ofUsed_mem (s p : Int) : OfUsed (fun x => s ∈ x.sequences ∧ x.pos = p) := by
  intro x hx
  simp [(empty_iff x).1 hx]

theorem ofUsed_used : OfUsed (fun x => !x.empty) := by
  intro x hx
  simp [hx]

/-! ## One cell -/

/-- Another cell at a location: the count loses the old one and gets the new one. -/
theorem countP_set (q : CacheCell → Bool) (cells : List CacheCell) {i : Nat} (hi : i < cells.length) (x : CacheCell) :
    (cells.set i x).countP q + (if q (cellAt cells i) then 1 else 0) = cells.countP q + if q x then 1 else 0 := by
  rw [List.countP_set hi, cellAt_eq_getElem hi]
  split
  · rename_i h
    have hpos : 0 < cells.countP q := List.countP_pos_iff.2 ⟨cells[i], List.getElem_mem hi, h⟩
    omega
  · omega

/-- Another cell over a free one. -/
theorem countP_set_empty {q : CacheCell → Bool} (hq : OfUsed q) {cells : List CacheCell} {i : Nat}
    (hi : i < cells.length) (he : (cellAt cells i).empty) (x : CacheCell) :
    (cells.set i x).countP q = cells.countP q + if q x then 1 else 0 := by
  have h := countP_set q cells hi x
  rw [hq _ he, if_neg Bool.false_ne_true] at h
  exact h

/-- A cell that moves to a free location. -/
theorem countP_move {q : CacheCell → Bool} (hq : OfUsed q) {cells : List CacheCell} {dst src : Nat}
    (hd : dst < cells.length) (hs : src < cells.length) (hne : dst ≠ src) (he : (cellAt cells dst).empty) :
    ((cells.set dst (cellAt cells src)).set src {}).countP q = cells.countP q := by
  have h1 := countP_set_empty hq hd he (cellAt cells src)
  have h2 := countP_set q (cells.set dst (cellAt cells src)) (by rwa [List.length_set] : src < _) {}
  rw [cellAt_set _ _ _ _ hd, if_neg (Ne.symm hne), hq {} rfl, if_neg Bool.false_ne_true] at h2
  omega

/-! ## Places -/

/-- Every cell in use is counted for one of its sequences at its position. -/
theorem used_le_sum (n m : Nat) (cells : List CacheCell)
    (h : ∀ x ∈ cells, ¬x.empty = true → ∃ s < n, ∃ p < m, ((s : Nat) : Int) ∈ x.sequences ∧ x.pos = ((p : Nat) : Int)) :
    cells.countP (fun x => !x.empty) ≤
      ∑ s ∈ Finset.range n, ∑ p ∈ Finset.range m,
        cells.countP (fun x => (s : Int) ∈ x.sequences ∧ x.pos = (p : Int)) := by
  induction cells with
  | nil => exact Nat.zero_le _
  | cons x cells ih =>
    have hrest := ih (fun y hy => h y (List.mem_cons_of_mem _ hy))
    simp only [List.countP_cons, Finset.sum_add_distrib]
    refine Nat.add_le_add hrest ?_
    split
    · rename_i hused
      obtain ⟨s, hs, p, hp, hat⟩ := h x (List.mem_cons_self ..) (by simpa using hused)
      have hterm : ∀ g : Nat → Nat → Nat, g s p ≤ ∑ s ∈ Finset.range n, ∑ p ∈ Finset.range m, g s p := by
        intro g
        calc g s p ≤ ∑ p ∈ Finset.range m, g s p :=
              Finset.single_le_sum_of_canonicallyOrdered (f := g s) (Finset.mem_range.2 hp)
          _ ≤ _ := Finset.single_le_sum_of_canonicallyOrdered (f := fun s => ∑ p ∈ Finset.range m,
            g s p) (Finset.mem_range.2 hs)
      have h1 := hterm (fun s p => if decide ((s : Int) ∈ x.sequences ∧ x.pos = (p : Int)) = true then 1 else 0)
      rw [if_pos (decide_eq_true hat)] at h1
      exact h1
    · exact Nat.zero_le _

/-- With one cell at most for each of `n` sequences at each of `m` positions, and none elsewhere, so many cells are in
use at most. -/
theorem used_le {n m : Nat} {cells : List CacheCell}
    (h : ∀ x ∈ cells, ¬x.empty = true → ∃ s < n, ∃ p < m, ((s : Nat) : Int) ∈ x.sequences ∧ x.pos = ((p : Nat) : Int))
    (hone : ∀ s p : Nat, cells.countP (fun x => (s : Int) ∈ x.sequences ∧ x.pos = (p : Int)) ≤ 1) :
    cells.countP (fun x => !x.empty) ≤ n * m := by
  calc cells.countP (fun x => !x.empty)
      ≤ ∑ s ∈ Finset.range n, ∑ p ∈ Finset.range m,
        cells.countP (fun x => (s : Int) ∈ x.sequences ∧ x.pos = (p : Int)) := used_le_sum n m cells h
    _ ≤ ∑ _s ∈ Finset.range n, ∑ _p ∈ Finset.range m, 1 :=
      Finset.sum_le_sum (fun s _ => Finset.sum_le_sum (fun p _ => hone s p))
    _ = n * m := by simp

/-! ## StartForward -/

/-- The loop of `StartForward` over free locations adds the cells of the batch. -/
theorem countP_store {q : CacheCell → Bool} (hq : OfUsed q) (batch : List (Int × Int)) (c : Causal κ ν) (loc : Nat)
    (hle : loc + batch.length ≤ c.cells.length) (he : ∀ j, loc ≤ j → j < loc + batch.length → (c.cell j).empty) :
    (c.store batch loc).cells.countP q = c.cells.countP q + batch.countP (fun x => q ⟨x.1, [x.2]⟩) := by
  induction batch generalizing c loc with
  | nil => rfl
  | cons x batch ih =>
    obtain ⟨pos, seq⟩ := x
    rw [List.length_cons] at hle he
    have hloc : loc < c.cells.length := by omega
    rw [Causal.store, ih _ (loc + 1) (by rw [List.length_set]; omega), List.countP_cons]
    · have h := countP_set_empty hq hloc (he loc (Nat.le_refl _) (by omega)) ⟨pos, [seq]⟩
      simp only [h]
      omega
    · intro j h1 h2
      rw [Causal.cell, cellAt_set _ _ _ _ hloc, if_neg (by omega)]
      exact he j (by omega) (by omega)

/-! ## Defragmentation -/

namespace DefragAux

/-- A turn of the loop keeps the cells in use. -/
theorem countP_turn {q : CacheCell → Bool} (hq : OfUsed q) {c₀ : List CacheCell} {d k u : Nat} {p : Plan}
    (h : PlanInv c₀ d k u p) :
    (p.turn d).cells.countP q = p.cells.countP q := by
  have hfront := h.front_le
  have hlen := h.length
  rcases turn_cases h with ⟨ht, _⟩ | ⟨ht, _⟩ | ⟨s, ht, _, hds, hsu, _, he, _⟩
  · rw [ht]
  · rw [ht]
  · rw [ht]
    exact countP_move hq (by omega) (by omega) (Nat.ne_of_lt hds) he

theorem countP_final {q : CacheCell → Bool} (hq : OfUsed q) (cells : List CacheCell) :
    (Plan.final cells).cells.countP q = cells.countP q := by
  have hall : ∀ n, (planAfter cells n).cells.countP q = cells.countP q := by
    intro n
    induction n with
    | zero => rfl
    | succ n ih =>
      obtain ⟨k, u, h⟩ := planInv_planAfter cells n
      rw [planAfter_succ, countP_turn hq h, ih]
  exact hall cells.length

/-- The locations the loop has passed are in use. -/
def Filled (d : Nat) (p : Plan) : Prop := ∀ j, j < d → j < p.src → ¬(cellAt p.cells j).empty

theorem filled_turn {c₀ : List CacheCell} {d k u : Nat} {p : Plan} (h : PlanInv c₀ d k u p) (hf : Filled d p) :
    Filled (d + 1) (p.turn d) := by
  have hfront := h.front_le
  have hlen := h.length
  intro j hj hsrc
  rcases turn_cases h with ⟨ht, hc⟩ | ⟨ht, hd, _⟩ | ⟨s, ht, _, hds, hsu, hd, _, ho, _⟩
  · rw [ht] at hsrc ⊢
    by_cases hjd : j = d
    · subst hjd
      rcases hc with hle | ⟨hne, _⟩
      · omega
      · exact hne
    · exact hf j (by omega) hsrc
  · rw [ht] at hsrc ⊢
    have hlt : j < d := hsrc
    exact hf j hlt (by omega)
  · rw [ht] at hsrc ⊢
    have hlt : j < s := hsrc
    show ¬(cellAt ((p.cells.set d (cellAt p.cells s)).set s {}) j).empty
    rw [cellAt_move _ _ _ _ (by omega) (by omega), if_neg (by omega)]
    split
    · exact ho
    · exact hf j (by omega) (by omega)

theorem filled_planAfter (cells : List CacheCell) (n : Nat) : Filled n (planAfter cells n) := by
  induction n with
  | zero =>
    intro j hj
    omega
  | succ n ih =>
    obtain ⟨k, u, h⟩ := planInv_planAfter cells n
    rw [planAfter_succ]
    exact filled_turn h ih

end DefragAux

/-- The cells in use lie in front of a location, the free ones from it on. -/
def Packed (cells : List CacheCell) (t : Nat) : Prop :=
  t ≤ cells.length ∧ (∀ j, j < t → ¬(cellAt cells j).empty) ∧ ∀ j, t ≤ j → (cellAt cells j).empty

/-- A defragmentation leaves the cells in use in front. -/
theorem packed_final (cells : List CacheCell) : ∃ t, Packed (Plan.final cells).cells t := by
  obtain ⟨k, u, h⟩ := DefragAux.planInv_planAfter cells cells.length
  have hfilled := DefragAux.filled_planAfter cells cells.length
  have hfinal : DefragAux.planAfter cells cells.length = Plan.final cells := rfl
  rw [hfinal] at h hfilled
  have hfront := h.front
  have hle := h.front_le
  have hlen := h.length
  by_cases hlast : u = (Plan.final cells).src + 1 ∧ ¬(cellAt (Plan.final cells).cells (Plan.final cells).src).empty
  · refine ⟨u, by omega, fun j hj => ?_, h.moved⟩
    by_cases hsrc : j = (Plan.final cells).src
    · rw [hsrc]
      exact hlast.2
    · exact hfilled j (by omega) (by omega)
  · refine ⟨(Plan.final cells).src, by omega, fun j hj => hfilled j (by omega) hj, fun j hj => ?_⟩
    by_cases hsrc : j = (Plan.final cells).src ∧ u = (Plan.final cells).src + 1
    · rw [hsrc.1]
      by_contra hne
      exact hlast ⟨hsrc.2, hne⟩
    · exact h.moved j (by omega)

/-- Where they lie in front, the cells in use are counted by the location they end at. -/
theorem Packed.used {cells : List CacheCell} {t : Nat} (h : Packed cells t) : cells.countP (fun x => !x.empty) = t := by
  obtain ⟨hle, hbefore, hafter⟩ := h
  have hfront : (cells.take t).countP (fun x => !x.empty) = (cells.take t).length := by
    rw [List.countP_eq_length]
    intro x hx
    obtain ⟨j, hj, rfl⟩ := List.mem_iff_getElem.1 hx
    rw [List.length_take] at hj
    have := hbefore j (by omega)
    rw [cellAt_eq_getElem (by omega)] at this
    simpa using this
  have hback : (cells.drop t).countP (fun x => !x.empty) = 0 := by
    rw [List.countP_eq_zero]
    intro x hx
    obtain ⟨j, hj, rfl⟩ := List.mem_iff_getElem.1 hx
    rw [List.length_drop] at hj
    have := hafter (t + j) (by omega)
    rw [cellAt_eq_getElem (by omega)] at this
    simpa using this
  rw [← List.take_append_drop t cells, List.countP_append, hfront, hback, List.length_take]
  omega

/-! ## Finding a place -/

/-- The loop of `findStartLoc` does not pass a block of free locations. -/
theorem findStartLocFrom_ne_none {batch loc : Nat} (hpos : 0 < batch) (all : List CacheCell)
    (hle : loc + batch ≤ all.length) (he : ∀ j, loc ≤ j → j < loc + batch → (cellAt all j).empty) :
    ∀ (cells : List CacheCell) (i start count : Nat), all.drop i = cells → start + count = i → i < loc + batch →
      (i ≤ loc ∨ start ≤ loc) → findStartLocFrom batch cells i start count ≠ none := by
  intro cells
  induction cells with
  | nil =>
    intro i start count hdrop _ hi _
    have := List.drop_eq_nil_iff.1 hdrop
    omega
  | cons x cells ih =>
    intro i start count hdrop hcount hi hstart
    have hlt : i < all.length := by omega
    rw [List.drop_eq_getElem_cons hlt, List.cons.injEq] at hdrop
    obtain ⟨hx, hrest⟩ := hdrop
    have hxi : cellAt all i = x := by rw [cellAt_eq_getElem hlt, hx]
    rw [findStartLocFrom]
    split
    · split
      · exact fun h => by cases h
      · exact ih (i + 1) start (count + 1) hrest (by omega) (by omega) (by omega)
    · rename_i hne
      have hbefore : i < loc := by
        by_contra hge
        exact hne (hxi ▸ he i (by omega) hi)
      exact ih (i + 1) (i + 1) 0 hrest rfl (by omega) (by omega)

/-- `findStartLoc` finds a place where there is one. -/
theorem findStartLoc_ne_none {c : Causal κ ν} (loc : Nat) (hpos : 0 < c.curBatchSize)
    (hle : loc + c.curBatchSize ≤ c.cells.length) (he : ∀ j, loc ≤ j → j < loc + c.curBatchSize → (c.cell j).empty) :
    c.findStartLoc ≠ none :=
  findStartLocFrom_ne_none hpos c.cells hle he c.cells 0 0 0 rfl rfl (by omega) (by omega)

/-- The cells after a defragmentation. -/
theorem defrag_cells {ctx : Ctx} {c c' : Causal κ ν} (h : c.defrag ctx = some c') :
    c'.cells = (Plan.final c.cells).cells ∧ c'.curBatchSize = c.curBatchSize := by
  rw [Causal.defrag] at h
  split at h
  · cases h
  · obtain rfl := Option.some.inj h
    exact ⟨(DefragAux.defragSt_layers _ c).1, rfl⟩

/-- `StartForward` has room for a batch that fits in the free cells: the only error is one of the backend. -/
theorem startForward_not_full {ctx : Ctx} {positions seqs : List Int} {c c' : Causal κ ν} {err : Option Err}
    (hpos : 0 < positions.length) (hroom : c.used + positions.length ≤ c.cells.length)
    (hs : c.startForward ctx positions seqs = some (c', err)) : err = ctx.floatErr := by
  simp only [Causal.startForward] at hs
  split at hs
  · exact (place_eq hs).2.1
  · split at hs
    · cases hs
    · rename_i c₁ hd
      obtain ⟨hcells, hbatch⟩ := defrag_cells hd
      obtain ⟨t, hpacked⟩ := packed_final c.cells
      have hused : t = c.used := hpacked.used.symm.trans (DefragAux.countP_final ofUsed_used c.cells)
      obtain ⟨_, _, hp⟩ := DefragAux.planInv_planAfter c.cells c.cells.length
      have hlen : (Plan.final c.cells).cells.length = c.cells.length := hp.length
      have hsize : c₁.curBatchSize = positions.length := hbatch
      have hcells' : c₁.cells = (Plan.final c.cells).cells := hcells
      have hfound : c₁.findStartLoc ≠ none := by
        refine findStartLoc_ne_none t (by omega) (by rw [hcells', hlen]; omega) (fun j h1 _ => ?_)
        rw [Causal.cell, hcells']
        exact hpacked.2.2 j h1
      split at hs
      · exact (place_eq hs).2.1
      · rename_i hnone
        exact absurd hnone hfound

/-- A batch adds its cells, and where `StartForward` defragments no cell is lost. -/
theorem countP_startForward {q : CacheCell → Bool} (hq : OfUsed q) {ctx : Ctx} {positions seqs : List Int}
    {c c' : Causal κ ν} (h : CacheInv c) (hs : c.startForward ctx positions seqs = some (c', none)) :
    c'.cells.countP q = c.cells.countP q + (positions.zip seqs).countP (fun x => q ⟨x.1, [x.2]⟩) := by
  obtain ⟨c₁, _, hsize, hfrom, hend⟩ := startForward_cases h hs
  have hcount : c₁.cells.countP q = c.cells.countP q := by
    rcases hfrom with rfl | ⟨_, hd⟩
    · rfl
    · rw [(defrag_cells hd).1]
      exact DefragAux.countP_final hq c.cells
  rcases hend with ⟨loc, hloc, hle, hplace⟩ | ⟨_, herr⟩
  · obtain ⟨hlen, _, hmask⟩ := place_eq hplace
    obtain ⟨range, mask, rfl⟩ := buildMask_frame hmask
    have hzip : (positions.zip seqs).length = positions.length := by
      rw [List.length_zip]
      omega
    have he := (findStartLoc_spec hloc).2
    rw [hsize] at he
    have hstore := countP_store hq (positions.zip seqs) { c₁ with
      curLoc := loc, curCellRange := newRange } loc (by rw [hzip]; exact hle)
      (by rw [hzip]; exact he)
    rw [← hcount]
    exact hstore
  · nomatch herr

/-! ## CopyPrefix -/

/-- `CopyPrefix` gives `dst` the cells of `src` below `len`, and no other sequence any. -/
theorem count_copyPrefix {src dst len : Int} (hne : src ≠ dst) (c : Causal κ ν) (s p : Int) :
    (c.copyPrefix src dst len).count s p = if s = dst then if p < len then c.count src p else 0 else c.count s p := by
  have hmap : (c.copyPrefix src dst len).count s p =
      c.cells.countP (fun x => s ∈ (copyCell src dst len x).sequences ∧ x.pos = p) := by
    simp only [Causal.count, Causal.copyPrefix, List.countP_map]
    refine List.countP_congr (fun x _ => ?_)
    simp only [Function.comp_apply, copyCell_pos]
  rw [hmap]
  by_cases hs : s = dst
  · rw [if_pos hs]
    split
    · refine List.countP_congr (fun x _ => ?_)
      simp only [mem_copyCell, if_pos hs, decide_eq_true_eq]
      constructor
      · rintro ⟨⟨_, h, _⟩, hp⟩
        exact ⟨h, hp⟩
      · rintro ⟨h, hp⟩
        exact ⟨⟨hne, h, by omega⟩, hp⟩
    · rw [List.countP_eq_zero]
      intro x _
      simp only [mem_copyCell, if_pos hs, decide_eq_true_eq]
      rintro ⟨⟨_, _, h⟩, hp⟩
      omega
  · rw [if_neg hs]
    refine List.countP_congr (fun x _ => ?_)
    simp only [mem_copyCell, if_neg hs]

/-! ## Remove -/

/-- The cells `Remove` leaves: all are past its loop when it succeeds. -/
theorem remove_cells {ctx : Ctx} {seq b e off : Int} {c c' : Causal κ ν} {err : Option Err}
    (hoff : off = if e ≠ maxInt32 then int32 (b - e) else 0) (hr : c.remove ctx seq b e = some (c', err)) :
    c'.cells = (removeFrom seq b e off c.cells 0 newRange).1 ∧
      (err = none → (removeFrom seq b e off c.cells 0 newRange).2.2 = false) := by
  simp only [Causal.remove] at hr
  rw [← hoff] at hr
  split at hr
  · obtain ⟨rfl, rfl⟩ := Prod.mk.inj (Option.some.inj hr)
    exact ⟨rfl, fun hnone => (by cases hnone)⟩
  · rename_i hflag
    rw [Bool.not_eq_true] at hflag
    split at hr
    · obtain ⟨rfl, rfl⟩ := Prod.mk.inj (Option.some.inj hr)
      exact ⟨rfl, fun _ => hflag⟩
    · split at hr
      · obtain ⟨ls, rfl, _⟩ := shift_frame hr
        exact ⟨rfl, fun _ => hflag⟩
      · obtain ⟨rfl, rfl⟩ := Prod.mk.inj (Option.some.inj hr)
        exact ⟨rfl, fun _ => hflag⟩

/-- The other sequences keep their cells, whether `Remove` succeeds or not. -/
theorem count_remove_of_ne {ctx : Ctx} {seq b e s : Int} {c c' : Causal κ ν} {err : Option Err} (hs : s ≠ seq)
    (hr : c.remove ctx seq b e = some (c', err)) (p : Int) : c'.count s p = c.count s p := by
  have hpass : ∀ (off : Int) (cells : List CacheCell), (∀ x ∈ cells, ¬blocksCell seq b e x) →
      (cells.map (removeCell seq b e off)).countP (fun x => s ∈ x.sequences ∧ x.pos = p) =
        cells.countP (fun x => s ∈ x.sequences ∧ x.pos = p) := by
    intro off cells hno
    rw [List.countP_map]
    refine List.countP_congr (fun x hx => ?_)
    obtain ⟨hmem, hpos⟩ := removeCell_of_ne off hs (hno x hx)
    simp only [Function.comp_apply, decide_eq_true_eq, hmem]
    constructor
    · rintro ⟨h, hp⟩
      exact ⟨h, (hpos h).symm.trans hp⟩
    · rintro ⟨h, hp⟩
      exact ⟨h, (hpos h).trans hp⟩
  rw [Causal.count, (remove_cells rfl hr).1]
  generalize (if e ≠ maxInt32 then int32 (b - e) else 0) = off
  rcases removeFrom_cases seq b e off c.cells 0 newRange with ⟨hout, hno⟩ | ⟨pre, x, post, hcells, _, hno, hout, _⟩
  · rw [hout]
    exact hpass off c.cells hno
  · rw [hout, Causal.count, hcells, List.countP_append, List.countP_append, hpass off pre hno]

/-- The sequences and positions of the cells in use are those a batch can have. -/
def Causal.InRange (c : Causal κ ν) : Prop := ∀ x ∈ c.cells, ∀ s ∈ x.sequences, 0 ≤ s ∧ 0 ≤ x.pos ∧ x.pos < maxInt32

/-- The cell of a sequence at a position, after `Remove`. -/
theorem removeCell_at {seq b e p : Int} {cell : CacheCell} (hb : 0 ≤ b) (hbe : b ≤ e) (he : e ≤ maxInt32)
    (hin : seq ∈ cell.sequences → 0 ≤ cell.pos ∧ cell.pos < maxInt32) :
    (seq ∈ (removeCell seq b e (removeOffset b e) cell).sequences ∧
      (removeCell seq b e (removeOffset b e) cell).pos = p) ↔
      seq ∈ cell.sequences ∧ ((cell.pos < b ∧ cell.pos = p) ∨ (e ≤ cell.pos ∧ cell.pos + removeOffset b e = p)) := by
  have hint : seq ∈ cell.sequences → IsInt32 cell.pos := by
    intro h
    have := hin h
    unfold IsInt32
    unfold maxInt32 at this
    omega
  constructor
  · rintro ⟨h, hp⟩
    have hmem := mem_of_mem_removeCell h
    obtain ⟨_, ⟨hlt, heq⟩ | ⟨hge, heq⟩⟩ := removeCell_self hb hbe he (hint hmem) h
    · exact ⟨hmem, .inl ⟨hlt, heq.symm.trans hp⟩⟩
    · exact ⟨hmem, .inr ⟨hge, heq.symm.trans hp⟩⟩
  · rintro ⟨hmem, hwhere⟩
    have hstays : staysCell seq b e cell = true := by
      simp only [staysCell, decide_eq_true_eq]
      refine ⟨hmem, fun h => ?_⟩
      omega
    have h := (mem_removeCell_self seq b e (removeOffset b e) cell).2 hstays
    refine ⟨h, ?_⟩
    obtain ⟨_, ⟨hlt, heq⟩ | ⟨hge, heq⟩⟩ := removeCell_self hb hbe he (hint hmem) h
    · rw [heq]
      omega
    · rw [heq]
      omega

/-- A removal has no end, or moves what follows it down. -/
theorem removeOffset_cases {b e : Int} (hbe : b ≤ e) (he : e ≤ maxInt32) :
    (e = maxInt32 ∧ removeOffset b e = 0) ∨ (e < maxInt32 ∧ removeOffset b e = b - e ∧ removeOffset b e ≤ 0) := by
  unfold removeOffset
  by_cases h : e = maxInt32
  · rw [if_neg (not_not.2 h)]
    exact .inl ⟨h, rfl⟩
  · rw [if_pos h]
    exact .inr ⟨by omega, rfl, by omega⟩

/-- What the sequence itself has after a `Remove` that succeeds. -/
theorem count_remove_self {ctx : Ctx} {seq b e : Int} {c c' : Causal κ ν} (hb : 0 ≤ b) (hbe : b ≤ e) (he : e ≤ maxInt32)
    (hrange : c.InRange) (hr : c.remove ctx seq b e = some (c', none)) (p : Int) :
    c'.count seq p = if p < b then c.count seq p else if e = maxInt32 then 0 else c.count seq (p + (e - b)) := by
  have hoff := (int32_removeOffset hb hbe he).1
  obtain ⟨hcells, hflag⟩ := remove_cells hoff hr
  have hall : c'.cells = c.cells.map (removeCell seq b e (removeOffset b e)) := by
    rw [hcells]
    rcases removeFrom_cases seq b e (removeOffset b e) c.cells 0 newRange with ⟨hout, _⟩ | ⟨_, _, _, _, _, _, _, hstop⟩
    · rw [hout]
    · rw [hflag rfl] at hstop
      nomatch hstop
  have hcount : c'.count seq p = c.cells.countP (fun x => seq ∈ x.sequences ∧
      ((x.pos < b ∧ x.pos = p) ∨ (e ≤ x.pos ∧ x.pos + removeOffset b e = p))) := by
    rw [Causal.count, hall, List.countP_map]
    refine List.countP_congr (fun x hx => ?_)
    simp only [Function.comp_apply, decide_eq_true_eq]
    exact removeCell_at hb hbe he (fun hmem => (hrange x hx seq hmem).2)
  rw [hcount]
  have hin : ∀ x ∈ c.cells, seq ∈ x.sequences → x.pos < maxInt32 := fun x hx hmem => (hrange x hx seq hmem).2.2
  rcases removeOffset_cases hbe he with ⟨hmax, hoffset⟩ | ⟨hmax, hoffset⟩
  · by_cases hp : p < b
    · rw [if_pos hp]
      refine List.countP_congr (fun x hx => ?_)
      simp only [decide_eq_true_eq]
      refine and_congr_right (fun hmem => ?_)
      have := hin x hx hmem
      omega
    · rw [if_neg hp, if_pos hmax, List.countP_eq_zero]
      intro x hx
      simp only [decide_eq_true_eq]
      rintro ⟨hmem, hwhere⟩
      have := hin x hx hmem
      omega
  · obtain ⟨hoffset, _⟩ := hoffset
    by_cases hp : p < b
    · rw [if_pos hp]
      refine List.countP_congr (fun x _ => ?_)
      simp only [decide_eq_true_eq]
      refine and_congr_right (fun _ => ?_)
      omega
    · rw [if_neg hp, if_neg (Int.ne_of_lt hmax)]
      refine List.countP_congr (fun x _ => ?_)
      simp only [decide_eq_true_eq]
      refine and_congr_right (fun _ => ?_)
      omega

/-! ## When Remove succeeds -/

/-- The range of some cells is the one it was or has a location. -/
theorem rangeFrom_eq_or_covers (p : CacheCell → Bool) (cells : List CacheCell) (i : Nat) (r : CellRange) :
    rangeFrom p cells i r = r ∨ ∃ j, (rangeFrom p cells i r).Covers j := by
  induction cells generalizing i r with
  | nil => exact .inl rfl
  | cons x cells ih =>
    rw [rangeFrom]
    split
    · exact .inr ⟨i, (within_rangeFrom p cells (i + 1) _).covers (extend_covers r i)⟩
    · exact ih (i + 1) r

/-- No layer fails where the shift function does not. -/
theorem firstShiftErr_eq_none {err : Nat → Option Err} (h : ∀ i, err i = none) (ls : Layers κ ν) (i : Nat) :
    firstShiftErr err ls i = none := by
  induction ls generalizing i with
  | nil => rfl
  | cons l ls ih =>
    cases l with
    | none => exact ih (i + 1)
    | some l =>
      rw [firstShiftErr, h i, Option.none_or]
      exact ih (i + 1)

/-- The backend answers a call without an error. -/
structure Ctx.Answers (ctx : Ctx) : Prop where
  int : ctx.intErr = none
  shift : ∀ i, ctx.shiftErr i = none

/-- `Remove` with an end succeeds exactly when no shared cell stops it, if the backend answers and there is a shift
function. -/
theorem remove_succeeds_iff {ctx : Ctx} {seq b e : Int} {c : Causal κ ν} (hctx : ctx.Answers)
    (hshift : c.shiftFn.isSome) :
    (∃ c', c.remove ctx seq b e = some (c', none)) ↔ ∀ x ∈ c.cells, ¬blocksCell seq b e x := by
  simp only [Causal.remove]
  generalize (if e ≠ maxInt32 then int32 (b - e) else 0) = off
  rcases removeFrom_cases seq b e off c.cells 0 newRange with ⟨hout, hno⟩ | ⟨pre, x, post, hcells, hblocks, _, _, hflag⟩
  · refine ⟨fun _ => hno, fun _ => ?_⟩
    rw [hout]
    simp only [Bool.false_eq_true, if_false]
    split
    · exact ⟨_, rfl⟩
    · rename_i hne
      split
      · obtain ⟨f, hf⟩ := Option.isSome_iff_exists.1 hshift
        obtain ⟨j, hmin, hmax⟩ := (rangeFrom_eq_or_covers (staysCell seq b e) c.cells 0 newRange).resolve_left hne
        have hend : (rangeFrom (staysCell seq b e) c.cells 0 newRange).max < c.cells.length := by
          rcases rangeFrom_bounded (staysCell seq b e) c.cells with hnil | hlt
          · exact absurd (by rw [List.length_eq_zero_iff.1 hnil]; rfl) hne
          · exact hlt
        simp only [Causal.shift, hf, Function.update_self, Option.getD_some, List.length_map]
        rw [if_neg (by omega), hctx.int, Option.none_or, firstShiftErr_eq_none hctx.shift]
        exact ⟨_, rfl⟩
      · exact ⟨_, rfl⟩
  · refine ⟨fun hsome => ?_, fun hno => ?_⟩
    · obtain ⟨c', h⟩ := hsome
      rw [if_pos hflag] at h
      cases h
    · exact absurd hblocks (hno x (by rw [hcells]; simp))

/-- `Remove` without an end succeeds: no cell has a position it would have to shift. -/
theorem remove_open {ctx : Ctx} {seq b : Int} {c : Causal κ ν} (h : c.InRange) :
    ∃ c', c.remove ctx seq b maxInt32 = some (c', none) := by
  simp only [Causal.remove]
  rcases removeFrom_cases seq b maxInt32 0 c.cells 0 newRange with ⟨hout, _⟩ | ⟨pre, x, post, hcells, hblocks, _, _, _⟩
  · simp only [ne_eq, not_true_eq_false, if_false, hout, Bool.false_eq_true]
    split
    · exact ⟨_, rfl⟩
    · exact ⟨_, rfl⟩
  · obtain ⟨hmem, _, hge, _⟩ := hblocks
    have hx : x ∈ c.cells := by
      rw [hcells]
      simp
    have := h x hx seq hmem
    omega

/-! ## Positions in range -/

theorem Causal.InRange.startForward {ctx : Ctx} {positions seqs : List Int} {c c' : Causal κ ν} (hinv : CacheInv c)
    (h : c.InRange) (hpos : ∀ p ∈ positions, 0 ≤ p ∧ p < maxInt32) (hseq : ∀ s ∈ seqs, 0 ≤ s)
    (hs : c.startForward ctx positions seqs = some (c', none)) : c'.InRange := by
  -- no cell is out of range, since none was and none of the batch is
  have hq : OfUsed (fun x => x.sequences.any (fun s => decide (¬(0 ≤ s ∧ 0 ≤ x.pos ∧ x.pos < maxInt32)))) := by
    intro x hx
    simp [(empty_iff x).1 hx]
  have hcount := countP_startForward hq hinv hs
  have hold : c.cells.countP (fun x => x.sequences.any
    (fun s => decide (¬(0 ≤ s ∧ 0 ≤ x.pos ∧ x.pos < maxInt32)))) = 0 := by
    rw [List.countP_eq_zero]
    intro x hx hout
    obtain ⟨s, hmem, hs⟩ := List.any_eq_true.1 hout
    exact of_decide_eq_true hs (h x hx s hmem)
  have hnew : (positions.zip seqs).countP (fun x =>
    [x.2].any (fun s => decide (¬(0 ≤ s ∧ 0 ≤ x.1 ∧ x.1 < maxInt32)))) = 0 := by
    rw [List.countP_eq_zero]
    intro x hx hout
    obtain ⟨s, hmem, hs⟩ := List.any_eq_true.1 hout
    obtain ⟨h1, h2⟩ := List.of_mem_zip hx
    rw [List.mem_singleton] at hmem
    exact of_decide_eq_true hs ⟨hmem ▸ hseq x.2 h2, hpos x.1 h1⟩
  rw [hold, hnew] at hcount
  intro x hx s hmem
  by_contra hout
  exact List.countP_eq_zero.1 hcount x hx (List.any_eq_true.2 ⟨s, hmem, decide_eq_true hout⟩)

theorem Causal.InRange.copyPrefix {c : Causal κ ν} (h : c.InRange) (src : Int) {dst : Int} (hdst : 0 ≤ dst)
    (len : Int) :
    (c.copyPrefix src dst len).InRange := by
  intro y hy s hmem
  obtain ⟨x, hx, rfl⟩ := List.mem_map.1 hy
  rw [copyCell_pos]
  rw [mem_copyCell] at hmem
  split at hmem
  · rename_i hs
    obtain ⟨_, hsrc, _⟩ := hmem
    exact ⟨hs ▸ hdst, (h x hx src hsrc).2⟩
  · exact h x hx s hmem

theorem Causal.InRange.remove {ctx : Ctx} {seq b e : Int} {c c' : Causal κ ν} {err : Option Err} (h : c.InRange)
    (hb : 0 ≤ b) (hbe : b ≤ e) (he : e ≤ maxInt32) (hr : c.remove ctx seq b e = some (c', err)) : c'.InRange := by
  have hcell : ∀ x ∈ c.cells, ∀ s ∈ (removeCell seq b e (removeOffset b e) x).sequences,
      0 ≤ s ∧ 0 ≤ (removeCell seq b e (removeOffset b e) x).pos ∧
      (removeCell seq b e (removeOffset b e) x).pos < maxInt32 := by
    intro x hx s hs
    have hx' := h x hx s (mem_of_mem_removeCell hs)
    refine ⟨hx'.1, ?_⟩
    by_cases hmem : seq ∈ (removeCell seq b e (removeOffset b e) x).sequences
    · have hseq := h x hx seq (mem_of_mem_removeCell hmem)
      obtain ⟨_, hwhere⟩ := (removeCell_at hb hbe he (fun _ => hseq.2)).1 ⟨hmem, rfl⟩
      have hoffset := removeOffset_cases hbe he
      omega
    · -- the cell is not moved
      have hpos : (removeCell seq b e (removeOffset b e) x).pos = x.pos := by
        unfold removeCell at hmem ⊢
        split
        · rename_i hin
          split
          · rfl
          · rename_i hout
            rw [if_pos hin, if_neg hout] at hmem
            exfalso
            apply hmem
            split <;> exact hin
        · rfl
      rw [hpos]
      exact hx'.2
  intro y hy s hs
  rw [(remove_cells (int32_removeOffset hb hbe he).1 hr).1] at hy
  rcases removeFrom_cases seq b e (removeOffset b e) c.cells 0 newRange with ⟨hout, _⟩ |
    ⟨pre, x, post, hcells, _, _, hout, _⟩
  · rw [hout] at hy
    obtain ⟨x, hx, rfl⟩ := List.mem_map.1 hy
    exact hcell x hx s hs
  · rw [hout] at hy
    rcases List.mem_append.1 hy with hy | hy
    · obtain ⟨x, hx, rfl⟩ := List.mem_map.1 hy
      exact hcell x (by rw [hcells]; exact List.mem_append_left _ hx) s hs
    · exact h y (by rw [hcells]; exact List.mem_append_right _ hy) s hs

end Ollama.Kvcache
