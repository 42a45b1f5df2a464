import Ollama.Kvcache.Lemmas.Entries

/-!
# The cache refines the map

In every run of forward passes, `CopyPrefix` and `Remove` in which no defragmentation happens and the positions of a
sequence stay distinct, each call does to the map of the cache what the map's operation does (`Call.apply`), and
leaves the entries of the sequences it is not about as they were, whether it succeeds or not. A `Remove` leaves them
also where its own sequence does not stay distinct, as it may not when it fails.
-/

namespace Ollama.Kvcache

open Lib

variable {κ ν : Type} [Zero κ] [Zero ν] {n : Nat}

/-- What the refinement needs of a cache: the invariant, `int32` positions, distinct ones, and a shift function that
leaves a key as it is at offset 0. -/
structure MapInv (shiftFn : Option (Nat → κ → Int → κ)) (c : Causal κ ν) : Prop where
  inv : CacheInv c
  positions : ∀ j, IsInt32 (c.cell j).pos
  distinct : c.Distinct
  shiftFn : c.shiftFn = shiftFn

namespace MapAux

/-! ## Remove -/

/-- Of the locations of other sequences, `Remove` leaves the sequence, its position and its row, whether it succeeds
or not. -/
theorem remove_cell_others {ctx : Ctx} {seq b e : Int} {c c' : Causal κ ν} {err : Option Err} (hinv : CacheInv c)
    (hf : ShiftsByOffset c.shiftFn) (hb : 0 ≤ b) (hbe : b ≤ e) (he : e ≤ maxInt32)
    (hr : c.remove ctx seq b e = some (c', err)) {s : Int} (hs : s ≠ seq) (j : Nat) :
    (s ∈ (c'.cell j).sequences ↔ s ∈ (c.cell j).sequences) ∧
      (s ∈ (c.cell j).sequences → (c'.cell j).pos = (c.cell j).pos ∧ c'.row n j = c.row n j) := by
  obtain ⟨hoff, hint⟩ := int32_removeOffset hb hbe he
  rcases remove_cases hinv hoff hr with ⟨hcells, hlayers, _⟩ | ⟨hno, hcell, hrows⟩
  · have hj := (removeFrom_cell seq b e (removeOffset b e) c.cells j).2
    rw [← hcells] at hj
    rcases hj with hj | ⟨hj, hblock⟩
    · have hj' : c'.cell j = c.cell j := hj
      rw [hj']
      exact ⟨Iff.rfl, fun _ => ⟨rfl, row_of_layers hlayers j⟩⟩
    · have hj' : c'.cell j = removeCell seq b e (removeOffset b e) (c.cell j) := hj
      obtain ⟨h1, h2⟩ := removeCell_of_ne (removeOffset b e) hs hblock
      rw [hj']
      exact ⟨h1, fun h => ⟨h2 h, row_of_layers hlayers j⟩⟩
  · obtain ⟨h1, h2⟩ := removeCell_of_ne (removeOffset b e) hs (hno j)
    rw [hcell j]
    refine ⟨h1, fun h => ⟨h2 h, ?_⟩⟩
    rcases hrows with ⟨hlayers, _⟩ | ⟨c₁, hl₁, hf₁, hc₁, _, hne, _, hshift⟩
    · exact row_of_layers hlayers j
    · rw [shift_row hshift j, row_of_layers hl₁]
      have hzero : ¬(seq ∈ (c₁.cell j).sequences ∧ (c₁.cell j).pos ≥ int32 (e + removeOffset b e)) := by
        rintro ⟨hm, hge⟩
        have hcell₁ : c₁.cell j = removeCell seq b e (removeOffset b e) (c.cell j) := by
          rw [← hcell j]
          unfold Causal.cell
          rw [hc₁]
        rw [hcell₁] at hm hge
        rw [h2 h, removeOffset, if_pos hne, hint] at hge
        have hstay := (mem_removeCell_self seq b e _ _).1 hm
        simp only [staysCell, decide_eq_true_eq] at hstay
        exact hno j ⟨hstay.1, hstay.2, by omega, s, h, hs⟩
      rw [if_neg hzero, rotateRow_zero (hf₁ ▸ hf), ite_self]

/-- The entries of other sequences are not touched by `Remove`, whether it succeeds or not. -/
theorem remove_view_others {ctx : Ctx} {seq b e : Int} {c c' : Causal κ ν} {err : Option Err} (hinv : CacheInv c)
    (hf : ShiftsByOffset c.shiftFn) (hb : 0 ≤ b) (hbe : b ≤ e) (he : e ≤ maxInt32)
    (hr : c.remove ctx seq b e = some (c', err)) {s : Int} (hs : s ≠ seq) : c'.view n s = c.view n s := by
  have hcell := remove_cell_others (n := n) hinv hf hb hbe he hr hs
  have hlen : c'.cells.length = c.cells.length := by
    rw [(hinv.remove hr).length, hinv.length]
    exact congrArg Prod.fst (remove_fixed hr)
  have hsame : ∀ p j, (s ∈ (c'.cell j).sequences ∧ (c'.cell j).pos = p) ↔
    (s ∈ (c.cell j).sequences ∧ (c.cell j).pos = p) := by
    intro p j
    rw [(hcell j).1]
    exact and_congr_right fun hj => by rw [((hcell j).2 hj).1]
  funext p
  unfold Causal.view
  simp only [hlen, hsame]
  refine Option.map_congr fun j hj => ?_
  have hfound := List.find?_some hj
  rw [decide_eq_true_eq] at hfound
  exact ((hcell j).2 hfound.1).2

/-- The rows of the sequence itself after a successful `Remove`: those after the block are rotated, unless the removal
has no end. -/
theorem remove_row {ctx : Ctx} {seq b e : Int} {c c' : Causal κ ν} (hinv : CacheInv c)
    (hpos : ∀ j, IsInt32 (c.cell j).pos) (hf : ShiftsByOffset c.shiftFn) (hb : 0 ≤ b) (hbe : b ≤ e) (he : e ≤ maxInt32)
    (hr : c.remove ctx seq b e = some (c', none)) (j : Nat) :
    c'.cell j = removeCell seq b e (removeOffset b e) (c.cell j) ∧
      (seq ∈ (c'.cell j).sequences →
        c'.row n j = if e ≠ maxInt32 ∧ (c.cell j).pos ≥ e then c.rotateRow (b - e) (c.row n j) else c.row n j) := by
  obtain ⟨hoff, hint⟩ := int32_removeOffset hb hbe he
  rcases remove_cases hinv hoff hr with ⟨_, _, hbad⟩ | ⟨hno, hcell, hrows⟩
  · nomatch hbad
  · refine ⟨hcell j, fun hm => ?_⟩
    rcases hrows with ⟨hlayers, hgone⟩ | ⟨c₁, hl₁, hf₁, hc₁, hcov, hne, _, hshift⟩
    · rw [row_of_layers hlayers, if_neg]
      rintro ⟨hne, _⟩
      exact hgone rfl hne j hm
    · have hcell₁ : c₁.cell j = c'.cell j := by
        unfold Causal.cell
        rw [hc₁]
      have hm' := hcell j ▸ hm
      obtain ⟨_, hlt⟩ := removeCell_self hb hbe he (hpos j) hm'
      rw [← hcell j] at hlt
      have hrot : c₁.rotateRow (n := n) = c.rotateRow := by
        funext off r i
        unfold Causal.rotateRow Causal.stored
        rw [hf₁, hl₁]
      rw [shift_row hshift j, if_pos (hcov j hm), row_of_layers hl₁, hcell₁, hrot]
      simp only [removeOffset, if_pos hne] at hlt ⊢
      rw [hint]
      rcases hlt with ⟨hlt, hp⟩ | ⟨hge, hp⟩
      · rw [if_neg (by omega : ¬(seq ∈ (c'.cell j).sequences ∧ (c'.cell j).pos ≥ b)), rotateRow_zero hf,
          if_neg (by omega : ¬(e ≠ maxInt32 ∧ (c.cell j).pos ≥ e))]
      · rw [if_pos ⟨hm, by omega⟩, if_pos ⟨hne, hge⟩]

/-- The entries of the sequence after a successful `Remove`. -/
theorem remove_holds {ctx : Ctx} {seq b e : Int} {c c' : Causal κ ν} (hinv : CacheInv c)
    (hpos : ∀ j, IsInt32 (c.cell j).pos) (hf : ShiftsByOffset c.shiftFn) (hb : 0 ≤ b) (hbe : b ≤ e) (he : e ≤ maxInt32)
    (hr : c.remove ctx seq b e = some (c', none)) (p : Int) (r : Row n κ ν) :
    c'.Holds n seq p r ↔
      if p < b then c.Holds n seq p r
      else if e = maxInt32 then p ≥ e ∧ c.Holds n seq p r
      else ∃ r₀, c.Holds n seq (p + (e - b)) r₀ ∧ c.rotateRow (b - e) r₀ = r := by
  have hloc := remove_row (n := n) hinv hpos hf hb hbe he hr
  have hself : ∀ j, seq ∈ (c'.cell j).sequences ↔ seq ∈ (c.cell j).sequences ∧
    ((c.cell j).pos < b ∨ (c.cell j).pos ≥ e) := by
    intro j
    rw [(hloc j).1, mem_removeCell_self]
    simp only [staysCell, decide_eq_true_eq]
    constructor
    · rintro ⟨h1, h2⟩
      exact ⟨h1, by omega⟩
    · rintro ⟨h1, h2⟩
      exact ⟨h1, by omega⟩
  have hmove : ∀ j, seq ∈ (c'.cell j).sequences →
      ((c.cell j).pos < b ∧ (c'.cell j).pos = (c.cell j).pos) ∨
        ((c.cell j).pos ≥ e ∧ (c'.cell j).pos = (c.cell j).pos + removeOffset b e) := by
    intro j hj
    rw [(hloc j).1] at hj ⊢
    exact (removeCell_self hb hbe he (hpos j) hj).2
  unfold removeOffset at hmove
  by_cases hp : p < b
  · rw [if_pos hp]
    constructor
    · rintro ⟨j, h1, h2, h3⟩
      have hj := hmove j h1
      rw [(hloc j).2 h1] at h3
      have hlt : (c.cell j).pos < b := by
        by_contra hge
        split at hj <;> omega
      rw [if_neg (by omega : ¬(e ≠ maxInt32 ∧ (c.cell j).pos ≥ e))] at h3
      exact ⟨j, ((hself j).1 h1).1, by omega, h3⟩
    · rintro ⟨j, h1, h2, h3⟩
      have hm := (hself j).2 ⟨h1, Or.inl (by omega)⟩
      have hj := hmove j hm
      refine ⟨j, hm, by omega, ?_⟩
      rw [(hloc j).2 hm, if_neg (by omega : ¬(e ≠ maxInt32 ∧ (c.cell j).pos ≥ e))]
      exact h3
  · rw [if_neg hp]
    by_cases hmax : e = maxInt32
    · simp only [hmax, ne_eq, not_true_eq_false, if_false, false_and] at hmove hloc ⊢
      rw [if_pos trivial]
      constructor
      · rintro ⟨j, h1, h2, h3⟩
        have hj := hmove j h1
        rw [(hloc j).2 h1] at h3
        exact ⟨by omega, j, ((hself j).1 h1).1, by omega, h3⟩
      · rintro ⟨hge, j, h1, h2, h3⟩
        have hm := (hself j).2 ⟨h1, Or.inr (by omega)⟩
        have hj := hmove j hm
        exact ⟨j, hm, by omega, ((hloc j).2 hm).trans h3⟩
    · rw [if_neg hmax]
      simp only [ne_eq, hmax, not_false_eq_true, if_true, true_and] at hmove hloc
      constructor
      · rintro ⟨j, h1, h2, h3⟩
        have hj := hmove j h1
        have hge : (c.cell j).pos ≥ e := by omega
        rw [(hloc j).2 h1, if_pos hge] at h3
        exact ⟨_, ⟨j, ((hself j).1 h1).1, by omega, rfl⟩, h3⟩
      · rintro ⟨r₀, ⟨j, h1, h2, rfl⟩, h3⟩
        have hm := (hself j).2 ⟨h1, Or.inr (by omega)⟩
        have hj := hmove j hm
        exact ⟨j, hm, by omega, by rw [(hloc j).2 hm, if_pos (by omega)]; exact h3⟩

/-! ## What a run keeps -/

theorem int32_isInt32 (x : Int) : IsInt32 (int32 x) := by
  unfold IsInt32 int32
  have h1 := Int.le_bmod (x := x) (m := 2 ^ 32) (by decide)
  have h2 := Int.bmod_lt (x := x) (m := 2 ^ 32) (by decide)
  omega

theorem removeCell_isInt32 {seq b e off : Int} {cell : CacheCell} (h : IsInt32 cell.pos) :
    IsInt32 (removeCell seq b e off cell).pos := by
  unfold removeCell
  split
  · split
    · exact h
    · split
      · exact int32_isInt32 _
      · exact h
  · exact h

omit [Zero κ] [Zero ν] in
/-- A batch with `int32` positions leaves `int32` positions. -/
theorem startForward_positions {ctx : Ctx} {positions seqs : List Int} {c c' : Causal κ ν} {err : Option Err}
    (hq : { c with curBatchSize := positions.length }.findStartLoc ≠ none) (hp : ∀ p ∈ positions, IsInt32 p)
    (hc : ∀ j, IsInt32 (c.cell j).pos) (hs : c.startForward ctx positions seqs = some (c', err)) (j : Nat) :
    IsInt32 (c'.cell j).pos := by
  obtain ⟨loc, _, _, _, _, _, hcell⟩ := startForward_cell hq hs
  rw [hcell j]
  split
  · rcases hx : (positions.zip seqs)[j - loc]? with _ | x
    · exact hc j
    · exact hp _ (List.of_mem_zip (List.mem_of_getElem? hx)).1
  · exact hc j

/-- The invariant of a forward pass. -/
theorem forward_inv {ctx : Ctx} {positions seqs : List Int} {rows : List (List (κ × ν))} {c c' : Causal κ ν}
    {err : Option Err} (hq : { c with curBatchSize := positions.length }.findStartLoc ≠ none)
    (hp : ∀ p ∈ positions, IsInt32 p) (hinv : CacheInv c) (hpos : ∀ j, IsInt32 (c.cell j).pos)
    (h : c.forward ctx positions seqs rows = some (c', err)) :
    CacheInv c' ∧ (∀ j, IsInt32 (c'.cell j).pos) ∧ c'.shiftFn = c.shiftFn := by
  obtain ⟨hinv', hfixed⟩ := forward_fixed hinv h
  have hshift : c'.shiftFn = c.shiftFn := congrArg Prod.snd hfixed
  unfold Causal.forward at h
  split at h
  · rename_i c₁ hs
    simp only [Option.map_eq_some_iff, Prod.mk.injEq] at h
    obtain ⟨c'', hput, rfl, rfl⟩ := h
    refine ⟨hinv', fun j => ?_, hshift⟩
    have hcell : c''.cell j = c₁.cell j := by
      unfold Causal.cell
      rw [(putLayers_layer hput).2.1]
    exact hcell ▸ startForward_positions hq hp hpos hs j
  · exact ⟨hinv', startForward_positions hq hp hpos h, hshift⟩

omit [Zero κ] [Zero ν] in
/-- The invariant of `Remove`. -/
theorem remove_inv {ctx : Ctx} {seq b e : Int} {c c' : Causal κ ν} {err : Option Err} (hinv : CacheInv c)
    (hpos : ∀ j, IsInt32 (c.cell j).pos) (h : c.remove ctx seq b e = some (c', err)) :
    (∀ j, IsInt32 (c'.cell j).pos) ∧ c'.shiftFn = c.shiftFn := by
  constructor
  · intro j
    rcases remove_cases hinv rfl h with ⟨hcells, _, _⟩ | ⟨_, hcell, _⟩
    · rcases (removeFrom_cell seq b e (if e ≠ maxInt32 then int32 (b - e) else 0) c.cells j).2 with hj | ⟨hj, _⟩
      · rw [Causal.cell, hcells, hj]
        exact hpos j
      · rw [Causal.cell, hcells, hj]
        exact removeCell_isInt32 (hpos j)
    · rw [hcell j]
      exact removeCell_isInt32 (hpos j)
  · exact congrArg Prod.snd (remove_fixed h)

/-- Every step of a run keeps what the refinement needs. -/
theorem mapInv_step {shiftFn : Option (Nat → κ → Int → κ)} {call : Call κ ν} {err : Option Err} {c c' : Causal κ ν}
    (h : MapInv shiftFn c) (hs : call.Step n err c c') : MapInv shiftFn c' := by
  obtain ⟨hadm, hrun, hd⟩ := hs
  cases call with
  | forward ctx positions seqs rows =>
    obtain ⟨hp, _, hq⟩ := hadm
    obtain ⟨h1, h2, h3⟩ := forward_inv hq hp h.inv h.positions hrun
    exact ⟨h1, h2, hd, h3.trans h.shiftFn⟩
  | copyPrefix src dst len =>
    simp only [Call.run, Option.some.injEq, Prod.mk.injEq] at hrun
    obtain ⟨rfl, _⟩ := hrun
    refine ⟨h.inv.copyPrefix src dst len, fun j => ?_, hd, h.shiftFn⟩
    rw [copyPrefix_cell, copyCell_pos]
    exact h.positions j
  | remove ctx seq b e =>
    obtain ⟨h1, h2⟩ := remove_inv h.inv h.positions hrun
    exact ⟨h.inv.remove hrun, h1, hd, h2.trans h.shiftFn⟩

/-- A new cache has no entries. -/
theorem mapInv_init {shiftFn : Option (Nat → κ → Int → κ)} {c : Causal κ ν} (h : (mapSystem n shiftFn).init c) :
    MapInv shiftFn c ∧ ∀ j, (c.cell j).sequences = [] := by
  obtain ⟨windowSize, config, capacity, hw, hi⟩ := h
  have hinv := cacheInv_init hw hi
  unfold Causal.init at hi
  rw [Option.ite_none_right_eq_some, Option.some.injEq] at hi
  obtain ⟨_, rfl⟩ := hi
  have hcell : ∀ m j : Nat, cellAt (List.replicate m {}) j = {} := by
    intro m j
    by_cases hj : j < m
    · rw [cellAt_eq_getElem (by simpa using hj)]
      simp
    · exact cellAt_eq_default (by simpa using hj)
  refine ⟨⟨hinv, fun j => ?_, fun s j j' hs => ?_, rfl⟩, fun j => ?_⟩
  · simp only [Causal.cell, hcell]
    decide
  · simp only [Causal.cell, hcell] at hs
    cases hs
  · simp only [Causal.cell, hcell]

theorem mapInv_reachable {shiftFn : Option (Nat → κ → Int → κ)} {c : Causal κ ν}
    (h : (mapSystem (ν := ν) n shiftFn).Reachable c) : MapInv shiftFn c := by
  apply h.invariant
  · intro c hc
    exact (mapInv_init hc).1
  · rintro c c' hc ⟨call, err, hs⟩
    exact mapInv_step hc hs

/-- The map of a cache with distinct positions is the one whose entries are those it holds. -/
theorem view_eq {c : Causal κ ν} (hd : c.Distinct) {s : Int} {m : KvMap (Row n κ ν)}
    (h : ∀ p r, c.Holds n s p r ↔ m s p = some r) : c.view n s = m s := by
  funext p
  apply Option.ext
  intro r
  rw [view_eq_some_iff hd]
  exact h p r

/-- The entries of a batch added to a map, when the positions of a sequence are distinct in the batch and in the map. -/
theorem forward_view {positions seqs : List Int} {rows : List (List (κ × ν))} {c c' : Causal κ ν} (hd : c.Distinct)
    (hd' : c'.Distinct) (h : ∀ s p r, c'.Holds n s p r ↔
      c.Holds n s p r ∨ ∃ i, (positions.zip seqs)[i]? = some (p, s) ∧ batchRow n rows i = r) :
    c'.view n = (c.view n).add (positions.zip seqs) (batchRow n rows) := by
  funext s
  apply view_eq hd'
  intro p r
  unfold KvMap.add
  rcases hidx : (positions.zip seqs).findIdx? (fun x => x = (p, s)) with _ | i
  · rw [List.findIdx?_eq_none_iff] at hidx
    rw [h, view_eq_some_iff hd]
    constructor
    · rintro (hold | ⟨i, hget, _⟩)
      · exact hold
      · have := hidx _ (List.mem_of_getElem? hget)
        simp at this
    · exact Or.inl
  · obtain ⟨hi, hx, _⟩ := List.findIdx?_eq_some_iff_getElem.1 hidx
    simp only [decide_eq_true_eq] at hx
    have hget : (positions.zip seqs)[i]? = some (p, s) := by rw [List.getElem?_eq_getElem hi, hx]
    simp only [Option.some.injEq]
    -- both rows are held at the same position of the sequence
    have hnew : c'.Holds n s p (batchRow n rows i) := (h s p _).2 (Or.inr ⟨i, hget, rfl⟩)
    constructor
    · intro hr
      exact Option.some.inj (((view_eq_some_iff hd' s p _).2 hnew).symm.trans ((view_eq_some_iff hd' s p r).2 hr))
    · rintro rfl
      exact hnew

end MapAux

open MapAux in
/-- The cache refines the map: a new cache has no entries, and in every run each call does to the map what the map's
operation does when it succeeds, and leaves the entries of every other sequence as they were in any case. A `Remove`
leaves them whatever it makes of its own sequence. -/
theorem causal_refines_map (n : Nat) (shiftFn : Option (Nat → κ → Int → κ)) (hf : ShiftsByOffset shiftFn) :
    (∀ c : Causal κ ν, (mapSystem n shiftFn).init c → c.view n = KvMap.empty) ∧
    (∀ c : Causal κ ν, (mapSystem n shiftFn).Reachable c → ∀ (call : Call κ ν) (err : Option Err) (c' : Causal κ ν),
      call.Step n err c c' →
        (err = none → c'.view n = call.apply n c (c.view n)) ∧ ∀ s, s ∉ call.seqs → c'.view n s = c.view n s) ∧
    ∀ c : Causal κ ν, (mapSystem n shiftFn).Reachable c →
      ∀ (ctx : Ctx) (seq b e : Int) (err : Option Err) (c' : Causal κ ν),
      (Call.remove ctx seq b e : Call κ ν).Admitted n c → (Call.remove ctx seq b e).run c = some (c', err) →
        ∀ s, s ≠ seq → c'.view n s = c.view n s := by
  refine ⟨fun c hc => ?_, fun c hc call err c' hs => ?_, fun c hc ctx seq b e err c' hadm hrun s hs => ?_⟩
  · obtain ⟨hinv, hno⟩ := mapInv_init hc
    funext s
    refine view_eq hinv.distinct (fun p r => ⟨?_, fun h => by nomatch h⟩)
    rintro ⟨j, hj, _⟩
    rw [hno j] at hj
    nomatch hj
  · have hinv := mapInv_reachable hc
    have hd := hinv.distinct
    have hf' : ShiftsByOffset c.shiftFn := hinv.shiftFn ▸ hf
    obtain ⟨hadm, hrun, hd'⟩ := hs
    cases call with
    | forward ctx positions seqs rows =>
      obtain ⟨_, hn, hq⟩ := hadm
      obtain ⟨row, hholds, hrow⟩ := forward_holds hq hn hrun
      refine ⟨fun herr => forward_view hd hd' (fun s p r => ?_), fun s hs => view_congr hd hd' (fun p r => ?_)⟩
      · rw [hholds]
        refine or_congr_right (exists_congr fun i => and_congr_right fun hget => ?_)
        rw [hrow herr i (List.getElem?_eq_some_iff.1 hget).1]
      · rw [hholds, or_iff_left]
        rintro ⟨i, hget, _⟩
        obtain ⟨hp, hseq⟩ := List.getElem?_zip_eq_some.1 hget
        have hmem : (seqs.take positions.length)[i]? = some s := by
          rw [List.getElem?_take_of_lt (List.getElem?_eq_some_iff.1 hp).1]
          exact hseq
        exact hs (List.mem_of_getElem? hmem)
    | copyPrefix src dst len =>
      simp only [Call.run, Option.some.injEq, Prod.mk.injEq] at hrun
      obtain ⟨rfl, _⟩ := hrun
      refine ⟨fun _ => ?_, fun s hs => view_congr hd hd' (fun p r => ?_)⟩
      · funext s
        refine view_eq hd' (fun p r => ?_)
        rw [copyPrefix_holds hadm]
        simp only [Call.apply, KvMap.copyPrefix]
        by_cases hs : s = dst
        · by_cases hp : p < len
          · simp [hs, hp, view_eq_some_iff hd]
          · simp [hs, hp]
        · simp [hs, view_eq_some_iff hd]
      · simp only [Call.seqs, List.mem_singleton] at hs
        rw [copyPrefix_holds hadm, if_neg hs]
    | remove ctx seq b e =>
      obtain ⟨hb, hbe, he⟩ := hadm
      have hothers : ∀ s, s ≠ seq → c'.view n s = c.view n s :=
        fun s hs => remove_view_others hinv.inv hf' hb hbe he hrun hs
      refine ⟨fun herr => ?_, fun s hs => hothers s (by simpa [Call.seqs] using hs)⟩
      subst herr
      funext s
      by_cases hs : s = seq
      · subst hs
        refine view_eq hd' (fun p r => ?_)
        rw [remove_holds hinv.inv hinv.positions hf' hb hbe he hrun]
        simp only [Call.apply, KvMap.remove, if_true]
        by_cases hp : p < b
        · simp only [if_pos hp, view_eq_some_iff hd]
        · by_cases hmax : e = maxInt32
          · by_cases hlt : p < e
            · rw [if_neg hp, if_neg hp, if_pos hmax, if_pos hmax, if_pos hlt]
              exact ⟨fun h => absurd h.1 (Int.not_le.2 hlt), fun h => by nomatch h⟩
            · rw [if_neg hp, if_neg hp, if_pos hmax, if_pos hmax, if_neg hlt, view_eq_some_iff hd]
              exact and_iff_right (Int.not_lt.1 hlt)
          · simp only [if_neg hp, if_neg hmax, Option.map_eq_some_iff, view_eq_some_iff hd]
      · rw [hothers s hs]
        funext p
        simp only [Call.apply, KvMap.remove, if_neg hs]
  · have hinv := mapInv_reachable hc
    obtain ⟨hb, hbe, he⟩ := hadm
    exact remove_view_others hinv.inv (hinv.shiftFn ▸ hf) hb hbe he hrun hs

namespace MapWitness

/-- Keys are numbers, and a key is rotated by adding the offset. -/
def shiftFn : Option (Nat → Int → Int → Int) := some (fun _ k off => k + off)

/-- A cache of four locations, without padding. -/
def start : Causal Int Int :=
  { capacity := 4, windowSize := maxInt32, config := ⟨1, 1⟩, shiftFn := shiftFn, cells := List.replicate 4 {} }

/-- Two tokens of sequence 0. -/
def batch : Call Int Int := .forward {} [0, 1] [0, 0] [[(10, 20), (11, 21)]]

/-- The first of them is cut out. -/
def cut : Call Int Int := .remove {} 0 0 1

end MapWitness

open MapWitness in
/-- Two tokens are stored and the first is cut out: the second is at position 0, with its key rotated by -1. -/
theorem refines_map_cut : ∃ c c' : Causal Int Int, (mapSystem 1 shiftFn).Reachable c ∧ cut.Step 1 none c c' ∧
    c'.view 1 = cut.apply 1 c (c.view 1) ∧ cut.apply 1 c (c.view 1) 0 0 = some (fun _ => (10, 21)) := by
  have hf : ShiftsByOffset shiftFn := by
    intro f h i k
    simp only [shiftFn, Option.some.injEq] at h
    rw [← h]
    exact Int.add_zero k
  have hstart : (mapSystem 1 shiftFn).Reachable start := Lib.System.Reachable.init ⟨maxInt32, {}, 4, by decide, rfl⟩
  have hsome : (batch.run start).isSome := by decide +kernel
  obtain ⟨⟨c, err⟩, hc⟩ := Option.isSome_iff_exists.1 hsome
  have hfacts : (batch.run start).all (fun o => o.2 = none ∧ o.1.Distinct ∧ (cut.run o.1).isSome ∧
      (cut.run o.1).all (fun o' => o'.2 = none ∧ o'.1.Distinct) ∧
      (cut.apply 1 o.1 (o.1.view 1) 0 0).map (fun r => r 0) = some (10, 21)) := by decide +kernel
  simp only [hc, Option.all_some, decide_eq_true_eq] at hfacts
  obtain ⟨rfl, hd, hsome', hfacts', hrow⟩ := hfacts
  obtain ⟨⟨c', err'⟩, hc'⟩ := Option.isSome_iff_exists.1 hsome'
  simp only [hc', Option.all_some, decide_eq_true_eq] at hfacts'
  obtain ⟨rfl, hd'⟩ := hfacts'
  have hreach : (mapSystem 1 shiftFn).Reachable c :=
    hstart.step ⟨batch, none, ⟨by decide, rfl, by decide +kernel⟩, hc, hd⟩
  have hstep : cut.Step 1 none c c' := ⟨⟨by decide, by decide, by decide⟩, hc', hd'⟩
  refine ⟨c, c', hreach, hstep, ((causal_refines_map 1 shiftFn hf).2.1 c hreach cut none c' hstep).1 rfl, ?_⟩
  simp only [Option.map_eq_some_iff] at hrow
  obtain ⟨r, hr, h0⟩ := hrow
  rw [hr, Option.some.injEq]
  funext i
  rw [Fin.fin_one_eq_zero i]
  exact h0

end Ollama.Kvcache
