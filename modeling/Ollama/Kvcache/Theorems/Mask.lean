import Ollama.Kvcache.Lemmas.Invariant

/-!
# The attention mask

After any run, whatever calls failed in it, a batch that `StartForward` takes gets the mask its positions and
sequences ask for: row `i` sees a location of the cache exactly when the location holds the row's sequence at a
position of the row's window. The mask only has the columns of the batch's range, so this rests on the range covering
every location of every sequence of the batch (`Covered`, part of the invariant of the cache).
-/

namespace Ollama.Kvcache

open Lib

variable {κ ν : Type}

/-- What a batch row at position `p` of sequence `s` attends to: the locations of the sequence, at no later position and not
before the window. The bound of the window is computed in `int32`. -/
def Causal.Visible (c : Causal κ ν) (p s : Int) (j : Nat) : Prop :=
  s ∈ (c.cell j).sequences ∧ (c.cell j).pos ≤ p ∧ (c.cell j).pos ≥ int32 (p - c.windowSize)

instance (c : Causal κ ν) (p s : Int) (j : Nat) : Decidable (c.Visible p s j) := inferInstanceAs (Decidable (_ ∧ _ ∧ _))

/-- The mask entry of batch row `i` for location `j` of the batch's range. -/
def Causal.maskAt (c : Causal κ ν) (i j : Nat) : Option MaskVal := c.curMask.at i (j - c.curCellRange.min)

namespace MaskAux

/-- The windows of positions and window sizes that are not negative do not wrap around. -/
theorem int32_sub {p w : Int} (hp : 0 ≤ p) (hp' : IsInt32 p) (hw : 0 ≤ w) (hw' : IsInt32 w) :
    int32 (p - w) = p - w := by
  unfold IsInt32 at hp' hw'
  unfold int32
  rw [Int.bmod_eq_of_le] <;> omega

/-- The entry of a row for a location. -/
def entry (c : Causal κ ν) (x : Int × Int) (j : Nat) : MaskVal := if c.Visible x.1 x.2 j then .zero else .negInf

/-- The entry as the source computes it, from what hides a location. -/
theorem entry_eq (c : Causal κ ν) (x : Int × Int) (j : Nat) :
    entry c x j = if x.2 ∉ (c.cell j).sequences ∨ (c.cell j).pos > x.1 ∨ (c.cell j).pos < int32 (x.1 - c.windowSize)
      then .negInf else .zero := by
  have hiff : c.Visible x.1 x.2 j ↔
      ¬(x.2 ∉ (c.cell j).sequences ∨ (c.cell j).pos > x.1 ∨ (c.cell j).pos < int32 (x.1 - c.windowSize)) := by
    simp only [Causal.Visible, not_or, not_not, Int.not_lt, gt_iff_lt, ge_iff_le]
  unfold entry
  rw [← ite_not]
  exact if_congr (not_congr hiff |>.trans not_not) rfl rfl

/-- What `buildMask` leaves: the range rounded to the padding, a row of entries for every row of the batch, and padding. -/
theorem buildMask_eq {c c' : Causal κ ν} {batch : List (Int × Int)} (h : c.buildMask batch = some c') :
    ∃ lo hi, lo = roundDown c.curCellRange.min c.config.cachePadding ∧
      hi = roundUp (c.curCellRange.max + 1) c.config.cachePadding - 1 ∧
      c' = { c with
        curCellRange := ⟨lo, hi⟩
        curMask := ⟨hi + 1 - lo, roundUp c.curBatchSize c.config.maskBatchPadding,
          table batch (hi + 1 - lo) (fun x j => entry c x (lo + j)) ++
            List.replicate ((roundUp c.curBatchSize c.config.maskBatchPadding - c.curBatchSize) * (hi + 1 - lo))
              .negInf⟩ } := by
  simp only [Causal.buildMask, ← entry_eq] at h
  split at h
  · cases h
  · simp only [Option.some.injEq] at h
    exact ⟨_, _, rfl, rfl, h.symm⟩

/-- The rows of the batch are the pairs of a position and a sequence. -/
theorem batch_getElem? {positions seqs : List Int} {i : Nat} {p s : Int} (hp : positions[i]? = some p)
    (hs : seqs[i]? = some s) : (positions.zip seqs)[i]? = some (p, s) :=
  List.getElem?_zip_eq_some.2 ⟨hp, hs⟩

/-- The entry of a batch row for a location of the range. -/
theorem maskAt_row {c c' : Causal κ ν} {batch : List (Int × Int)} (h : c.buildMask batch = some c') {i j : Nat}
    (hi : i < batch.length) (hj : c'.curCellRange.Covers j) : c'.maskAt i j = some (entry c batch[i] j) := by
  obtain ⟨lo, hi', _, _, rfl⟩ := buildMask_eq h
  obtain ⟨hlo, hhi⟩ := hj
  simp only at hlo hhi
  have hcol : j - lo < hi' + 1 - lo := by omega
  have hidx : i * (hi' + 1 - lo) + (j - lo) < batch.length * (hi' + 1 - lo) := by
    calc i * (hi' + 1 - lo) + (j - lo) < i * (hi' + 1 - lo) + (hi' + 1 - lo) := by omega
      _ = (i + 1) * (hi' + 1 - lo) := by rw [Nat.add_mul, Nat.one_mul]
      _ ≤ batch.length * (hi' + 1 - lo) := Nat.mul_le_mul_right _ hi
  simp only [Causal.maskAt, Mask.at]
  rw [List.getElem?_append_left (by rw [length_table]; exact hidx), table_getElem? _ _ _ _ _ hi hcol,
    Nat.add_sub_cancel' hlo]

/-- The entries of the padding rows. -/
theorem maskAt_padding {c c' : Causal κ ν} {batch : List (Int × Int)} (h : c.buildMask batch = some c')
    (hb : batch.length = c.curBatchSize) {i j : Nat} (hi : batch.length ≤ i) (hi' : i < c'.curMask.batchSize)
    (hj : c'.curCellRange.Covers j) : c'.maskAt i j = some .negInf := by
  obtain ⟨lo, hi'', _, _, rfl⟩ := buildMask_eq h
  obtain ⟨hlo, hhi⟩ := hj
  simp only at hlo hhi hi'
  generalize hn : hi'' + 1 - lo = n
  generalize roundUp c.curBatchSize c.config.maskBatchPadding = m at hi'
  have hge : batch.length * n ≤ i * n + (j - lo) := Nat.le_add_right_of_le (Nat.mul_le_mul_right _ hi)
  have hlt : i * n + (j - lo) - batch.length * n < (m - c.curBatchSize) * n := by
    have h1 : (i + 1) * n ≤ m * n := Nat.mul_le_mul_right _ hi'
    have h2 : batch.length * n ≤ i * n := Nat.mul_le_mul_right _ hi
    rw [Nat.add_mul, Nat.one_mul] at h1
    rw [← hb, Nat.sub_mul]
    omega
  simp only [Causal.maskAt, Mask.at]
  rw [List.getElem?_append_right (by rw [length_table]; exact hge), length_table, List.getElem?_replicate, if_pos hlt]

/-- A successful `StartForward` stores the batch in a cache that keeps the invariant, and builds its mask. -/
theorem startForward_place {ctx : Ctx} {positions seqs : List Int} {c c' : Causal κ ν} (h : CacheInv c)
    (hs : c.startForward ctx positions seqs = some (c', none)) :
    ∃ (c₁ : Causal κ ν) (loc : Nat), CacheInv c₁ ∧ c₁.curBatchSize = positions.length ∧ positions.length ≤ seqs.length ∧
      loc + positions.length ≤ c₁.cells.length ∧ 0 < c₁.cells.length ∧
      (({ c₁ with curLoc := loc, curCellRange := newRange }).store (positions.zip seqs) loc).buildMask
        (positions.zip seqs) = some c' := by
  obtain ⟨c₁, h₁, hb, _, ⟨loc, hfind, hle, hp⟩ | ⟨_, he⟩⟩ := startForward_cases h hs
  · obtain ⟨hlen, _, hbuild⟩ := place_eq hp
    exact ⟨c₁, loc, h₁, hb, hlen, hle, length_pos_of_findStartLoc hfind, hbuild⟩
  · nomatch he

/-- The range of a batch that has been stored: it covers every location of every sequence of the batch and of the
batch itself, and ends inside the cache. -/
theorem stored_range {c : Causal κ ν} (h : CacheInv c) {batch : List (Int × Int)} {loc : Nat}
    (hloc : loc + batch.length ≤ c.cells.length) (hpos : 0 < c.cells.length) :
    let c₂ := ({ c with curLoc := loc, curCellRange := newRange } : Causal κ ν).store batch loc
    (∀ x ∈ batch, ∀ j, x.2 ∈ (c₂.cell j).sequences → c₂.curCellRange.Covers j) ∧
      c₂.curCellRange.max < c.cells.length ∧
      (batch ≠ [] → c₂.curCellRange.min ≤ c₂.curCellRange.max) := by
  intro c₂
  obtain ⟨hcov, _, _, hin, hmax, hself⟩ :=
    store_ranges batch { c with curLoc := loc, curCellRange := newRange } loc hloc
    h.covered h.bounded
  refine ⟨fun x hx j hj => ?_, ?_, fun hne => ?_⟩
  · obtain ⟨r, hr, hrj⟩ := hcov j x.2 hj
    obtain ⟨r', hr', hw⟩ := hin x.2 (Or.inr ⟨x, hx, rfl⟩)
    rw [hr] at hr'
    simp only [Option.some.injEq] at hr'
    exact hw.covers (hr' ▸ hrj)
  · rcases hmax with hm | hm
    · exact hm ▸ hpos
    · exact hm
  · have := hself 0 (List.length_pos_iff.2 hne)
    exact Nat.le_trans this.1 this.2

end MaskAux

open MaskAux in
/-- After any run, a batch that `StartForward` takes gets the mask its positions and sequences ask for. -/
theorem startForward_mask_exact [Zero κ] [Zero ν] {ctx : Ctx} {positions seqs : List Int} {c c' : Causal κ ν}
    (hc : (system κ ν).Reachable c) (hs : c.startForward ctx positions seqs = some (c', none)) :
    -- a row sees a location of the cache exactly when it holds the row's sequence in the row's window
    (∀ i p s, positions[i]? = some p → seqs[i]? = some s → ∀ j,
      (c'.curCellRange.Covers j ∧ c'.maskAt i j = some .zero ↔ c'.Visible p s j) ∧
      (c'.curCellRange.Covers j → ¬c'.Visible p s j → c'.maskAt i j = some .negInf)) ∧
    -- where nothing is negative the window is the one over the integers
    (∀ p, 0 ≤ p → IsInt32 p → 0 ≤ c'.windowSize → int32 (p - c'.windowSize) = p - c'.windowSize) ∧
    -- padding rows see nothing
    (∀ i, positions.length ≤ i → i < c'.curMask.batchSize → ∀ j, c'.curCellRange.Covers j →
      c'.maskAt i j = some .negInf) ∧
    -- the range lies in the cache and is aligned to the padding
    (∀ j, c'.curCellRange.Covers j → j < c'.capacity) ∧ c'.curCellRange.max < c'.capacity ∧
    c'.config.cachePadding ∣ c'.curCellRange.min ∧ c'.config.cachePadding ∣ c'.curCellRange.max + 1 ∧
    (positions ≠ [] → c'.curCellRange.min ≤ c'.curCellRange.max) := by
  have hinv := CacheInv.reachable hc
  have hinv' := hinv.startForward hs
  obtain ⟨c₁, loc, h₁, hb, hlen, hle, hpos, hbuild⟩ := startForward_place hinv hs
  have hzip : (positions.zip seqs).length = positions.length := by
    rw [List.length_zip]
    omega
  obtain ⟨hcovers, hmax, hmin⟩ := stored_range h₁ (hzip.symm ▸ hle) hpos
  obtain ⟨f1, _, f3, f4, _, _, _, f8⟩ :=
    store_frame (positions.zip seqs) { c₁ with curLoc := loc, curCellRange := newRange } loc
  generalize ({ c₁ with curLoc := loc, curCellRange := newRange } : Causal κ ν).store (positions.zip seqs) loc = c₂ at *
  have hrow := fun i j => maskAt_row hbuild (i := i) (j := j)
  have hpad := fun i j => maskAt_padding hbuild (hzip.trans (hb.symm.trans f4.symm)) (i := i) (j := j)
  obtain ⟨lo, hi, hlo, hhi, hc'⟩ := buildMask_eq hbuild
  have hvis : ∀ p s j, c'.Visible p s j ↔ c₂.Visible p s j := fun p s j => by rw [hc']; rfl
  have hrange : c'.curCellRange = ⟨lo, hi⟩ := by rw [hc']
  have hpadding : 0 < c₂.config.cachePadding := f3.symm ▸ h₁.padding
  -- rounding the end up stays in the cache because the capacity is a multiple of the padding
  have hup : hi + 1 = roundUp (c₂.curCellRange.max + 1) c₂.config.cachePadding := by
    have := le_roundUp (c₂.curCellRange.max + 1) _ hpadding
    omega
  have hcap : hi < c'.capacity := by
    have hle' := roundUp_le hpadding (x := c₂.curCellRange.max + 1) (n := c₁.capacity) (by rw [← h₁.length]; exact hmax)
      (f3.symm ▸ h₁.aligned)
    have hcap' : c'.capacity = c₁.capacity := by
      rw [hc']
      exact f1
    omega
  have hwithin : c₂.curCellRange.Within c'.curCellRange := by
    rw [hrange, hlo]
    refine ⟨roundDown_le _ _, ?_⟩
    have := le_roundUp (c₂.curCellRange.max + 1) _ hpadding
    show c₂.curCellRange.max ≤ hi
    omega
  refine ⟨fun i p s hp hseq j => ?_, fun p h0 hp hw => int32_sub h0 hp hw hinv'.window, fun i h1 h2 j hj => ?_, ?_,
    ?_, ?_, ?_, ?_⟩
  · have hx := batch_getElem? hp hseq
    obtain ⟨hi', hxi⟩ := List.getElem?_eq_some_iff.1 hx
    have hentry := fun hj => hrow i j hi' hj
    rw [hxi] at hentry
    simp only [entry, ← hvis] at hentry
    refine ⟨⟨fun ⟨hj, hz⟩ => ?_, fun hv => ?_⟩, fun hj hv => ?_⟩
    · by_contra hv
      rw [hentry hj, if_neg hv] at hz
      nomatch hz
    · have hj := hwithin.covers (hcovers (p, s) (List.mem_of_getElem? hx) j ((hvis p s j).1 hv).1)
      exact ⟨hj, by rw [hentry hj, if_pos hv]⟩
    · rw [hentry hj, if_neg hv]
  · exact hpad i j (hzip.symm ▸ h1) h2 hj
  · intro j hj
    have := hj.2
    rw [hrange] at this
    exact Nat.lt_of_le_of_lt this hcap
  · rw [hrange]
    exact hcap
  · rw [hrange, hc']
    exact hlo ▸ dvd_roundDown _ _
  · rw [hrange, hc']
    exact hup ▸ dvd_roundUp _ _
  · intro hne
    have hne' : positions.zip seqs ≠ [] := by
      intro h0
      rw [h0] at hzip
      exact hne (List.length_eq_zero_iff.1 hzip.symm)
    have h1 := hwithin.1
    have h2 := hwithin.2
    have h3 := hmin hne'
    omega

/-- Two tokens of a new cache: the second sees the first, and the two padding rows see nothing. -/
theorem startForward_mask_two : ∃ c : Causal Nat Nat, ∃ c' : Causal Nat Nat, (system Nat Nat).Reachable c ∧
    c.startForward {} [0, 1] [0, 0] = some (c', none) ∧ c'.Visible 1 0 0 ∧ c'.maskAt 1 0 = some .zero ∧
    c'.curMask.batchSize = 4 ∧ c'.maskAt 3 0 = some .negInf := by
  let c : Causal Nat Nat :=
    { capacity := 4, windowSize := maxInt32, config := ⟨1, 4⟩, shiftFn := none, cells := List.replicate 4 {} }
  have hc : (system Nat Nat).Reachable c := Lib.System.Reachable.init ⟨maxInt32, none, ⟨0, 4⟩, 4, by decide, rfl⟩
  have hsome : (c.startForward {} [0, 1] [0, 0]).isSome := by decide +kernel
  obtain ⟨⟨c', err⟩, hs⟩ := Option.isSome_iff_exists.1 hsome
  have herr : (c.startForward {} [0, 1] [0, 0]).map (fun o => (o.2, o.1.curMask.batchSize, o.1.curCellRange)) =
      some (none, 4, ⟨0, 1⟩) := by decide +kernel
  have hvis : (c.startForward {} [0, 1] [0, 0]).all (fun o => o.1.Visible 1 0 0) := by decide +kernel
  simp only [hs, Option.map_some, Option.some.injEq, Prod.mk.injEq] at herr
  simp only [hs, Option.all_some, decide_eq_true_eq] at hvis
  obtain ⟨rfl, hbatch, hrange⟩ := herr
  obtain ⟨hrow, _, hpad, _⟩ := startForward_mask_exact hc hs
  refine ⟨c, c', hc, hs, hvis, (((hrow 1 1 0 rfl rfl 0).1).2 hvis).2, hbatch, ?_⟩
  refine hpad 3 (by decide) (by omega) 0 ?_
  rw [hrange]
  exact ⟨Nat.le_refl _, Nat.zero_le _⟩

end Ollama.Kvcache
