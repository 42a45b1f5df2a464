import Ollama.Kvcache.Wrapper
import Ollama.Kvcache.Theorems.Fullness

/-!
# A batch that fails is unwound

When one of the caches of a wrapper is full, the caches before it have recorded the batch. Each of its tokens is
removed from them with all that follows it in its sequence, which is no more than the batch, since the batch comes
after what was there. A token at the position `MaxInt32` stays: this end of a removal stands for no end, but the loop
of `Remove` compares positions with it.
-/

namespace Ollama.Kvcache

open Lib

variable {κ ν : Type}

/-- The caches hold the positions they held, and every range covers the cells of its sequence. -/
def Undone (before after : List (Causal κ ν)) : Prop :=
  List.Forall₂ (fun c c' => (∀ seq, c'.heldPositions seq = c.heldPositions seq) ∧ Covered c') before after

/-- The tokens of a batch come after all that a cache holds for their sequences. -/
def Causal.Precedes (c : Causal κ ν) (batch : List (Int × Int)) : Prop :=
  ∀ x ∈ batch, ∀ p ∈ c.heldPositions x.2, p < x.1

namespace WrapperAux

/-- A cell does not stop a removal without an end, and stays if it is at `MaxInt32`. -/
def Removable (seq : Int) (x : CacheCell) : Prop :=
  seq ∈ x.sequences → x.pos < maxInt32 ∨ (x.pos = maxInt32 ∧ ∀ s ∈ x.sequences, s = seq)

instance (seq : Int) (x : CacheCell) : Decidable (Removable seq x) := inferInstanceAs (Decidable (_ → _ ∨ (_ ∧ _)))

/-- What a removal without an end makes of a cell. -/
theorem removeCell_open {seq b : Int} {x : CacheCell} (h : Removable seq x) : removeCell seq b maxInt32 0 x =
    if seq ∈ x.sequences ∧ b ≤ x.pos ∧ x.pos < maxInt32 then { x with sequences := x.sequences.filter (· ≠ seq) }
      else x := by
  unfold removeCell
  by_cases hs : seq ∈ x.sequences
  · rw [if_pos hs]
    by_cases hin : x.pos ≥ b ∧ x.pos < maxInt32
    · rw [if_pos hin, if_pos ⟨hs, hin⟩]
    · have hno : ¬(seq ∈ x.sequences ∧ b ≤ x.pos ∧ x.pos < maxInt32) := fun h => hin h.2
      rw [if_neg hin, if_neg hno]
      split
      · rename_i hge
        rcases h hs with hlt | ⟨heq, _⟩
        · exact absurd hge (Int.not_le.2 hlt)
        · -- the offset of a removal without an end is 0
          have hsame : int32 (x.pos + 0) = x.pos := by
            rw [heq]
            decide
          rw [hsame]
      · rfl
  · rw [if_neg hs, if_neg (fun h => hs h.1)]

theorem not_blocksCell {seq b : Int} {x : CacheCell} (h : Removable seq x) : ¬blocksCell seq b maxInt32 x := by
  rintro ⟨hs, _, hge, s, hmem, hne⟩
  rcases h hs with hlt | ⟨_, hall⟩
  · exact absurd hge (Int.not_le.2 hlt)
  · exact hne (hall s hmem)

/-- A removal without an end takes from its sequence what is behind its beginning, and nothing from another. -/
theorem remove_open_cells {ctx : Ctx} {seq b : Int} {c c' : Causal κ ν} {err : Option Err}
    (h : ∀ x ∈ c.cells, Removable seq x) (hr : c.remove ctx seq b maxInt32 = some (c', err)) :
    c'.cells = c.cells.map (removeCell seq b maxInt32 0) := by
  rw [(remove_cells rfl hr).1, if_neg (not_not.2 rfl)]
  rcases removeFrom_cases seq b maxInt32 0 c.cells 0 newRange with ⟨hout, _⟩ | ⟨pre, x, post, hcells, hblocks, _⟩
  · rw [hout]
  · have hx : x ∈ c.cells := by
      rw [hcells]
      exact List.mem_append_right _ (List.mem_cons_self ..)
    exact absurd hblocks (not_blocksCell (h x hx))

theorem count_remove_open {ctx : Ctx} {seq b : Int} {c c' : Causal κ ν} {err : Option Err}
    (h : ∀ x ∈ c.cells, Removable seq x) (hr : c.remove ctx seq b maxInt32 = some (c', err)) (s p : Int) :
    c'.count s p = if s = seq ∧ b ≤ p ∧ p < maxInt32 then 0 else c.count s p := by
  unfold Causal.count
  rw [remove_open_cells h hr, List.countP_map]
  split
  · rename_i hgone
    obtain ⟨rfl, hb, hlt⟩ := hgone
    rw [List.countP_eq_zero]
    intro x hx
    rw [Function.comp_apply, removeCell_open (h x hx), decide_eq_true_iff]
    split
    · rintro ⟨hmem, _⟩
      exact absurd rfl (decide_eq_true_iff.1 (List.mem_filter.1 hmem).2)
    · rename_i hno
      rintro ⟨hmem, rfl⟩
      exact hno ⟨hmem, hb, hlt⟩
  · rename_i hkept
    refine List.countP_congr fun x hx => ?_
    rw [Function.comp_apply, removeCell_open (h x hx), decide_eq_true_iff, decide_eq_true_iff]
    split
    · rename_i hin
      refine and_congr_left fun hp => ?_
      rw [List.mem_filter, decide_eq_true_iff]
      refine and_iff_left_of_imp fun _ heq => hkept ⟨heq, ?_, ?_⟩
      · exact hp ▸ hin.2.1
      · exact hp ▸ hin.2.2
    · rfl

/-- A removal leaves cells that do not stop one. -/
theorem removable_remove {ctx : Ctx} {seq seq' b : Int} {c c' : Causal κ ν} {err : Option Err}
    (h : ∀ x ∈ c.cells, Removable seq x) (h' : ∀ x ∈ c.cells, Removable seq' x)
    (hr : c.remove ctx seq b maxInt32 = some (c', err)) : ∀ x ∈ c'.cells, Removable seq' x := by
  rw [remove_open_cells h hr]
  intro y hy
  obtain ⟨x, hx, rfl⟩ := List.mem_map.1 hy
  rw [removeCell_open (h x hx)]
  split
  · intro hmem
    rcases h' x hx (List.mem_filter.1 hmem).1 with hlt | ⟨heq, hall⟩
    · exact .inl hlt
    · exact .inr ⟨heq, fun s hs => hall s (List.mem_filter.1 hs).1⟩
  · exact h' x hx

/-- What is left after the tokens of a batch are removed. -/
theorem count_unwind {batch : List (Int × Int)} {c c' : Causal κ ν} (hinv : CacheInv c)
    (h : ∀ y ∈ batch, ∀ x ∈ c.cells, Removable y.2 x) (hu : c.unwind batch = some c') :
    CacheInv c' ∧ ∀ s p, c'.count s p = if (∃ y ∈ batch, y.2 = s ∧ y.1 ≤ p) ∧ p < maxInt32 then 0 else c.count s p := by
  induction batch generalizing c with
  | nil =>
    rw [← Option.some.inj hu]
    refine ⟨hinv, fun s p => (if_neg ?_).symm⟩
    rintro ⟨⟨_, hmem, _⟩, _⟩
    nomatch hmem
  | cons y batch ih =>
    obtain ⟨pos, seq⟩ := y
    rw [Causal.unwind, Option.bind_eq_some_iff] at hu
    obtain ⟨⟨c₁, err⟩, hr, hu⟩ := hu
    have hfirst := h (pos, seq) (List.mem_cons_self ..)
    obtain ⟨hinv', hcount⟩ := ih (hinv.remove hr)
      (fun z hz => removable_remove hfirst (h z (List.mem_cons_of_mem _ hz)) hr) hu
    refine ⟨hinv', fun s p => ?_⟩
    rw [hcount, count_remove_open hfirst hr]
    simp only [List.mem_cons, exists_eq_or_imp]
    by_cases hlt : p < maxInt32
    · by_cases hone : seq = s ∧ pos ≤ p
      · have hgone : (seq = s ∧ pos ≤ p ∨ ∃ y ∈ batch, y.2 = s ∧ y.1 ≤ p) ∧ p < maxInt32 := ⟨.inl hone, hlt⟩
        rw [if_pos (⟨hone.1.symm, hone.2, hlt⟩ : s = seq ∧ pos ≤ p ∧ p < maxInt32), if_pos hgone, ite_self]
      · rw [if_neg (fun hh : s = seq ∧ pos ≤ p ∧ p < maxInt32 => hone ⟨hh.1.symm, hh.2.1⟩)]
        refine if_congr ?_ rfl rfl
        exact and_congr_left fun _ => (or_iff_right hone).symm
    · rw [if_neg (fun hh => hlt hh.2), if_neg (fun hh : s = seq ∧ pos ≤ p ∧ p < maxInt32 => hlt hh.2.2),
        if_neg (fun hh => hlt hh.2)]

/-- After a batch is recorded, the cells of its sequences do not stop a removal. -/
theorem removable_startForward {ctx : Ctx} {positions seqs : List Int} {c c' : Causal κ ν} (hinv : CacheInv c)
    (hmax : ∀ p ∈ positions, p ≤ maxInt32) (hafter : c.Precedes (positions.zip seqs))
    (hs : c.startForward ctx positions seqs = some (c', none)) :
    ∀ y ∈ positions.zip seqs, ∀ x ∈ c'.cells, Removable y.2 x := by
  intro y hy x hx
  have hused : OfUsed (fun x => !decide (Removable y.2 x)) := by
    intro x hempty
    rw [empty_iff] at hempty
    have : Removable y.2 x := fun hmem => by
      rw [hempty] at hmem
      nomatch hmem
    show (!decide (Removable y.2 x)) = false
    rw [decide_eq_true this]
    rfl
  have hbound : y.1 ≤ maxInt32 := hmax _ (List.of_mem_zip hy).1
  have hcount := countP_startForward hused hinv hs
  have hold : c.cells.countP (fun x => !decide (Removable y.2 x)) = 0 := by
    rw [List.countP_eq_zero]
    intro x hx hno
    rw [Bool.not_eq_true', decide_eq_false_iff_not] at hno
    refine hno fun hmem => .inl ?_
    have hlt := hafter y hy x.pos ⟨x, hx, hmem, rfl⟩
    omega
  have hnew : (positions.zip seqs).countP (fun z => !decide (Removable y.2 ⟨z.1, [z.2]⟩)) = 0 := by
    rw [List.countP_eq_zero]
    intro z hz hno
    rw [Bool.not_eq_true', decide_eq_false_iff_not] at hno
    refine hno fun hmem => ?_
    have hle : z.1 ≤ maxInt32 := hmax _ (List.of_mem_zip hz).1
    rcases Int.lt_or_eq_of_le hle with hlt | heq
    · exact .inl hlt
    · refine .inr ⟨heq, fun s hs => ?_⟩
      rw [List.mem_singleton.1 hs, List.mem_singleton.1 hmem]
  rw [hold, hnew, List.countP_eq_zero] at hcount
  have hyes := hcount x hx
  rwa [Bool.not_eq_true', decide_eq_false_iff_not, not_not] at hyes

/-- A cache that is unwound: it has what it had, and the tokens of the batch at `MaxInt32`. -/
theorem count_unwound {ctx : Ctx} {positions seqs : List Int} {c c₁ c' : Causal κ ν} (hinv : CacheInv c)
    (hmax : ∀ p ∈ positions, p ≤ maxInt32) (hafter : c.Precedes (positions.zip seqs))
    (hs : c.startForward ctx positions seqs = some (c₁, none)) (hu : c₁.unwind (positions.zip seqs) = some c') :
    CacheInv c' ∧ ∀ s p, c'.count s p =
      c.count s p + if p = maxInt32 then (positions.zip seqs).count (p, s) else 0 := by
  obtain ⟨hinv', hcount⟩ := count_unwind (hinv.startForward hs) (removable_startForward hinv hmax hafter hs) hu
  refine ⟨hinv', fun s p => ?_⟩
  have hadd : c₁.count s p = c.count s p + (positions.zip seqs).count (p, s) := by
    have h := countP_startForward (ofUsed_mem s p) hinv hs
    rw [Causal.count, Causal.count, h, List.count]
    congr 1
    refine List.countP_congr fun x _ => ?_
    rw [decide_eq_true_iff, beq_iff_eq, Prod.ext_iff, List.mem_singleton]
    exact ⟨fun hx => ⟨hx.2, hx.1.symm⟩, fun hx => ⟨hx.2.symm, hx.1⟩⟩
  have hnone : ∀ y ∈ positions.zip seqs, y.2 = s → y.1 ≤ p → c.count s p = 0 := by
    rintro y hy rfl hle
    by_contra hpos
    have hlt := hafter y hy p (mem_heldPositions.2 (Nat.pos_of_ne_zero hpos))
    omega
  have hbatch : ∀ hmem : 0 < (positions.zip seqs).count (p, s), ∃ y ∈ positions.zip seqs, y.2 = s ∧ y.1 ≤ p :=
    fun hmem => ⟨(p, s), List.count_pos_iff.1 hmem, rfl, Int.le_refl p⟩
  rw [hcount, hadd]
  by_cases hp : p = maxInt32
  · rw [if_neg (fun hh => absurd hp (Int.ne_of_lt hh.2)), if_pos hp]
  · rw [if_neg hp, Nat.add_zero]
    split
    · rename_i hgone
      obtain ⟨⟨y, hy, hseq, hle⟩, _⟩ := hgone
      exact (hnone y hy hseq hle).symm
    · rename_i hkept
      rcases Nat.eq_zero_or_pos ((positions.zip seqs).count (p, s)) with hzero | hpos
      · rw [hzero, Nat.add_zero]
      · have hmem : p ∈ positions := (List.of_mem_zip (List.count_pos_iff.1 hpos)).1
        have hle := hmax p hmem
        exact absurd ⟨hbatch hpos, by omega⟩ hkept

/-- A cache that is too small for the batch does not take it. -/
theorem startForward_fails {ctx : Ctx} {positions seqs : List Int} {c c' : Causal κ ν} {err : Option Err}
    (hinv : CacheInv c) (hfree : c.free < positions.length)
    (hs : c.startForward ctx positions seqs = some (c', err)) : err ≠ none := by
  obtain ⟨c₁, _, hsize, hfrom, hend⟩ := startForward_cases hinv hs
  have hkept : c₁.free = c.free := by
    rcases hfrom with rfl | ⟨_, hd⟩
    · rfl
    · have hkept := FullAux.free_defrag hd
      exact hkept
  rcases hend with ⟨loc, hloc, _, _⟩ | ⟨_, rfl⟩
  · have hle := FullAux.batch_le_free hloc
    omega
  · nofun

/-- How a cache of a wrapper is left by a `StartForward` that returns `ErrKvCacheFull`. -/
inductive Left (ctx : Nat → Ctx) (positions seqs : List Int) (c c' : Causal κ ν) : Prop where
  | untouched : c' = c → Left ctx positions seqs c c'
  | failed (i m : Nat) : c.startForward (ctx i) positions seqs = some (c', some (.kvCacheFull m)) →
      Left ctx positions seqs c c'
  | unwound (i : Nat) (c₁ : Causal κ ν) : c.startForward (ctx i) positions seqs = some (c₁, none) →
      c₁.unwind (positions.zip seqs) = some c' → Left ctx positions seqs c c'

theorem left_startForwardFrom {ctx : Nat → Ctx} {positions seqs : List Int} {i m : Nat} {cs cs' : List (Causal κ ν)}
    (h : startForwardFrom ctx positions seqs i cs = some (cs', some (.kvCacheFull m))) :
    List.Forall₂ (Left ctx positions seqs) cs cs' := by
  induction cs generalizing i cs' with
  | nil => nomatch h
  | cons c rest ih =>
    rw [startForwardFrom] at h
    split at h
    · nomatch h
    · rename_i c₁ err hs
      obtain ⟨rfl, herr⟩ := Prod.mk.inj (Option.some.inj h)
      rw [Option.some.inj herr] at hs
      exact .cons (.failed i m hs) (List.forall₂_same.2 fun _ _ => .untouched rfl)
    · rename_i c₁ hs
      split at h
      · nomatch h
      · nomatch h
      · rename_i rest' err hrest
        obtain ⟨c', hu, heq⟩ := Option.map_eq_some_iff.1 h
        obtain ⟨rfl, herr⟩ := Prod.mk.inj heq
        rw [Option.some.inj herr] at hrest
        exact .cons (.unwound i c₁ hs hu) (ih hrest)

/-- The caches of a wrapper after `ErrKvCacheFull`. -/
theorem startForwardFrom_of_wrapper {ctx : Nat → Ctx} {positions seqs : List Int} {w w' : WrapperCache κ ν} {m : Nat}
    (h : w.startForward ctx positions seqs = some (w', some (.kvCacheFull m))) :
    startForwardFrom ctx positions seqs 0 w.caches = some (w'.caches, some (.kvCacheFull m)) := by
  obtain ⟨⟨cs, err⟩, hfrom, heq⟩ := Option.map_eq_some_iff.1 h
  cases err with
  | none => nomatch (Prod.mk.inj heq).2
  | some err =>
    obtain ⟨rfl, herr⟩ := Prod.mk.inj heq
    rw [hfrom, Option.some.inj herr]

/-- A cache that failed has the positions it had. -/
theorem kept_of_failed {ctx : Ctx} {positions seqs : List Int} {c c' : Causal κ ν} {m : Nat} (hinv : CacheInv c)
    (hctx : ∀ m, ctx.floatErr ≠ some (.kvCacheFull m))
    (h : c.startForward ctx positions seqs = some (c', some (.kvCacheFull m))) :
    (∀ seq, c'.heldPositions seq = c.heldPositions seq) ∧ Covered c' :=
  ⟨fun seq => heldPositions_congr fun p => FullAux.countP_full (ofUsed_mem seq p) hinv hctx h,
    (hinv.startForward h).covered⟩

/-- Without a token at `MaxInt32`, every cache has the positions it had. -/
theorem kept_of_left {ctx : Nat → Ctx} {positions seqs : List Int} {c c' : Causal κ ν} (hinv : CacheInv c)
    (hctx : ∀ i m, (ctx i).floatErr ≠ some (.kvCacheFull m)) (hmax : ∀ p ∈ positions, p ≤ maxInt32)
    (hafter : c.Precedes (positions.zip seqs)) (hno : maxInt32 ∉ positions) (h : Left ctx positions seqs c c') :
    (∀ seq, c'.heldPositions seq = c.heldPositions seq) ∧ Covered c' := by
  rcases h with rfl | ⟨i, m, hs⟩ | ⟨i, c₁, hs, hu⟩
  · exact ⟨fun _ => rfl, hinv.covered⟩
  · exact kept_of_failed hinv (hctx i) hs
  · obtain ⟨hinv', hcount⟩ := count_unwound hinv hmax hafter hs hu
    refine ⟨fun seq => heldPositions_congr fun p => ?_, hinv'.covered⟩
    rw [hcount]
    split
    · rename_i hp
      rw [List.count_eq_zero_of_not_mem, Nat.add_zero]
      exact fun hmem => hno (hp ▸ (List.of_mem_zip hmem).1)
    · rfl

/-- A token at `MaxInt32` that a cache has recorded stays in it. -/
theorem not_kept {ctx : Ctx} {positions seqs : List Int} {c c₁ c' : Causal κ ν} (hinv : CacheInv c)
    (hmax : ∀ p ∈ positions, p ≤ maxInt32) (hafter : c.Precedes (positions.zip seqs)) (hmem : maxInt32 ∈ positions)
    (hs : c.startForward ctx positions seqs = some (c₁, none)) (hu : c₁.unwind (positions.zip seqs) = some c') :
    ∃ seq, c'.heldPositions seq ≠ c.heldPositions seq := by
  have hlen : positions.length ≤ seqs.length := by
    obtain ⟨_, _, _, _, ⟨_, _, _, hplace⟩ | ⟨_, herr⟩⟩ := startForward_cases hinv hs
    · exact (place_eq hplace).1
    · nomatch herr
  obtain ⟨x, hx, hpos⟩ : ∃ x ∈ positions.zip seqs, x.1 = maxInt32 := by
    have hfst : maxInt32 ∈ (positions.zip seqs).map Prod.fst := by
      rw [List.map_fst_zip hlen]
      exact hmem
    exact List.mem_map.1 hfst
  refine ⟨x.2, fun heq => ?_⟩
  have hnew : maxInt32 ∈ c'.heldPositions x.2 := by
    rw [mem_heldPositions, (count_unwound hinv hmax hafter hs hu).2, if_pos rfl]
    have hcount : 0 < (positions.zip seqs).count (maxInt32, x.2) := by
      rw [List.count_pos_iff, ← hpos]
      exact hx
    omega
  rw [heq] at hnew
  have hlt := hafter x hx maxInt32 hnew
  omega

end WrapperAux

open WrapperAux in
/-- In every wrapper whose caches runs have led to: when `StartForward` returns `ErrKvCacheFull` for a batch that
comes after what the caches hold for its sequences, they hold what they held if and only if no token of the batch is
at `MaxInt32` or the first cache is the one that is full. The error is not one of the backend's. -/
theorem undone_iff [Zero κ] [Zero ν] {w w' : WrapperCache κ ν} (hreach : ∀ c ∈ w.caches, (system κ ν).Reachable c)
    {ctx : Nat → Ctx} (hctx : ∀ i m, (ctx i).floatErr ≠ some (.kvCacheFull m)) {positions seqs : List Int}
    (hint : ∀ p ∈ positions, IsInt32 p) (hafter : ∀ c ∈ w.caches, c.Precedes (positions.zip seqs)) {m : Nat}
    (h : w.startForward ctx positions seqs = some (w', some (.kvCacheFull m))) :
    Undone w.caches w'.caches ↔ maxInt32 ∉ positions ∨ ∀ c, w.caches.head? = some c → c.free < positions.length := by
  have hmax : ∀ p ∈ positions, p ≤ maxInt32 := by
    intro p hp
    have hlt := (hint p hp).2
    unfold maxInt32
    omega
  have hfrom := startForwardFrom_of_wrapper h
  constructor
  · intro hundone
    by_contra hno
    rw [not_or, not_not, not_forall] at hno
    obtain ⟨hmem, c, hhead⟩ := hno
    rw [Classical.not_imp] at hhead
    obtain ⟨hhead, hroom⟩ := hhead
    obtain ⟨rest, hcaches⟩ := List.head?_eq_some_iff.1 hhead
    rw [hcaches] at hfrom hundone
    have hc : c ∈ w.caches := by
      rw [hcaches]
      exact List.mem_cons_self ..
    have hinv := CacheInv.reachable (hreach c hc)
    have hleft := left_startForwardFrom hfrom
    rw [startForwardFrom] at hfrom
    split at hfrom
    · nomatch hfrom
    · -- the first cache has room
      rename_i c₁ err hs
      obtain ⟨_, herr⟩ := Prod.mk.inj (Option.some.inj hfrom)
      rw [Option.some.inj herr] at hs
      have hpos : 0 < positions.length := List.length_pos_of_mem hmem
      have hall := used_add_free c
      exact hctx 0 m (startForward_not_full hpos (by omega) hs).symm
    · rename_i c₁ hs
      split at hfrom
      · nomatch hfrom
      · exact absurd (Prod.mk.inj (Option.some.inj hfrom)).2 nofun
      · obtain ⟨c', hu, heq⟩ := Option.map_eq_some_iff.1 hfrom
        rw [← (Prod.mk.inj heq).1] at hundone
        obtain ⟨seq, hne⟩ := not_kept hinv hmax (hafter c hc) hmem hs hu
        exact hne ((List.forall₂_cons.1 hundone).1.1 seq)
  · rintro (hno | hfull)
    · refine (List.forall₂_and_left w.caches _).2 ⟨fun c hc => hc, left_startForwardFrom hfrom⟩ |>.imp ?_
      rintro c c' ⟨hc, hleft⟩
      exact kept_of_left (CacheInv.reachable (hreach c hc)) hctx hmax (hafter c hc) hno hleft
    · -- the first cache fails, and no other is started
      have hsame : ∀ c ∈ w.caches, (∀ seq, c.heldPositions seq = c.heldPositions seq) ∧ Covered c :=
        fun c hc => ⟨fun _ => rfl, (CacheInv.reachable (hreach c hc)).covered⟩
      rcases hcaches : w.caches with _ | ⟨c, rest⟩
      · rw [hcaches] at hfrom
        exact absurd (Prod.mk.inj (Option.some.inj hfrom)).2 nofun
      · have hc : c ∈ w.caches := by
          rw [hcaches]
          exact List.mem_cons_self ..
        have hinv := CacheInv.reachable (hreach c hc)
        rw [hcaches] at hfrom
        rw [startForwardFrom] at hfrom
        split at hfrom
        · nomatch hfrom
        · rename_i c' err hs
          obtain ⟨hcs, herr⟩ := Prod.mk.inj (Option.some.inj hfrom)
          rw [Option.some.inj herr] at hs
          rw [← hcs]
          refine .cons (kept_of_failed hinv (hctx 0) hs) (List.forall₂_same.2 fun c' hc' => hsame c' ?_)
          rw [hcaches]
          exact List.mem_cons_of_mem _ hc'
        · rename_i c₁ hs
          exact absurd rfl (startForward_fails hinv (hfull c (by rw [hcaches]; rfl)) hs)

/-- The positions of a cache come before those of a batch, cell by cell. -/
theorem precedes_iff (c : Causal κ ν) (batch : List (Int × Int)) :
    c.Precedes batch ↔ ∀ x ∈ batch, ∀ cell ∈ c.cells, x.2 ∈ cell.sequences → cell.pos < x.1 := by
  refine forall₂_congr fun x _ => ?_
  constructor
  · exact fun h cell hcell hmem => h cell.pos ⟨cell, hcell, hmem, rfl⟩
  · rintro h p ⟨cell, hcell, hmem, rfl⟩
    exact h cell hcell hmem

instance (c : Causal κ ν) (batch : List (Int × Int)) : Decidable (c.Precedes batch) :=
  decidable_of_iff _ (precedes_iff c batch).symm

open SwapWitness in
/-- Of two caches of four locations the second has two in use: a batch of three is unwound from the first. -/
theorem undone_iff_two : ∃ w w' : WrapperCache Nat Nat, (∀ c ∈ w.caches, (system Nat Nat).Reachable c) ∧
    w.startForward (fun _ => { maxTensors := 10 }) [2, 3, 4] [1, 1, 1] = some (w', some (.kvCacheFull 4)) ∧
      Undone w.caches w'.caches := by
  have hc : (run start ops).map (fun c => (c.cells, decide (c.Precedes ([2, 3, 4].zip [1, 1, 1])),
      ((WrapperCache.mk [start, c] 0).startForward (fun _ => { maxTensors := 10 }) [2, 3, 4] [1, 1, 1]).map Prod.snd)) =
        some (cells, true, some (some (.kvCacheFull 4))) := by decide +kernel
  obtain ⟨c, hr, hc⟩ := Option.map_eq_some_iff.1 hc
  rw [Prod.mk.injEq, Prod.mk.injEq, decide_eq_true_iff] at hc
  obtain ⟨_, hafter, hfull⟩ := hc
  obtain ⟨⟨w', err⟩, hs, rfl⟩ := Option.map_eq_some_iff.1 hfull
  have hreach : ∀ c' ∈ [start, c], (system Nat Nat).Reachable c' := by
    intro c' hc'
    rcases List.mem_cons.1 hc' with rfl | hc'
    · exact start_reachable
    · rw [List.mem_singleton.1 hc']
      exact reachable_run start_reachable hr
  have hprecedes : ∀ c' ∈ [start, c], c'.Precedes ([2, 3, 4].zip [1, 1, 1]) := by
    intro c' hc'
    rcases List.mem_cons.1 hc' with rfl | hc'
    · decide +kernel
    · rw [List.mem_singleton.1 hc']
      exact hafter
  have hctx : ∀ i m, ((fun _ => { maxTensors := 10 } : Nat → Ctx) i).floatErr ≠ some (.kvCacheFull m) := by
    intro i m heq
    nomatch heq
  exact ⟨⟨[start, c], 0⟩, w', hreach, hs, (undone_iff hreach hctx (by decide) hprecedes hs).2 (.inl (by decide))⟩

open SwapWitness in
/-- A token at `MaxInt32` stays in the first cache when the second is full. -/
theorem maxInt32_not_undone : ∃ w w' : WrapperCache Nat Nat, (∀ c ∈ w.caches, (system Nat Nat).Reachable c) ∧
    (∀ c ∈ w.caches, c.Precedes ([2, 3, maxInt32].zip [1, 1, 1])) ∧
    w.startForward (fun _ => { maxTensors := 10 }) [2, 3, maxInt32] [1, 1, 1] = some (w', some (.kvCacheFull 4)) ∧
    ¬Undone w.caches w'.caches := by
  have hc : (run start ops).map (fun c => (decide (c.Precedes ([2, 3, maxInt32].zip [1, 1, 1])),
      ((WrapperCache.mk [start, c] 0).startForward (fun _ => { maxTensors := 10 }) [2, 3, maxInt32] [1, 1, 1]).map
        (fun out => (out.2, out.1.caches.map (fun c => c.count 1 maxInt32))))) =
          some (true, some (some (.kvCacheFull 4), [1, 0])) := by decide +kernel
  obtain ⟨c, hr, hc⟩ := Option.map_eq_some_iff.1 hc
  rw [Prod.mk.injEq, decide_eq_true_iff] at hc
  obtain ⟨hafter, hfull⟩ := hc
  obtain ⟨⟨w', err⟩, hs, hout⟩ := Option.map_eq_some_iff.1 hfull
  obtain ⟨rfl, hcounts⟩ := Prod.mk.inj hout
  refine ⟨⟨[start, c], 0⟩, w', ?_, ?_, hs, fun hundone => ?_⟩
  · intro c' hc'
    rcases List.mem_cons.1 hc' with rfl | hc'
    · exact start_reachable
    · rw [List.mem_singleton.1 hc']
      exact reachable_run start_reachable hr
  · intro c' hc'
    rcases List.mem_cons.1 hc' with rfl | hc'
    · decide +kernel
    · rw [List.mem_singleton.1 hc']
      exact hafter
  · rcases hw : w'.caches with _ | ⟨c₁, rest⟩
    · rw [hw] at hcounts
      nomatch hcounts
    · rw [hw] at hcounts hundone
      have hcount : c₁.count 1 maxInt32 = 1 := (List.cons.inj hcounts).1
      have hkept := (List.forall₂_cons.1 hundone).1.1 1
      have hnew : maxInt32 ∈ c₁.heldPositions 1 := mem_heldPositions.2 (by omega)
      rw [hkept, mem_heldPositions] at hnew
      exact absurd hnew (by decide +kernel)

end Ollama.Kvcache
