import Ollama.Runner.Theorems.Capacity

/-!
# Context shifts and shared cells

`Remove` refuses to move a cell that another sequence references, and `findBestCacheSlot` shares cells when it copies
the prefix of one slot to another. So a shift fails, and ends the process, exactly when the slot that is full shares a
cell at or behind the end of the block it would give up (`shift_succeeds_iff`). Without forks no cell is shared.

`ShiftCacheSlot` is the only call that can fail while a batch is gathered, so the batch is gathered exactly when no
shift fails.
-/

namespace Ollama.Runner

open Kvcache

variable {κ ν μ : Type}

/-- The position up to which a shift of the slot of a sequence gives up inputs: those from here on move down. -/
def Server.shiftPoint (s : Server (CausalState κ ν) μ) (seq : Sequence μ) : Nat :=
  seq.numKeep + s.cache.discard seq.numKeep

/-- The sequences are visited in an order. One whose slot is shifted shares no cell from its shift point on with
another slot, unless this is shifted before it and gives the cell up. -/
def Server.ShiftsOwnCells (s : Server (CausalState κ ν) μ) (idxs : List Nat) : Prop :=
  ∀ kv, s.cache.cache = some kv → ∀ before i after, idxs = before ++ i :: after → ∀ seq, s.Shifts i seq →
    ∀ x ∈ kv.cache.cells, (seq.cache : Int) ∈ x.sequences → (s.shiftPoint seq : Int) ≤ x.pos →
      ∀ id ∈ x.sequences, id ≠ (seq.cache : Int) →
        ∃ j ∈ before, ∃ seq', s.Shifts j seq' ∧ (seq'.cache : Int) = id ∧ (seq'.numKeep : Int) ≤ x.pos ∧
        x.pos < s.shiftPoint seq'

namespace ShiftAux

variable [Zero κ] [Zero ν] {B : Backend κ ν μ} {m : CausalModel κ}

/-! ## One shift -/

omit [Zero κ] [Zero ν] in
/-- A shift is of positions of a context. -/
theorem shiftPoint_le {s : Server (CausalState κ ν) μ} (hplaced : Placed s) {seq : Sequence μ}
    (hkeep : seq.numKeep < s.cache.numCtx) :
    (s.shiftPoint seq : Int) ≤ maxInt32 := by
  have h1 : s.shiftPoint seq ≤ s.cache.numCtx := (shiftDiscard_full hkeep).2
  have h2 := hplaced.small
  omega

/-- A shift fails exactly when a cell stops the removal. -/
theorem shiftKv_fails_iff (hB : ∀ n, (B.ctx n).Answers) {s : Server (CausalState κ ν) μ} (hplaced : Placed s)
    {seq : Sequence μ} (hkeep : seq.numKeep < s.cache.numCtx) {kv : CausalState κ ν}
    (hshift : kv.cache.shiftFn.isSome) :
    (s.shiftKv (causalCache B) seq kv).2 = true ↔
      ∃ x ∈ kv.cache.cells, blocksCell seq.cache seq.numKeep (s.shiftPoint seq) x := by
  have hpoint : (s.shiftPoint seq : Int) = seq.numKeep + s.cache.discard seq.numKeep := Int.natCast_add _ _
  have hsucceeds : (∃ c', kv.cache.remove (B.ctx kv.calls) seq.cache seq.numKeep (s.shiftPoint seq) = some (c', none)) ↔
      ∀ x ∈ kv.cache.cells, ¬blocksCell seq.cache seq.numKeep (s.shiftPoint seq) x :=
      remove_succeeds_iff (hB kv.calls) hshift
  have hle := shiftPoint_le hplaced hkeep
  unfold Server.shiftKv
  rw [← hpoint]
  show (CausalState.remove B seq.cache seq.numKeep (s.shiftPoint seq) kv).2 = true ↔ _
  rcases CausalState.remove_cases B seq.cache seq.numKeep (s.shiftPoint seq) kv with ⟨_, _, _, err, hr, hfail⟩ |
    ⟨hsame, hpanic⟩
  · rw [hfail]
    cases err with
    | none =>
      refine ⟨nofun, fun ⟨x, hx, hblocks⟩ => ?_⟩
      exact absurd hblocks (hsucceeds.1 ⟨_, hr⟩ x hx)
    | some err =>
      refine ⟨fun _ => ?_, fun _ => rfl⟩
      by_contra hno
      obtain ⟨c', hc'⟩ := hsucceeds.2 (fun x hx hblocks => hno ⟨x, hx, hblocks⟩)
      rw [hr] at hc'
      nomatch hc'
  · rw [hsame]
    refine ⟨fun _ => ?_, fun _ => rfl⟩
    by_contra hno
    obtain ⟨c', hc'⟩ := hsucceeds.2 (fun x hx hblocks => hno ⟨x, hx, hblocks⟩)
    rw [hpanic (by omega) (by omega) hle] at hc'
    nomatch hc'

/-- The cells after a shift. -/
theorem shiftKv_cells {s : Server (CausalState κ ν) μ} {seq : Sequence μ} {kv : CausalState κ ν}
    (hok : (s.shiftKv (causalCache B) seq kv).2 = false) :
    (s.shiftKv (causalCache B) seq kv).1.cache.cells = kv.cache.cells.map
        (removeCell seq.cache seq.numKeep (s.shiftPoint seq) (removeOffset seq.numKeep (s.shiftPoint seq))) ∧
      ∀ x ∈ kv.cache.cells, ¬blocksCell seq.cache seq.numKeep (s.shiftPoint seq) x := by
  have hpoint : (s.shiftPoint seq : Int) = seq.numKeep + s.cache.discard seq.numKeep := Int.natCast_add _ _
  unfold Server.shiftKv at hok ⊢
  rw [← hpoint] at hok ⊢
  have hok' : (CausalState.remove B seq.cache seq.numKeep (s.shiftPoint seq) kv).2 = false := hok
  show (CausalState.remove B seq.cache seq.numKeep (s.shiftPoint seq) kv).1.cache.cells = _ ∧ _
  rcases CausalState.remove_cases B seq.cache seq.numKeep (s.shiftPoint seq) kv with ⟨h1, h2, h3, err, hr, hfail⟩ |
    ⟨hsame, _⟩
  · rw [hok'] at hfail
    obtain rfl : err = none := Option.not_isSome_iff_eq_none.1 (by rw [← hfail]; exact Bool.false_ne_true)
    obtain ⟨hcells, hflag⟩ := remove_cells (int32_removeOffset h1 h2 h3).1 hr
    rcases removeFrom_cases seq.cache seq.numKeep (s.shiftPoint seq)
      (removeOffset seq.numKeep (s.shiftPoint seq)) kv.cache.cells 0
      newRange with ⟨hout, hno⟩ | ⟨_, _, _, _, _, _, _, hstop⟩
    · rw [hcells, hout]
      exact ⟨rfl, hno⟩
    · rw [hflag rfl] at hstop
      cases hstop
  · rw [hsame] at hok'
    cases hok'

/-! ## One visit -/

/-- A visit changes nothing of which other slots are shifted. -/
theorem shifts_visit_iff {idx : Nat} {kv : CausalState κ ν} {s s' : Server (CausalState κ ν) μ}
    (hv : Visit (causalCache B) idx kv s s') {j : Nat} (hj : j ≠ idx) (seq : Sequence μ) :
    s'.Shifts j seq ↔ s.Shifts j seq := by
  have hslot : s.seq j = some seq → s'.cache.slot seq.cache = s.cache.slot seq.cache := by
    intro hs
    rw [InputCache.slot, InputCache.slot, hv.slots j seq hj hs]
  constructor
  · rintro ⟨hs, hgoing, hfull⟩
    rw [hv.seqs j hj] at hs
    exact ⟨hs, hgoing, by rw [← hslot hs, hfull, hv.numCtx]⟩
  · rintro ⟨hs, hgoing, hfull⟩
    exact ⟨by rw [hv.seqs j hj]; exact hs, hgoing, by rw [hslot hs, hfull, hv.numCtx]⟩

theorem shiftPoint_visit {idx : Nat} {kv : CausalState κ ν} {s s' : Server (CausalState κ ν) μ}
    (hv : Visit (causalCache B) idx kv s s') (seq : Sequence μ) : s'.shiftPoint seq = s.shiftPoint seq := by
  unfold Server.shiftPoint InputCache.discard InputCache.shiftDiscard
  rw [hv.numCtx]

/-- What the condition says before a visit and after it. -/
theorem shiftsOwnCells_visit_iff {idx : Nat} {idxs : List Nat} (hnot : idx ∉ idxs) {kv : CausalState κ ν}
    {s s' : Server (CausalState κ ν) μ} (hplaced : Placed s) (hkv : s.cache.cache = some kv)
    (hv : Visit (causalCache B) idx kv s s') :
    s'.ShiftsOwnCells idxs ↔ s.ShiftsOwnCells (idx :: idxs) := by
  have hne : ∀ {j}, j ∈ idxs → j ≠ idx := fun hj heq => hnot (heq ▸ hj)
  have hother : ∀ {j seq seq₀}, j ∈ idxs → s.Shifts j seq → s.Shifts idx seq₀ → (seq.cache : Int) ≠ seq₀.cache := by
    intro j seq seq₀ hj hs hs₀ heq
    exact hne hj (hplaced.distinct j idx seq seq₀ hs.live hs₀.live (Int.natCast_inj.1 heq))
  constructor
  · intro h kv₀ hkv₀ before i after hsplit seq hs x hx hmem hpos id hid hid'
    obtain rfl : kv₀ = kv := Option.some.inj (hkv₀.symm.trans hkv)
    rcases before with _ | ⟨first, before⟩
    · -- the sequence that is visited
      obtain ⟨rfl, rfl⟩ := List.cons.inj hsplit
      rcases hv.kv with ⟨hno, _⟩ | ⟨seq₀, hs₀, hok, _⟩
      · exact absurd hs (hno seq)
      · obtain rfl : seq = seq₀ := Option.some.inj (hs.live.symm.trans hs₀.live)
        refine absurd ⟨hmem, ?_, hpos, id, hid, hid'⟩ ((shiftKv_cells hok).2 x hx)
        omega
    · obtain ⟨rfl, rfl⟩ := List.cons.inj hsplit
      have hi : i ∈ before ++ i :: after := List.mem_append_right _ (List.mem_cons_self ..)
      have hs' := (shifts_visit_iff hv (hne hi) seq).2 hs
      have hback : (∃ j ∈ before, ∃ seq', s'.Shifts j seq' ∧ (seq'.cache : Int) = id ∧ (seq'.numKeep : Int) ≤ x.pos ∧
          x.pos < s'.shiftPoint seq') → ∃ j ∈ idx :: before, ∃ seq', s.Shifts j seq' ∧ (seq'.cache : Int) = id ∧
            (seq'.numKeep : Int) ≤ x.pos ∧ x.pos < s.shiftPoint seq' := by
        rintro ⟨j, hj, seq', hseq', hrest⟩
        rw [shiftPoint_visit hv] at hrest
        exact ⟨j, List.mem_cons_of_mem _ hj, seq',
          (shifts_visit_iff hv (hne (List.mem_append_left _ hj)) seq').1 hseq', hrest⟩
      rcases hv.kv with ⟨_, hsame⟩ | ⟨seq₀, hs₀, hok, hshift⟩
      · exact hback (h kv₀ hsame before i after rfl seq hs' x hx hmem
          (by rw [shiftPoint_visit hv]; exact hpos) id hid hid')
      · obtain ⟨hcells, hno⟩ := shiftKv_cells hok
        obtain ⟨hmem', hpos'⟩ :=
          removeCell_of_ne (removeOffset seq₀.numKeep (s.shiftPoint seq₀)) (hother hi hs hs₀) (hno x hx)
        have hat := hpos' hmem
        have hafter := h _ hshift before i after rfl seq hs' _ (by rw [hcells]; exact List.mem_map_of_mem hx)
          (hmem'.2 hmem)
          (by rw [shiftPoint_visit hv, hat]; exact hpos)
        rw [hat] at hafter
        by_cases hown : id = (seq₀.cache : Int)
        · by_cases hstays : staysCell seq₀.cache seq₀.numKeep (s.shiftPoint seq₀) x = true
          · refine hback (hafter id ?_ hid')
            rw [hown]
            exact (mem_removeCell_self _ _ _ _ x).2 hstays
          · -- the slot shifted before gives the cell up
            have hblock : x.pos ≥ seq₀.numKeep ∧ x.pos < s.shiftPoint seq₀ := by
              by_contra hout
              apply hstays
              simp only [staysCell, decide_eq_true_eq]
              exact ⟨hown ▸ hid, hout⟩
            exact ⟨idx, List.mem_cons_self .., seq₀, hs₀, hown.symm, hblock⟩
        · exact hback (hafter id ((removeCell_of_ne _ hown (hno x hx)).1.2 hid) hid')
  · intro h kv' hkv' before i after hsplit seq hs' x' hx' hmem hpos id hid hid'
    have hi : i ∈ idxs := by
      rw [hsplit]
      exact List.mem_append_right _ (List.mem_cons_self ..)
    have hs := (shifts_visit_iff hv (hne hi) seq).1 hs'
    rw [shiftPoint_visit hv] at hpos
    have hbefore : ∀ {j}, j ∈ before → j ∈ idxs := by
      intro j hj
      rw [hsplit]
      exact List.mem_append_left _ hj
    have hcons : idx :: idxs = (idx :: before) ++ i :: after := by rw [hsplit, List.cons_append]
    -- a slot shifted before, other than the one that was visited
    have hforward : (∃ j ∈ before, ∃ seq', s.Shifts j seq' ∧ (seq'.cache : Int) = id ∧ (seq'.numKeep : Int) ≤ x'.pos ∧
        x'.pos < s.shiftPoint seq') → ∃ j ∈ before, ∃ seq', s'.Shifts j seq' ∧ (seq'.cache : Int) = id ∧
          (seq'.numKeep : Int) ≤ x'.pos ∧ x'.pos < s'.shiftPoint seq' := by
      rintro ⟨j, hj, seq', hseq', hrest⟩
      rw [← shiftPoint_visit hv] at hrest
      exact ⟨j, hj, seq', (shifts_visit_iff hv (hne (hbefore hj)) seq').2 hseq', hrest⟩
    apply hforward
    rcases hv.kv with ⟨hno, hsame⟩ | ⟨seq₀, hs₀, hok, hshift⟩
    · obtain rfl : kv' = kv := Option.some.inj (hkv'.symm.trans hsame)
      obtain ⟨j, hj, seq', hseq', hrest⟩ := h kv' hkv (idx :: before) i after hcons seq hs x' hx' hmem hpos id hid hid'
      rcases List.mem_cons.1 hj with rfl | hj
      · exact absurd hseq' (hno seq')
      · exact ⟨j, hj, seq', hseq', hrest⟩
    · obtain ⟨hcells, hno⟩ := shiftKv_cells hok
      rw [← Option.some.inj (hkv'.symm.trans hshift).symm, hcells] at hx'
      obtain ⟨x, hx, rfl⟩ := List.mem_map.1 hx'
      obtain ⟨hmem', hpos'⟩ :=
        removeCell_of_ne (removeOffset seq₀.numKeep (s.shiftPoint seq₀)) (hother hi hs hs₀) (hno x hx)
      have hat := hpos' (hmem'.1 hmem)
      rw [hat] at hpos ⊢
      obtain ⟨j, hj, seq', hseq', heq, h1, h2⟩ :=
        h kv hkv (idx :: before) i after hcons seq hs x hx (hmem'.1 hmem) hpos id
        (mem_of_mem_removeCell hid) hid'
      rcases List.mem_cons.1 hj with rfl | hj
      · -- the slot that was visited has given the cell up
        obtain rfl : seq' = seq₀ := Option.some.inj (hseq'.live.symm.trans hs₀.live)
        rw [← heq] at hid
        have hstays := (mem_removeCell_self _ _ _ _ x).1 hid
        simp only [staysCell, decide_eq_true_eq] at hstays
        exact absurd ⟨h1, h2⟩ hstays.2
      · exact ⟨j, hj, seq', hseq', heq, h1, h2⟩

/-- The loop over the sequences still to be visited fails exactly when one of them does not shift its own cells. -/
theorem gatherAll_ne_none_iff (hB : ∀ n, (B.ctx n).Answers) {env : Env} {idxs : List Nat} (hnodup : idxs.Nodup)
    {s : Server (CausalState κ ν) μ} {options : Options μ} (h : Waiting (causalCache B) idxs s options.rows)
    {kv : CausalState κ ν} (hkv : s.cache.cache = some kv) (hshift : kv.cache.shiftFn.isSome) :
    gatherAll (causalCache B) env idxs s options ≠ none ↔ s.ShiftsOwnCells idxs := by
  induction idxs generalizing s options kv with
  | nil =>
    refine ⟨fun _ => ?_, fun _ hnone => (by cases hnone)⟩
    intro _ _ before i after hsplit
    exact absurd hsplit.symm (List.append_ne_nil_of_right_ne_nil _ (List.cons_ne_nil _ _))
  | cons idx idxs ih =>
    obtain ⟨hnot, hnodup'⟩ := List.nodup_cons.1 hnodup
    rw [gatherAll]
    rcases h.first hkv with ⟨seq, hs, hfail, hnone⟩ | ⟨s₁, options₁, h₁, hv⟩
    · rw [hnone]
      refine ⟨fun hne => absurd rfl hne, fun hown => ?_⟩
      have hkeep := h.keeps idx (List.mem_cons_self ..) seq hs.live
      obtain ⟨x, hx, hmem, _, hpos, id, hid, hne⟩ := (shiftKv_fails_iff hB h.gathering.placed hkeep hshift).1 hfail
      obtain ⟨j, hj, _⟩ := hown kv hkv [] idx idxs rfl seq hs x hx hmem hpos id hid hne
      cases hj
    · rw [h₁, Option.bind_some, ← shiftsOwnCells_visit_iff hnot h.gathering.placed hkv hv]
      obtain ⟨kv', hkv'⟩ := hv.exists_kv
      have hkept := (kept_fixed B).visit hkv hv
      rw [hkv', hkv, Option.map_some, Option.map_some, Option.some.injEq] at hkept
      have hshift' : kv'.cache.shiftFn = kv.cache.shiftFn := congrArg Prod.snd hkept
      exact ih hnodup' (h.visit hnot h₁ hv) hkv' (hshift' ▸ hshift)

/-- In every run the batch is gathered exactly when no shift moves a cell that is shared, whatever the environment
answers. -/
theorem gathers_iff (hB : ∀ n, (B.ctx n).Answers) (hshift : m.shiftFn.isSome) {s : Server (CausalState κ ν) μ}
    (h : (causalSystem B m).Reachable s) (env : Env) :
    gatherAll (causalCache B) env s.order s {} ≠ none ↔ s.ShiftsOwnCells s.order := by
  have hinv := causalInv_reachable h
  obtain ⟨kv, hkv, _⟩ := hinv.fit
  have hkvShift : kv.cache.shiftFn.isSome := by
    rw [hinv.shiftFn kv hkv]
    exact hshift
  exact gatherAll_ne_none_iff hB (nodup_rotate _ _) (hinv.inv.waiting hinv.ready s.order) hkv hkvShift

/-! ## Without forks -/

/-- No cell is shared. -/
def Alone (kv : CausalState κ ν) : Prop := ∀ x ∈ kv.cache.cells, ∀ a ∈ x.sequences, ∀ b ∈ x.sequences, a = b

/-- Only a fork shares cells. -/
theorem unforked_alone (B : Backend κ ν μ) : Unforked (causalCache B) Alone where
  forward := by
    intro batch kv kv' h halone
    -- the cells with two sequences are counted: a batch adds none
    have hq : OfUsed (fun x => decide (¬∀ a ∈ x.sequences, ∀ b ∈ x.sequences, a = b)) := by
      intro x hx
      simp [(empty_iff x).1 hx]
    have hstart : ∀ {c : Causal κ ν}, kv.cache.startForward (B.ctx kv.calls) (positions batch) (sequences batch) =
      some (c, none) → c.cells.countP (fun x => decide (¬∀ a ∈ x.sequences, ∀ b ∈ x.sequences, a = b)) = 0 := by
      intro c hs
      rw [countP_startForward hq kv.inv hs, Nat.add_eq_zero_iff, List.countP_eq_zero, List.countP_eq_zero]
      refine ⟨fun x hx hout => of_decide_eq_true hout (halone x hx), fun x _ hout => of_decide_eq_true hout ?_⟩
      intro a ha b hb
      rw [List.mem_singleton] at ha hb
      rw [ha, hb]
    have hf := CausalState.forward_eq_some h
    have hcount : kv'.cache.cells.countP (fun x => decide (¬∀ a ∈ x.sequences, ∀ b ∈ x.sequences, a = b)) = 0 := by
      unfold Causal.forward at hf
      split at hf
      · rename_i c₁ hs
        simp only [Option.map_eq_some_iff, Prod.mk.injEq, and_true] at hf
        obtain ⟨_, hput, rfl⟩ := hf
        rw [(putLayers_layer hput).2.1]
        exact hstart hs
      · exact hstart hf
    intro x hx
    by_contra hout
    exact List.countP_eq_zero.1 hcount x hx (decide_eq_true hout)
  remove := by
    intro seq b e kv halone x hx a ha b' hb'
    rcases CausalState.remove_cases B seq b e kv with ⟨h1, h2, h3, err, hr, _⟩ | ⟨hsame, _⟩
    · have hcells := (remove_cells (int32_removeOffset h1 h2 h3).1 hr).1
      have hx' : x ∈ (CausalState.remove B seq b e kv).1.cache.cells := hx
      rw [hcells] at hx'
      obtain ⟨j, hj, rfl⟩ := List.mem_iff_getElem.1 hx'
      have hat := cellAt_eq_getElem hj
      rw [← hat] at ha hb'
      have hold := lt_length_of_mem (mem_of_mem_removeFrom ha)
      have hmem := List.getElem_mem hold
      rw [← cellAt_eq_getElem hold] at hmem
      exact halone _ hmem a (mem_of_mem_removeFrom ha) b' (mem_of_mem_removeFrom hb')
    · have hx' : x ∈ (CausalState.remove B seq b e kv).1.cache.cells := hx
      rw [hsame] at hx'
      exact halone x hx' a ha b' hb'

/-- With the policy for a single user no cell is shared. -/
theorem alone_reachable {s : Server (CausalState κ ν) μ} (h : (causalSystem B m).Reachable s) :
    Single Alone s.cache := by
  have hboth : CausalInv B m s ∧ Single Alone s.cache := by
    induction h with
    | init hinit =>
      refine ⟨causalInv_reachable (.init hinit), fun _ kv hkv x hx a ha => ?_⟩
      obtain ⟨_, kv₀, hkv₀, hempty, _⟩ := causal_init hinit
      obtain rfl : kv = kv₀ := Option.some.inj (hkv.symm.trans hkv₀)
      -- there are no rows at first
      obtain ⟨h1, _, _⟩ := kv.range x hx a ha
      obtain ⟨id, rfl⟩ := Int.eq_ofNat_of_zero_le h1
      have hcount : kv.cache.count id x.pos = 0 := by
        have hcard := congrArg Multiset.card (hempty id x.pos)
        have hentries : (causalCache B).entries kv id x.pos = Multiset.replicate (kv.cache.count id x.pos) () := rfl
        rwa [hentries, Multiset.card_replicate, Multiset.card_zero] at hcard
      exact absurd (decide_eq_true ⟨ha, rfl⟩) (List.countP_eq_zero.1 hcount x hx)
    | step hr hstep ih =>
      obtain ⟨hI, hsingle⟩ := ih
      refine ⟨causalInv_reachable (.step hr hstep), ?_⟩
      rcases hstep with ⟨req, hc⟩ | ⟨env, hp⟩
      · exact (unforked_alone B).completion hsingle hc
      · exact (unforked_alone B).processBatch hI.inv hI.ready hI.fit hsingle hp
  exact hboth.2

end ShiftAux

open ShiftAux

variable [Zero κ] [Zero ν] {B : Backend κ ν μ} {m : CausalModel κ}

/-- In every run over a causal cache with a shift function, on a backend that answers, the next `processBatch` gathers
its batch without an error of `ShiftCacheSlot` exactly when every sequence it shifts shifts cells of its own only.
With the policy for a single user that is always so. -/
theorem shift_succeeds_iff (hB : ∀ n, (B.ctx n).Answers) (hshift : m.shiftFn.isSome) {s : Server (CausalState κ ν) μ}
    (h : (causalSystem B m).Reachable s) (env : Env) :
    (gatherAll (causalCache B) env s.order s {} ≠ none ↔ s.ShiftsOwnCells s.order) ∧
      (s.cache.multiUserCache = false → gatherAll (causalCache B) env s.order s {} ≠ none) := by
  have hiff := gathers_iff hB hshift h env
  refine ⟨hiff, fun hsingle => hiff.2 ?_⟩
  intro kv' hkv' before i after _ seq _ x hx hmem _ id hid hne
  exact absurd (alone_reachable h hsingle kv' hkv' x hx id hid _ hmem) hne

/-- Two users send the same prompt of a full context: the second gets the first three inputs of the first, who is then
shifted. -/
def forkRequest (now : Nat) : Request Unit :=
  ⟨[{ token := 1 }, { token := 2 }, { token := 3 }, { token := 4 }], true, 0, -1, [], false, now, now⟩

/-- The model samples the same token every time. -/
def sampleNine : Env := ⟨fun _ _ => some 9, fun _ => false, fun _ => some [], fun _ => true⟩

/-- A single user with a full context: the slot is shifted, and the cells it moves are its own. -/
theorem shift_succeeds_iff_alone :
    ∃ s : Server (CausalState Int Int) Unit, (causalSystem oneLayer positionKeys).Reachable s ∧
    s.cache.multiUserCache = true ∧ (∃ seq, s.Shifts 0 seq) ∧ s.ShiftsOwnCells s.order := by
  have hrun : (((firstServer 8 2 4 true).bind (Server.completion (causalCache oneLayer) (forkRequest 1))).bind
      (Server.processBatch (causalCache oneLayer) sampleNine)).bind (fun s => (s.seq 0).map (fun seq =>
        (s.cache.multiUserCache, seq.numPredict, (s.cache.slot seq.cache).inputs.length, s.cache.numCtx,
          (gatherAll (causalCache oneLayer) sampleNine s.order s {}).isSome))) =
          some (true, -1, 4, 4, true) := by decide +kernel
  rw [Option.bind_eq_some_iff] at hrun
  obtain ⟨s, hs, hrun⟩ := hrun
  rw [Option.bind_eq_some_iff] at hs
  obtain ⟨s₁, hs₁, hs⟩ := hs
  rw [Option.bind_eq_some_iff] at hs₁
  obtain ⟨s₀, hs₀, hs₁⟩ := hs₁
  rw [Option.map_eq_some_iff] at hrun
  obtain ⟨seq, hseq, hrun⟩ := hrun
  simp only [Prod.mk.injEq] at hrun
  obtain ⟨hmulti, hpredict, hlen, hctx, hgather⟩ := hrun
  have hreach : (causalSystem oneLayer positionKeys).Reachable s :=
    ((reachable_firstServer hs₀).step (Or.inl ⟨_, hs₁⟩)).step (Or.inr ⟨_, hs⟩)
  have hgoing : ¬seq.limited := by
    unfold Sequence.limited
    omega
  refine ⟨s, hreach, hmulti, ⟨seq, hseq, hgoing, by omega⟩, ?_⟩
  refine (shift_succeeds_iff (fun _ => ⟨rfl, fun _ => rfl⟩) rfl hreach sampleNine).1.1 (fun hnone => ?_)
  rw [hnone] at hgather
  nomatch hgather

/-- A shift of the first slot fails once the second slot shares its cells: the run ends. -/
theorem shift_kills_runner : positionKeys.shiftFn.isSome ∧ (∀ n, (oneLayer.ctx n).Answers) ∧
    ∃ s, (causalSystem oneLayer positionKeys).Reachable s ∧ s.cache.shiftCacheSlot (causalCache oneLayer) 0 0 = none ∧
      ∀ env, gatherAll (causalCache oneLayer) env s.order s {} = none := by
  refine ⟨rfl, fun _ => ⟨rfl, fun _ => rfl⟩, ?_⟩
  have hrun : (((firstServer 8 2 4 true).bind (Server.completion (causalCache oneLayer) (forkRequest 1))).bind
      (Server.processBatch (causalCache oneLayer) sampleNine)).bind (fun s =>
        (s.completion (causalCache oneLayer) (forkRequest 3)).map (fun s =>
          ((s.cache.shiftCacheSlot (causalCache oneLayer) 0 0).isNone,
            (gatherAll (causalCache oneLayer) sampleNine s.order s {}).isNone))) =
            some (true, true) := by decide +kernel
  rw [Option.bind_eq_some_iff] at hrun
  obtain ⟨s₂, hs₂, hrun⟩ := hrun
  rw [Option.bind_eq_some_iff] at hs₂
  obtain ⟨s₁, hs₁, hs₂⟩ := hs₂
  rw [Option.bind_eq_some_iff] at hs₁
  obtain ⟨s₀, hs₀, hs₁⟩ := hs₁
  rw [Option.map_eq_some_iff] at hrun
  obtain ⟨s₃, hs₃, hnone⟩ := hrun
  obtain ⟨hshift, hgather⟩ := Prod.mk.inj hnone
  have hreach : (causalSystem oneLayer positionKeys).Reachable s₃ :=
    (((reachable_firstServer hs₀).step (Or.inl ⟨_, hs₁⟩)).step (Or.inr ⟨_, hs₂⟩)).step (Or.inl ⟨_, hs₃⟩)
  refine ⟨s₃, hreach, Option.isNone_iff_eq_none.1 hshift, fun env => ?_⟩
  have hiff := gathers_iff (fun _ => ⟨rfl, fun _ => rfl⟩) rfl hreach
  by_contra hne
  exact (hiff sampleNine).2 ((hiff env).1 hne) (Option.isNone_iff_eq_none.1 hgather)

end Ollama.Runner
