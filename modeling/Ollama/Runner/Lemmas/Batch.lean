import Ollama.Runner.Lemmas.Server

/-!
# The loop over the inputs of a sequence

How far the loop has come is one number: the inputs that are pending. Everything it has put into the batch follows
from it, and a shift happens before it has come anywhere.
-/

namespace Ollama.Runner

variable {σ ρ μ : Type} {K : KvCache σ ρ μ}

/-- Whether a sequence has made all its predictions. -/
def Sequence.limited (seq : Sequence μ) : Prop := seq.numPredict > 0 ∧ (seq.numPredicted : Int) ≥ seq.numPredict

/-- The order in which the sequences are visited. -/
def Server.order (s : Server σ μ) : List Nat :=
  (List.range s.seqs.length).map (fun k => (s.nextSeq + k) % s.seqs.length)

/-- The loop has put the first `i` of the inputs of the slot `id` into a batch that had some rows and outputs. -/
structure Gathered (id : Nat) (all : List (Input μ)) (rows₀ : List (BatchRow μ)) (outputs₀ : List Nat) (i : Nat)
    (g : Gather σ μ) : Prop where
  cache : g.seq.cache = id
  inputs : g.seq.inputs = all
  le : i ≤ all.length
  pending : g.seq.pendingInputs = all.take i
  rows : g.options.rows = rows₀ ++ pendingRows id (g.cache.slot id).inputs.length (all.take i)
  outputs : g.options.outputs = outputs₀ ++ (if i = all.length then [rows₀.length + i - 1] else [])
  iBatch : 0 < i → g.seq.iBatch = outputs₀.length
  room : (g.cache.slot id).inputs.length + i ≤ g.cache.numCtx

variable {id : Nat} {inputs : List (Input μ)} {rows : List (BatchRow μ)} {outputs : List Nat} {i : Nat}
  {g g' : Gather σ μ}

theorem Gathered.pending_length (h : Gathered id inputs rows outputs i g) : g.seq.pendingInputs.length = i := by
  rw [h.pending, List.length_take]
  exact Nat.min_eq_left h.le

/-- One more input. -/
theorem Gathered.add (h : Gathered id inputs rows outputs i g) (hi : i < inputs.length) (hfull : ¬g.full) :
    Gathered id inputs rows outputs (i + 1) (g.add inputs.length i inputs[i]) := by
  have hlen := h.pending_length
  have htake : inputs.take (i + 1) = inputs.take i ++ [inputs[i]] := (List.take_concat_get' inputs i hi).symm
  have hrows : g.options.rows.length = rows.length + i := by
    rw [h.rows, List.length_append, length_pendingRows, List.length_take, Nat.min_eq_left h.le]
  have hnone : g.options.outputs = outputs := by rw [h.outputs, if_neg (Nat.ne_of_lt hi), List.append_nil]
  unfold Gather.full at hfull
  rw [h.cache, hlen] at hfull
  refine ⟨h.cache, h.inputs, hi, ?_, ?_, ?_, fun _ => ?_, ?_⟩
  · show g.seq.pendingInputs ++ [inputs[i]] = _
    rw [h.pending, htake]
  · show g.options.rows ++
      [⟨inputs[i], ((g.cache.slot g.seq.cache).inputs.length : Int) + g.seq.pendingInputs.length, g.seq.cache⟩] =
      rows ++ pendingRows id (g.cache.slot id).inputs.length (inputs.take (i + 1))
    rw [htake, pendingRows_concat, ← List.append_assoc, ← h.rows, h.cache, h.pending]
  · show (if i + 1 = inputs.length then g.options.outputs ++ [g.options.rows.length] else g.options.outputs) = _
    rw [hnone, hrows]
    split
    · rfl
    · rw [List.append_nil]
  · show g.options.outputs.length = _
    rw [hnone]
  · show (g.cache.slot id).inputs.length + (i + 1) ≤ g.cache.numCtx
    omega

/-- What the loop changes of a sequence. -/
def SameSeq (seq seq' : Sequence μ) : Prop :=
  seq' = { seq with pendingInputs := seq'.pendingInputs, iBatch := seq'.iBatch }

/-- The rest of the loop once there is room for the next input. -/
theorem gathered_next {idx batchSize : Nat} (hi : i < inputs.length) (hbatch : i ≤ batchSize) (hfull : ¬g.full)
    (h : Gathered id inputs rows outputs i g)
    (ih : ∀ {g₁ : Gather σ μ}, Gathered id inputs rows outputs (i + 1) g₁ → i + 1 ≤ batchSize →
      gather K idx batchSize inputs.length (inputs.drop (i + 1)) (i + 1) g₁ = some g' →
      ∃ n, i + 1 ≤ n ∧ n ≤ batchSize ∧ Gathered id inputs rows outputs n g' ∧ g'.cache = g₁.cache ∧
        SameSeq g₁.seq g'.seq) (hg : (if i ≥ batchSize then some g
        else if g.breaks inputs[i] then some { g with nextSeq := idx }
        else gather K idx batchSize inputs.length (inputs.drop (i + 1)) (i + 1) (g.add inputs.length i inputs[i])) =
          some g') :
    ∃ n, i ≤ n ∧ n ≤ batchSize ∧ (i = 0 → 0 < batchSize → 0 < n) ∧ Gathered id inputs rows outputs n g' ∧
      g'.cache = g.cache ∧ SameSeq g.seq g'.seq := by
  split at hg
  · rename_i hge
    rw [Option.some.injEq] at hg
    subst hg
    exact ⟨i, Nat.le_refl i, hbatch, by omega, h, rfl, rfl⟩
  · rename_i hlt
    split at hg
    · rename_i hbreaks
      rw [Option.some.injEq] at hg
      subst hg
      have hpos : i ≠ 0 := by
        intro hzero
        exact hbreaks.2 (.inl (h.pending_length.trans hzero))
      exact ⟨i, Nat.le_refl i, hbatch, fun hzero => absurd hzero hpos,
        ⟨h.cache, h.inputs, h.le, h.pending, h.rows, h.outputs, h.iBatch, h.room⟩, rfl, rfl⟩
    · obtain ⟨n, hn, hle, hn', hcache, hseq⟩ := ih (h.add hi hfull) (by omega) hg
      exact ⟨n, by omega, hle, fun _ _ => by omega, hn', hcache, hseq⟩

/-- The loop once something is pending: it does not shift. -/
theorem gathered_gather {idx batchSize : Nat} (hpos : 0 < i) (hbatch : i ≤ batchSize)
    (h : Gathered id inputs rows outputs i g)
    (hg : gather K idx batchSize inputs.length (inputs.drop i) i g = some g') :
    ∃ n, i ≤ n ∧ n ≤ batchSize ∧ Gathered id inputs rows outputs n g' ∧ g'.cache = g.cache ∧ SameSeq g.seq g'.seq := by
  generalize hrest : inputs.drop i = rest at hg
  induction rest generalizing i g with
  | nil =>
    rw [gather, Option.some.injEq] at hg
    subst hg
    exact ⟨i, Nat.le_refl i, hbatch, h, rfl, rfl⟩
  | cons input rest ih =>
    have hi : i < inputs.length := by
      by_contra hge
      rw [List.drop_of_length_le (by omega)] at hrest
      cases hrest
    rw [List.drop_eq_getElem_cons hi, List.cons.injEq] at hrest
    obtain ⟨rfl, rfl⟩ := hrest
    rw [gather] at hg
    dsimp only at hg
    have hpend := h.pending_length
    split at hg
    · rw [if_neg (by omega), Option.some.injEq] at hg
      subst hg
      exact ⟨i, Nat.le_refl i, hbatch, h, rfl, rfl⟩
    · rename_i hfull
      obtain ⟨n, hn, hle, _, hn'⟩ := gathered_next hi hbatch hfull h
        (fun h₁ hle₁ hg₁ => ih (Nat.succ_pos i) hle₁ h₁ rfl hg₁) hg
      exact ⟨n, hn, hle, hn'⟩

/-- The inputs of the slot of a sequence when its part of the batch is gathered: shifted when there is no room for one
more. -/
def Server.shifted (s : Server σ μ) (seq : Sequence μ) : List (Input μ) :=
  let inputs := (s.cache.slot seq.cache).inputs
  if inputs.length + 1 > s.cache.numCtx then s.cache.cut seq.numKeep inputs else inputs

/-- What the whole loop makes of a sequence with nothing pending. -/
theorem gather_spec {idx : Nat} {s : Server σ μ} {seq : Sequence μ} {slot : InputCacheSlot μ} {options : Options μ}
    {g : Gather σ μ} (hslot : s.cache.slots[seq.cache]? = some slot) (hroom : slot.inputs.length ≤ s.cache.numCtx)
    (hpend : seq.pendingInputs = []) (hne : seq.inputs ≠ []) (hbatch : 1 ≤ s.batchSize)
    (hg : gather K idx s.batchSize seq.inputs.length seq.inputs 0 ⟨s.cache, seq, options, s.nextSeq⟩ = some g) :
    ∃ n, 1 ≤ n ∧ n ≤ s.batchSize ∧ Gathered seq.cache seq.inputs options.rows options.outputs n g ∧ SameSeq seq g.seq ∧
      g.cache.slots = s.cache.slots.set seq.cache { slot with inputs := s.shifted seq } ∧
        g.cache.numCtx = s.cache.numCtx ∧
      g.cache.cache.isSome = s.cache.cache.isSome := by
  have hslot' : s.cache.slot seq.cache = slot := slot_of_getElem? hslot
  have hlen : 0 < seq.inputs.length := List.length_pos_iff.2 hne
  have hstart : ∀ c : InputCache σ μ, (c.slot seq.cache).inputs.length ≤ c.numCtx →
      Gathered seq.cache seq.inputs options.rows options.outputs 0 ⟨c, seq, options, s.nextSeq⟩ := by
    intro c hc
    refine ⟨rfl, rfl, Nat.zero_le _, hpend, (List.append_nil _).symm, ?_, fun h => absurd h (Nat.lt_irrefl 0), hc⟩
    rw [if_neg (Nat.ne_of_lt hlen), List.append_nil]
  -- what follows the first input, once there is room for it
  have hnext : ∀ c : InputCache σ μ, (c.slot seq.cache).inputs.length + 1 ≤ c.numCtx →
      (if 0 ≥ s.batchSize then some (⟨c, seq, options, s.nextSeq⟩ : Gather σ μ)
        else if (⟨c, seq, options, s.nextSeq⟩ : Gather σ μ).breaks seq.inputs[0] then some ⟨c, seq, options, idx⟩
        else gather K idx s.batchSize seq.inputs.length (seq.inputs.drop 1) 1
          ((⟨c, seq, options, s.nextSeq⟩ : Gather σ μ).add seq.inputs.length 0 seq.inputs[0])) = some g →
      ∃ n, 1 ≤ n ∧ n ≤ s.batchSize ∧ Gathered seq.cache seq.inputs options.rows options.outputs n g ∧ g.cache = c ∧
        SameSeq seq g.seq := by
    intro c hc hg
    have hfull : ¬(⟨c, seq, options, s.nextSeq⟩ : Gather σ μ).full := by
      unfold Gather.full
      rw [hpend, List.length_nil]
      exact Nat.not_lt.2 hc
    obtain ⟨n, _, hle, hpos, hn⟩ := gathered_next hlen (Nat.zero_le _) hfull (hstart c (by omega))
      (fun h₁ hle₁ hg₁ => gathered_gather Nat.one_pos hle₁ h₁ hg₁) hg
    exact ⟨n, hpos rfl hbatch, hle, hn⟩
  have hcons : seq.inputs = seq.inputs[0] :: seq.inputs.drop 1 := List.drop_eq_getElem_cons hlen
  have hg' : gather K idx s.batchSize seq.inputs.length (seq.inputs[0] :: seq.inputs.drop 1) 0 ⟨s.cache, seq,
    options, s.nextSeq⟩ = some g := by
    rw [← hcons]
    exact hg
  rw [gather] at hg'
  dsimp only at hg'
  have hfull : (⟨s.cache, seq, options, s.nextSeq⟩ : Gather σ μ).full ↔ slot.inputs.length + 1 > s.cache.numCtx := by
    unfold Gather.full
    rw [hslot', hpend]
    rfl
  split at hg'
  · rename_i hno
    rw [hfull] at hno
    have hshifted : s.shifted seq = s.cache.cut seq.numKeep slot.inputs := by
      unfold Server.shifted
      rw [hslot']
      exact if_pos hno
    rw [if_pos (by rw [hpend]; rfl), Option.bind_eq_some_iff] at hg'
    obtain ⟨c, hc, hg'⟩ := hg'
    have hctx : slot.inputs.length = s.cache.numCtx := by omega
    obtain ⟨hkeep, cache, rfl, hsome, _⟩ := shiftCacheSlot_eq_some hslot' hctx hc
    obtain ⟨hcut, hpos⟩ := length_cut hkeep hctx
    have hself : ({ s.cache.setSlot seq.cache { slot with inputs := s.cache.cut seq.numKeep slot.inputs } with
        cache := cache } : InputCache σ μ).slot seq.cache =
          { slot with inputs := s.cache.cut seq.numKeep slot.inputs } := by
      apply slot_of_getElem?
      exact (slots_setSlot hslot _ _).trans (if_pos rfl)
    obtain ⟨n, h1, h2, h3, hcache, h4⟩ := hnext _ (by
      rw [hself]
      show (s.cache.cut seq.numKeep slot.inputs).length + 1 ≤ s.cache.numCtx
      omega) hg'
    refine ⟨n, h1, h2, h3, h4, ?_, ?_, ?_⟩
    · rw [hcache, hshifted]
      rfl
    · rw [hcache]
      rfl
    · rw [hcache]
      exact hsome
  · rename_i hyes
    rw [hfull] at hyes
    have hshifted : s.shifted seq = slot.inputs := by
      unfold Server.shifted
      rw [hslot']
      exact if_neg hyes
    obtain ⟨n, h1, h2, h3, hcache, h4⟩ := hnext s.cache (by rw [hslot']; omega) hg'
    refine ⟨n, h1, h2, h3, h4, ?_, by rw [hcache], by rw [hcache]⟩
    rw [hcache, hshifted]
    obtain ⟨hi, hget⟩ := List.getElem?_eq_some_iff.1 hslot
    rw [← hget]
    exact (List.set_getElem_self hi).symm

/-! ## What a visit does to the KV cache -/

/-- The sequence at a place has no room for another input: the next batch begins with a shift of its slot. -/
structure Server.Shifts (s : Server σ μ) (i : Nat) (seq : Sequence μ) : Prop where
  live : s.seq i = some seq
  going : ¬seq.limited
  full : (s.cache.slot seq.cache).inputs.length = s.cache.numCtx

/-- The loop over the inputs does not shift where there is room or something is pending. -/
theorem gather_of_room (K : KvCache σ ρ μ) (idx batchSize total : Nat) (rest : List (Input μ)) (i : Nat)
    {g : Gather σ μ} (h : g.seq.pendingInputs ≠ [] ∨ ¬g.full) :
    ∃ g', gather K idx batchSize total rest i g = some g' ∧ g'.cache = g.cache := by
  induction rest generalizing i g with
  | nil => exact ⟨g, rfl, rfl⟩
  | cons input rest ih =>
    rw [gather]
    dsimp only
    split
    · rename_i hfull
      have hne := h.resolve_right (not_not.2 hfull)
      rw [if_neg (fun hzero => hne (List.length_eq_zero_iff.1 hzero))]
      exact ⟨g, rfl, rfl⟩
    · split
      · exact ⟨g, rfl, rfl⟩
      · split
        · exact ⟨_, rfl, rfl⟩
        · have hpend : (g.add total i input).seq.pendingInputs ≠ [] :=
            List.append_ne_nil_of_right_ne_nil _ (List.cons_ne_nil _ _)
          exact ih (i + 1) (.inl hpend)

/-- The loop over the inputs begins with a shift where there is no room. -/
theorem gather_of_full (K : KvCache σ ρ μ) (idx batchSize total : Nat) {rest : List (Input μ)} (hne : rest ≠ [])
    (hfull : g.full) (hpend : g.seq.pendingInputs = []) :
    (g.cache.shiftCacheSlot K g.seq.cache g.seq.numKeep = none ∧ gather K idx batchSize total rest 0 g = none) ∨
    ∃ c g', g.cache.shiftCacheSlot K g.seq.cache g.seq.numKeep = some c ∧
      gather K idx batchSize total rest 0 g = some g' ∧ g'.cache = c := by
  obtain ⟨input, rest, rfl⟩ := List.exists_cons_of_ne_nil hne
  rw [gather]
  dsimp only
  rw [if_pos hfull, if_pos (by rw [hpend]; rfl)]
  rcases hshift : g.cache.shiftCacheSlot K g.seq.cache g.seq.numKeep with _ | c
  · exact .inl ⟨rfl, rfl⟩
  · refine .inr ⟨c, ?_⟩
    rw [Option.bind_some]
    split
    · exact ⟨_, rfl, rfl, rfl⟩
    · split
      · exact ⟨_, rfl, rfl, rfl⟩
      · have hpending : ({ g with cache := c }.add total 0 input).seq.pendingInputs ≠ [] :=
          List.append_ne_nil_of_right_ne_nil _ (List.cons_ne_nil _ _)
        obtain ⟨g', hg', hcache⟩ := gather_of_room K idx batchSize total rest 1 (.inl hpending)
        exact ⟨g', rfl, hg', hcache⟩

/-- What the shift of a slot makes of the KV cache, and whether it fails. -/
def Server.shiftKv (K : KvCache σ ρ μ) (s : Server σ μ) (seq : Sequence μ) (kv : σ) : σ × Bool :=
  K.remove seq.cache seq.numKeep (seq.numKeep + s.cache.discard seq.numKeep) kv

/-- A visit of the sequence at a place leaves the other sequences and their slots alone, and the KV cache too unless
it shifts the slot of the sequence. -/
structure Visit (K : KvCache σ ρ μ) (idx : Nat) (kv : σ) (s s' : Server σ μ) : Prop where
  seqs : ∀ j, j ≠ idx → s'.seq j = s.seq j
  slots : ∀ j seq, j ≠ idx → s.seq j = some seq → s'.cache.slots[seq.cache]? = s.cache.slots[seq.cache]?
  numCtx : s'.cache.numCtx = s.cache.numCtx
  count : s'.cache.slots.length = s.cache.slots.length
  policy : s'.cache.multiUserCache = s.cache.multiUserCache
  kv : ((∀ seq, ¬s.Shifts idx seq) ∧ s'.cache.cache = some kv) ∨
    ∃ seq, s.Shifts idx seq ∧ (s.shiftKv K seq kv).2 = false ∧ s'.cache.cache = some (s.shiftKv K seq kv).1

/-- A visit fails when it shifts a slot and the removal fails. -/
theorem gatherSeq_visit {env : Env} {s : Server σ μ} {idx : Nat} {kv : σ} {options : Options μ} (hplaced : Placed s)
    (hkv : s.cache.cache = some kv) (hpend : ∀ seq, s.seq idx = some seq → seq.pendingInputs = [])
    (hinputs : ∀ seq, s.seq idx = some seq → seq.inputs ≠ [])
    (hkeeps : ∀ seq, s.seq idx = some seq → seq.numKeep < s.cache.numCtx) :
    (∃ seq, s.Shifts idx seq ∧ (s.shiftKv K seq kv).2 = true ∧ gatherSeq K env idx s options = none) ∨
    ∃ s' options', gatherSeq K env idx s options = some (s', options') ∧ Visit K idx kv s s' := by
  unfold gatherSeq
  split
  · rename_i hs
    refine .inr ⟨s, options, rfl, fun _ _ => rfl, fun _ _ _ _ => rfl, rfl, rfl, rfl, .inl ⟨fun seq hshifts => ?_, hkv⟩⟩
    exact absurd (hs.symm.trans hshifts.live) nofun
  · rename_i seq hs
    have hi := seq_lt hs
    obtain ⟨slot, hslot, _, hroom⟩ := hplaced.live idx seq hs
    have hslot' : s.cache.slot seq.cache = slot := slot_of_getElem? hslot
    have hsame : ∀ {seq'}, s.Shifts idx seq' → seq' = seq := fun h => (Option.some.inj (hs.symm.trans h.live)).symm
    have hother : ∀ j seq', j ≠ idx → s.seq j = some seq' → seq'.cache ≠ seq.cache :=
      fun j seq' hne hj heq => hne (hplaced.distinct j idx seq' seq hj hs heq)
    split
    · rename_i hlimit
      refine .inr ⟨_, options, rfl, fun j hj => (seq_setSeq s hi none j).trans (if_neg hj),
        fun j seq' hne hj => ?_, rfl, List.length_set, rfl, .inl ⟨fun seq' hshifts => ?_, hkv⟩⟩
      · exact (slots_setSlot hslot _ _).trans (if_neg (hother j seq' hne hj))
      · exact hshifts.going (hsame hshifts ▸ hlimit)
    · rename_i hlimit
      have henabled : s.cache.cache.isNone = false := by rw [hkv]; rfl
      simp only [henabled, Bool.false_eq_true, if_false]
      generalize hstart : (⟨s.cache, seq, options, s.nextSeq⟩ : Gather σ μ) = g₀
      have hcache₀ : g₀.cache = s.cache := by rw [← hstart]
      have hseq₀ : g₀.seq = seq := by rw [← hstart]
      have hnil := hpend seq hs
      rw [hnil, List.length_nil, Nat.add_zero] at hroom
      have hfull : g₀.full ↔ slot.inputs.length = s.cache.numCtx := by
        unfold Gather.full
        rw [hcache₀, hseq₀, hslot', hnil, List.length_nil]
        omega
      by_cases hlen : slot.inputs.length = s.cache.numCtx
      · have hshifts : s.Shifts idx seq := ⟨hs, hlimit, hslot'.symm ▸ hlen⟩
        have hcases := gather_of_full K idx s.batchSize seq.inputs.length (hinputs seq hs) (hfull.2 hlen) (hseq₀ ▸ hnil)
        have hshift := shiftCacheSlot_full (K := K) hslot' (hkeeps seq hs) hlen
        rw [hkv] at hshift
        dsimp only at hshift
        rw [hcache₀, hseq₀, hshift] at hcases
        rcases hcases with ⟨hfail, hnone⟩ | ⟨c, g', hok, hg', hcache⟩
        · refine .inl ⟨seq, hshifts, ?_, by rw [hnone]; rfl⟩
          unfold Server.shiftKv
          by_contra hno
          rw [if_neg hno] at hfail
          nomatch hfail
        · rw [hg', Option.map_some]
          split at hok
          · nomatch hok
          · rename_i hno
            rw [Bool.not_eq_true] at hno
            rw [← Option.some.inj hok] at hcache
            refine .inr ⟨_, _, rfl, fun j hj => (seq_setSeq s hi _ j).trans (if_neg hj), fun j seq' hne hj => ?_,
              ?_, ?_, ?_, .inr ⟨seq, hshifts, hno, ?_⟩⟩
            · show g'.cache.slots[seq'.cache]? = _
              rw [hcache]
              exact (slots_setSlot hslot _ _).trans (if_neg (hother j seq' hne hj))
            · show g'.cache.numCtx = _
              rw [hcache]
              rfl
            · show g'.cache.slots.length = _
              rw [hcache]
              exact List.length_set
            · show g'.cache.multiUserCache = _
              rw [hcache]
              rfl
            · show g'.cache.cache = _
              rw [hcache]
              rfl
      · obtain ⟨g', hg', hcache⟩ :=
          gather_of_room K idx s.batchSize seq.inputs.length seq.inputs 0 (.inr (mt hfull.1 hlen))
        rw [hg', Option.map_some]
        rw [hcache₀] at hcache
        refine .inr ⟨_, _, rfl, fun j hj => (seq_setSeq s hi _ j).trans (if_neg hj), fun j seq' _ _ => ?_, ?_, ?_, ?_,
          .inl ⟨fun seq' hshifts => ?_, ?_⟩⟩
        · show g'.cache.slots[seq'.cache]? = _
          rw [hcache]
        · show g'.cache.numCtx = _
          rw [hcache]
        · show g'.cache.slots.length = _
          rw [hcache]
        · show g'.cache.multiUserCache = _
          rw [hcache]
        · rw [hsame hshifts] at hshifts
          exact hlen (hslot' ▸ hshifts.full)
        · show g'.cache.cache = _
          rw [hcache]
          exact hkv

end Ollama.Runner
