import Ollama.Runner.Server
import Ollama.Runner.Lemmas.Load
import Ollama.Runner.Lemmas.Stop
import Mathlib.Data.Nat.ModEq

/-!
# The invariant of the server

Between two sections of the server that hold its mutex, every sequence has a slot of its own that is in use, and the
KV cache holds the inputs of every slot, and nothing more for those in use. While a batch is gathered the elements of
the batch for a slot are the pending inputs of its sequence (`Gathering`); once the forward pass is done the KV cache
holds the pending inputs too (`Computing`).
-/

namespace Ollama.Runner

open Kvcache (maxInt32)

variable {σ ρ μ : Type} {K : KvCache σ ρ μ}

/-! ## Places -/

theorem seq_lt {s : Server σ μ} {i : Nat} {seq : Sequence μ} (h : s.seq i = some seq) : i < s.seqs.length := by
  unfold Server.seq at h
  by_contra hge
  rw [List.getElem?_eq_none (by omega)] at h
  nomatch h

theorem seq_setSeq (s : Server σ μ) {i : Nat} (hi : i < s.seqs.length) (v : Option (Sequence μ)) (j : Nat) :
    (s.setSeq i v).seq j = if j = i then v else s.seq j := by
  unfold Server.setSeq Server.seq
  by_cases hj : j = i
  · subst hj
    simp [hi]
  · simp [hj, List.getElem?_set_ne (Ne.symm hj)]

theorem slots_setSlot {c : InputCache σ μ} {i : Nat} {s : InputCacheSlot μ} (hs : c.slots[i]? = some s)
    (v : InputCacheSlot μ) (j : Nat) : (c.setSlot i v).slots[j]? = if j = i then some v else c.slots[j]? := by
  unfold InputCache.setSlot
  by_cases hj : j = i
  · subst hj
    simp [(List.getElem?_eq_some_iff.1 hs).1]
  · simp [hj, List.getElem?_set_ne (Ne.symm hj)]

/-! ## The invariant -/

/-- No slot has more inputs than the context has room for, and every sequence has a slot of its own, in use, with room
for its pending inputs. -/
structure Placed (s : Server σ μ) : Prop where
  ctx : 1 ≤ s.cache.numCtx
  small : (s.cache.numCtx : Int) ≤ maxInt32
  room : ∀ (id : Nat) (slot : InputCacheSlot μ), s.cache.slots[id]? = some slot → slot.inputs.length ≤ s.cache.numCtx
  live : ∀ i seq, s.seq i = some seq → ∃ slot, s.cache.slots[seq.cache]? = some slot ∧ slot.inUse = true ∧
    slot.inputs.length + seq.pendingInputs.length ≤ s.cache.numCtx
  distinct : ∀ i j seq seq', s.seq i = some seq → s.seq j = some seq' → seq.cache = seq'.cache → i = j

/-- The inputs of a slot have positions the KV cache can have. -/
theorem Placed.slots_small {s : Server σ μ} (h : Placed s) (id : Nat) (slot : InputCacheSlot μ)
    (hslot : s.cache.slots[id]? = some slot) : (slot.inputs.length : Int) ≤ maxInt32 := by
  have h1 := h.room id slot hslot
  have h2 := h.small
  omega

/-- While a batch is gathered: the KV cache holds the inputs of the slots, and the batch has the pending inputs. -/
structure Gathering (K : KvCache σ ρ μ) (s : Server σ μ) (batch : List (BatchRow μ)) : Prop where
  placed : Placed s
  holds : CacheHolds K s.cache
  ends : ∀ kv, s.cache.cache = some kv → ∀ i seq slot, s.seq i = some seq → s.cache.slots[seq.cache]? = some slot →
    EndsAt K kv seq.cache slot.inputs.length
  pending : ∀ i seq slot, s.seq i = some seq → s.cache.slots[seq.cache]? = some slot →
    batch.filter (fun x => x.seq = seq.cache) = pendingRows seq.cache slot.inputs.length seq.pendingInputs
  idle : ∀ id, (∀ i seq, s.seq i = some seq → seq.cache ≠ id) → batch.filter (fun x => x.seq = id) = []

/-- After the forward pass: the KV cache holds the pending inputs too. -/
structure Computing (K : KvCache σ ρ μ) (s : Server σ μ) : Prop where
  placed : Placed s
  holds : CacheHolds K s.cache
  pending : ∀ kv, s.cache.cache = some kv → ∀ i seq slot, s.seq i = some seq → s.cache.slots[seq.cache]? = some slot →
    HoldsInputs K kv seq.cache (slot.inputs ++ seq.pendingInputs) ∧
      EndsAt K kv seq.cache (slot.inputs ++ seq.pendingInputs).length

/-- The invariant of the server between two sections: nothing is gathered. -/
def ServerInv (K : KvCache σ ρ μ) (s : Server σ μ) : Prop := Gathering K s []

theorem Gathering.pending_nil {s : Server σ μ} (h : Gathering K s []) {i : Nat} {seq : Sequence μ}
    (hs : s.seq i = some seq) :
    seq.pendingInputs = [] := by
  obtain ⟨slot, hslot, _⟩ := h.placed.live i seq hs
  exact pendingRows_eq_nil_iff.1 (h.pending i seq slot hs hslot).symm

/-! ## Working on one sequence -/

/-- A step that works on one sequence: the sequence `seq` at place `i` becomes `v`, its slot becomes `slot'`, and the
KV cache holds for other slots what it held. -/
structure Touches (K : KvCache σ ρ μ) (s s' : Server σ μ) (i : Nat) (seq : Sequence μ) (v : Option (Sequence μ))
    (slot' : InputCacheSlot μ) : Prop where
  live : s.seq i = some seq
  seqs : ∀ j, s'.seq j = if j = i then v else s.seq j
  same : ∀ seq', v = some seq' → seq'.cache = seq.cache
  slot : s'.cache.slots[seq.cache]? = some slot'
  slots : ∀ j, j ≠ seq.cache → s'.cache.slots[j]? = s.cache.slots[j]?
  numCtx : s'.cache.numCtx = s.cache.numCtx
  kv : ∀ kv', s'.cache.cache = some kv' → ∃ kv, s.cache.cache = some kv ∧
    ∀ j, j ≠ seq.cache → ∀ p, K.entries kv' j p = K.entries kv j p

/-- What the context needs of a slot, and the new sequence of its slot. -/
def Fits (numCtx : Nat) (v : Option (Sequence μ)) (slot' : InputCacheSlot μ) : Prop :=
  slot'.inputs.length ≤ numCtx ∧ ∀ seq', v = some seq' → slot'.inUse = true ∧
    slot'.inputs.length + seq'.pendingInputs.length ≤ numCtx

namespace Touches

variable {s s' : Server σ μ} {i : Nat} {seq : Sequence μ} {v : Option (Sequence μ)} {slot' : InputCacheSlot μ}

/-- The other sequences are as they were, and have other slots. -/
theorem other (t : Touches K s s' i seq v slot') (h : Placed s) {j : Nat} {seq' : Sequence μ}
    (hj : s'.seq j = some seq') :
    (j = i ∧ v = some seq') ∨ (s.seq j = some seq' ∧ seq'.cache ≠ seq.cache) := by
  rw [t.seqs] at hj
  split at hj
  · rename_i hji
    exact Or.inl ⟨hji, hj⟩
  · rename_i hne
    exact Or.inr ⟨hj, fun heq => hne (h.distinct j i seq' seq hj t.live heq)⟩

theorem placed (t : Touches K s s' i seq v slot') (h : Placed s) (hfit : Fits s.cache.numCtx v slot') : Placed s' := by
  refine ⟨t.numCtx ▸ h.ctx, t.numCtx ▸ h.small, fun id slot hslot => ?_, fun j seq' hj => ?_,
    fun j k a b hj hk heq => ?_⟩
  · rw [t.numCtx]
    by_cases hid : id = seq.cache
    · subst hid
      rw [t.slot, Option.some.injEq] at hslot
      exact hslot ▸ hfit.1
    · rw [t.slots id hid] at hslot
      exact h.room id slot hslot
  · rcases t.other h hj with ⟨rfl, hv⟩ | ⟨hj', hne⟩
    · rw [t.same seq' hv, t.numCtx]
      exact ⟨slot', t.slot, hfit.2 seq' hv⟩
    · rw [t.slots _ hne, t.numCtx]
      exact h.live j seq' hj'
  · rcases t.other h hj with ⟨rfl, hv⟩ | ⟨hj', hne⟩ <;> rcases t.other h hk with ⟨rfl, hv'⟩ | ⟨hk', hne'⟩
    · rfl
    · exact absurd (heq ▸ t.same a hv) hne'
    · exact absurd (heq.symm ▸ t.same b hv') hne
    · exact h.distinct j k a b hj' hk' heq

/-- The KV cache holds the inputs of the other slots. -/
theorem holds (t : Touches K s s' i seq v slot') (h : CacheHolds K s.cache)
    (hself : ∀ kv', s'.cache.cache = some kv' → HoldsInputs K kv' seq.cache slot'.inputs) : CacheHolds K s'.cache := by
  intro kv' hkv' id slot hslot
  by_cases hid : id = seq.cache
  · subst hid
    rw [t.slot, Option.some.injEq] at hslot
    subst hslot
    exact hself kv' hkv'
  · obtain ⟨kv, hkv, hothers⟩ := t.kv kv' hkv'
    rw [t.slots id hid] at hslot
    exact (h kv hkv id slot hslot).congr (fun k _ => hothers id hid k)

/-- A step of gathering a batch. -/
theorem gathering (t : Touches K s s' i seq v slot') {batch batch' : List (BatchRow μ)} (h : Gathering K s batch)
    (hfit : Fits s.cache.numCtx v slot')
    (hself : ∀ kv', s'.cache.cache = some kv' → HoldsInputs K kv' seq.cache slot'.inputs)
    (hends : v ≠ none → ∀ kv', s'.cache.cache = some kv' → EndsAt K kv' seq.cache slot'.inputs.length)
    (hothers : ∀ id, id ≠ seq.cache → batch'.filter (fun x => x.seq = id) = batch.filter (fun x => x.seq = id))
    (hpending : batch'.filter (fun x => x.seq = seq.cache) =
      pendingRows seq.cache slot'.inputs.length (v.elim [] Sequence.pendingInputs)) : Gathering K s' batch' := by
  refine ⟨t.placed h.placed hfit, t.holds h.holds hself, fun kv' hkv' j seq' slot hj hslot => ?_,
    fun j seq' slot hj hslot => ?_, fun id hid => ?_⟩
  · rcases t.other h.placed hj with ⟨rfl, hv⟩ | ⟨hj', hne⟩
    · rw [t.same seq' hv] at hslot ⊢
      rw [t.slot, Option.some.injEq] at hslot
      subst hslot
      exact hends (by rw [hv]; nofun) kv' hkv'
    · obtain ⟨kv, hkv, hkvs⟩ := t.kv kv' hkv'
      rw [t.slots _ hne] at hslot
      intro p hp
      rw [hkvs _ hne]
      exact h.ends kv hkv j seq' slot hj' hslot p hp
  · rcases t.other h.placed hj with ⟨rfl, hv⟩ | ⟨hj', hne⟩
    · rw [t.same seq' hv] at hslot ⊢
      rw [t.slot, Option.some.injEq] at hslot
      subst hslot
      rw [hpending, hv]
      rfl
    · rw [t.slots _ hne] at hslot
      rw [hothers _ hne]
      exact h.pending j seq' slot hj' hslot
  · by_cases heq : id = seq.cache
    · subst heq
      cases v with
      | none => exact hpending
      | some seq' =>
        refine absurd (t.same seq' rfl) (hid i seq' ?_)
        rw [t.seqs, if_pos rfl]
    · rw [hothers id heq]
      refine h.idle id (fun j seq' hj => ?_)
      by_cases hji : j = i
      · subst hji
        rw [t.live, Option.some.injEq] at hj
        subst hj
        exact fun h' => heq h'.symm
      · exact hid j seq' (by rw [t.seqs, if_neg hji]; exact hj)

/-- A step after the forward pass. -/
theorem computing (t : Touches K s s' i seq v slot') (h : Computing K s) (hfit : Fits s.cache.numCtx v slot')
    (hself : ∀ kv', s'.cache.cache = some kv' → HoldsInputs K kv' seq.cache slot'.inputs)
    (hpending : ∀ seq', v = some seq' → ∀ kv', s'.cache.cache = some kv' →
      HoldsInputs K kv' seq.cache (slot'.inputs ++ seq'.pendingInputs) ∧
        EndsAt K kv' seq.cache (slot'.inputs ++ seq'.pendingInputs).length) : Computing K s' := by
  refine ⟨t.placed h.placed hfit, t.holds h.holds hself, fun kv' hkv' j seq' slot hj hslot => ?_⟩
  rcases t.other h.placed hj with ⟨rfl, hv⟩ | ⟨hj', hne⟩
  · rw [t.same seq' hv] at hslot ⊢
    rw [t.slot, Option.some.injEq] at hslot
    subst hslot
    exact hpending seq' hv kv' hkv'
  · obtain ⟨kv, hkv, hkvs⟩ := t.kv kv' hkv'
    rw [t.slots _ hne] at hslot
    obtain ⟨h1, h2⟩ := h.pending kv hkv j seq' slot hj' hslot
    refine ⟨h1.congr (fun k _ => hkvs _ hne k), fun p hp => ?_⟩
    rw [hkvs _ hne]
    exact h2 p hp

end Touches

/-! ## Gathering a batch -/

/-- The server with the variables of the loop over the inputs of the sequence at place `idx`. -/
def Server.withGather (s : Server σ μ) (idx : Nat) (g : Gather σ μ) : Server σ μ :=
  { s.setSeq idx (some g.seq) with cache := g.cache, nextSeq := g.nextSeq }

theorem seq_withGather (s : Server σ μ) {idx : Nat} (hi : idx < s.seqs.length) (g : Gather σ μ) (j : Nat) :
    (s.withGather idx g).seq j = if j = idx then some g.seq else s.seq j := seq_setSeq s hi (some g.seq) j

/-- A turn of the loop works on the sequence at its place. -/
theorem touches_withGather {s : Server σ μ} {idx : Nat} (hi : idx < s.seqs.length) {g g' : Gather σ μ}
    {slot' : InputCacheSlot μ} (hsame : g'.seq.cache = g.seq.cache) (hslot : g'.cache.slots[g.seq.cache]? = some slot')
    (hslots : ∀ j, j ≠ g.seq.cache → g'.cache.slots[j]? = g.cache.slots[j]?) (hctx : g'.cache.numCtx = g.cache.numCtx)
    (hkv : ∀ kv', g'.cache.cache = some kv' → ∃ kv, g.cache.cache = some kv ∧
      ∀ j, j ≠ g.seq.cache → ∀ p, K.entries kv' j p = K.entries kv j p) :
    Touches K (s.withGather idx g) (s.withGather idx g') idx g.seq (some g'.seq) slot' where
  live := by rw [seq_withGather s hi, if_pos rfl]
  seqs j := by
    rw [seq_withGather s hi, seq_withGather s hi]
    split <;> rfl
  same seq' h := by
    simp only [Option.some.injEq] at h
    exact h ▸ hsame
  slot := hslot
  slots := hslots
  numCtx := hctx
  kv := hkv

/-- An input is added to the batch, where it fits. -/
theorem gathering_add {s : Server σ μ} {idx : Nat} (hi : idx < s.seqs.length) {g : Gather σ μ}
    (h : Gathering K (s.withGather idx g) g.options.rows) (hfull : ¬g.full) (total i : Nat) (input : Input μ) :
    Gathering K (s.withGather idx (g.add total i input)) (g.add total i input).options.rows := by
  have hlive : (s.withGather idx g).seq idx = some g.seq := by rw [seq_withGather s hi, if_pos rfl]
  obtain ⟨slot, hslot, huse, _⟩ := h.placed.live idx g.seq hlive
  have hslot' : g.cache.slot g.seq.cache = slot := slot_of_getElem? hslot
  unfold Gather.full at hfull
  rw [hslot'] at hfull
  have t : Touches K (s.withGather idx g) (s.withGather idx (g.add total i input)) idx g.seq
      (some (g.add total i input).seq) slot :=
    touches_withGather hi rfl hslot (fun _ _ => rfl) rfl (fun kv hkv => ⟨kv, hkv, fun _ _ _ => rfl⟩)
  refine t.gathering h ⟨h.placed.room _ slot hslot, fun seq' hv => ?_⟩ (fun kv hkv => h.holds kv hkv _ slot hslot)
    (fun _ kv hkv => h.ends kv hkv idx g.seq slot hlive hslot) (fun id hid => ?_) ?_
  · simp only [Option.some.injEq] at hv
    subst hv
    refine ⟨huse, ?_⟩
    simp only [Gather.add, List.length_append, List.length_singleton]
    show slot.inputs.length + (g.seq.pendingInputs.length + 1) ≤ g.cache.numCtx
    omega
  · simp only [Gather.add, List.filter_append]
    rw [List.filter_cons_of_neg (by simpa using Ne.symm hid), List.filter_nil, List.append_nil]
  · simp only [Gather.add, List.filter_append, Option.elim_some]
    rw [h.pending idx g.seq slot hlive hslot, pendingRows_concat, List.filter_cons_of_pos (by simp),
      List.filter_nil, hslot']

/-- How much a full slot gives up: something, and what is kept stays. -/
theorem shiftDiscard_full {c : InputCache σ μ} {numKeep : Nat} (hkeep : numKeep < c.numCtx) :
    0 < (c.shiftDiscard c.numCtx numKeep).toNat ∧ numKeep + (c.shiftDiscard c.numCtx numKeep).toNat ≤ c.numCtx := by
  unfold InputCache.shiftDiscard
  rw [Int.tdiv_eq_ediv_of_nonneg (by omega)]
  simp only [Int.sub_self, Int.sub_zero]
  split <;> omega

/-- What a full slot gives up at a shift that keeps `numKeep` inputs. -/
def InputCache.discard (c : InputCache σ μ) (numKeep : Nat) : Nat := (c.shiftDiscard c.numCtx numKeep).toNat

/-- The inputs a full slot is left with. -/
def InputCache.cut (c : InputCache σ μ) (numKeep : Nat) (inputs : List (Input μ)) : List (Input μ) :=
  inputs.take numKeep ++ inputs.drop (numKeep + c.discard numKeep)

theorem length_cut {c : InputCache σ μ} {numKeep : Nat} {inputs : List (Input μ)} (hkeep : numKeep < c.numCtx)
    (hlen : inputs.length = c.numCtx) :
    (c.cut numKeep inputs).length = c.numCtx - c.discard numKeep ∧ 0 < c.discard numKeep := by
  obtain ⟨hpos, hle⟩ := shiftDiscard_full hkeep
  unfold InputCache.cut InputCache.discard
  simp only [List.length_append, List.length_take, List.length_drop]
  omega

/-- A shift of a full slot. -/
theorem shiftCacheSlot_full {c : InputCache σ μ} {i numKeep : Nat} {slot : InputCacheSlot μ} (hslot : c.slot i = slot)
    (hkeep : numKeep < c.numCtx) (hlen : slot.inputs.length = c.numCtx) :
    c.shiftCacheSlot K i numKeep =
      let shift (cache : Option σ) : InputCache σ μ :=
        { c.setSlot i { slot with inputs := c.cut numKeep slot.inputs } with cache := cache }
      match c.cache with
      | none => some (shift none)
      | some kv =>
        let out := K.remove i numKeep (numKeep + c.discard numKeep) kv
        if out.2 then none else some (shift (some out.1)) := by
  obtain ⟨hpos, hle⟩ := shiftDiscard_full hkeep
  have hcut := (length_cut hkeep hlen).1
  unfold InputCache.cut InputCache.discard at *
  simp only [InputCache.shiftCacheSlot, hslot, hlen]
  rw [if_neg (by omega), if_neg (by omega), if_neg (by omega), ← hcut, List.take_length]
  have hfits := Nat.not_lt.2 (Nat.le_trans (Nat.le_add_left _ numKeep) hle)
  cases c.cache with
  | none => rfl
  | some kv => exact if_congr Iff.rfl rfl (if_neg hfits)

/-- A shift that succeeds is of what is to be kept, and leaves the slot with less. -/
theorem shiftCacheSlot_eq_some {c c' : InputCache σ μ} {i numKeep : Nat} {slot : InputCacheSlot μ}
    (hslot : c.slot i = slot) (hlen : slot.inputs.length = c.numCtx) (h : c.shiftCacheSlot K i numKeep = some c') :
    numKeep < c.numCtx ∧ ∃ cache, c' = { c.setSlot i { slot with inputs := c.cut numKeep slot.inputs } with
      cache := cache } ∧ cache.isSome = c.cache.isSome ∧ ∀ kv', cache = some kv' → ∃ kv, c.cache = some kv ∧
        (K.remove i numKeep (numKeep + c.discard numKeep) kv).2 = false ∧
        kv' = (K.remove i numKeep (numKeep + c.discard numKeep) kv).1 := by
  have hkeep : numKeep < c.numCtx := by
    by_contra hge
    rw [InputCache.shiftCacheSlot, if_pos (by omega)] at h
    nomatch h
  rw [shiftCacheSlot_full hslot hkeep hlen] at h
  refine ⟨hkeep, ?_⟩
  dsimp only at h
  split at h
  · rename_i hnone
    exact ⟨none, (Option.some.inj h).symm, by rw [hnone], nofun⟩
  · rename_i kv hkv
    split at h
    · nomatch h
    · rename_i hok
      rw [Bool.not_eq_true] at hok
      exact ⟨_, (Option.some.inj h).symm, by rw [hkv]; rfl, fun kv' h' => ⟨kv, hkv, hok, (Option.some.inj h').symm⟩⟩

/-- A context shift, and the room it makes. -/
theorem gathering_shift {s : Server σ μ} {idx : Nat} (hi : idx < s.seqs.length) {g : Gather σ μ} {c : InputCache σ μ}
    (h : Gathering K (s.withGather idx g) g.options.rows) (hfull : g.full) (hpend : g.seq.pendingInputs.length = 0)
    (hc : g.cache.shiftCacheSlot K g.seq.cache g.seq.numKeep = some c) :
    Gathering K (s.withGather idx { g with cache := c }) g.options.rows ∧ ¬{ g with cache := c }.full := by
  have hlive : (s.withGather idx g).seq idx = some g.seq := by rw [seq_withGather s hi, if_pos rfl]
  obtain ⟨slot, hslot, huse, hroom⟩ := h.placed.live idx g.seq hlive
  have hslot₀ : g.cache.slots[g.seq.cache]? = some slot := hslot
  have hslot' : g.cache.slot g.seq.cache = slot := slot_of_getElem? hslot
  have hsmall : (g.cache.numCtx : Int) ≤ maxInt32 := h.placed.small
  have hnil : g.seq.pendingInputs = [] := List.length_eq_zero_iff.1 hpend
  have hroom' : slot.inputs.length + g.seq.pendingInputs.length ≤ g.cache.numCtx := hroom
  unfold Gather.full at hfull
  rw [hslot', hpend] at hfull
  have hlen : slot.inputs.length = g.cache.numCtx := by omega
  obtain ⟨hkeep, cache, hcache, _, hkv⟩ := shiftCacheSlot_eq_some hslot' hlen hc
  have hdiscard : g.seq.numKeep + g.cache.discard g.seq.numKeep ≤ g.cache.numCtx := (shiftDiscard_full hkeep).2
  obtain ⟨hinslen, hpos⟩ := length_cut hkeep hlen
  generalize hins : g.cache.cut g.seq.numKeep slot.inputs = ins at hcache hinslen
  have hget : ∀ j, c.slots[j]? = if j = g.seq.cache then some { slot with inputs := ins } else g.cache.slots[j]? := by
    intro j
    rw [hcache]
    exact slots_setSlot hslot₀ _ j
  have hself : c.slots[g.seq.cache]? = some { slot with inputs := ins } := by rw [hget, if_pos rfl]
  have hctx : c.numCtx = g.cache.numCtx := by
    rw [hcache]
    rfl
  have hkvs : ∀ kv', c.cache = some kv' → ∃ kv, g.cache.cache = some kv ∧
      (K.remove g.seq.cache g.seq.numKeep (g.seq.numKeep + g.cache.discard g.seq.numKeep) kv).2 = false ∧
      kv' = (K.remove g.seq.cache g.seq.numKeep (g.seq.numKeep + g.cache.discard g.seq.numKeep) kv).1 := by
    intro kv' hkv'
    rw [hcache] at hkv'
    exact hkv kv' hkv'
  have t : Touches K (s.withGather idx g) (s.withGather idx { g with cache := c }) idx g.seq (some g.seq)
      { slot with inputs := ins } :=
    touches_withGather hi rfl hself (fun j hj => by rw [hget, if_neg hj]) hctx (fun kv' hkv' => by
      obtain ⟨kv, h1, _, rfl⟩ := hkvs kv' hkv'
      exact ⟨kv, h1, fun j hj p => K.remove_others j hj p⟩)
  -- what the KV cache holds after the removal
  have hshift : ∀ kv', c.cache = some kv' → HoldsInputs K kv' g.seq.cache ins ∧
    EndsAt K kv' g.seq.cache ins.length := by
    intro kv' hkv'
    obtain ⟨kv, h1, hok, rfl⟩ := hkvs kv' hkv'
    obtain ⟨h1, h2⟩ := (h.holds kv h1 _ slot hslot).shift (h.ends kv h1 idx g.seq slot hlive hslot)
      (hlen.symm ▸ hdiscard) (hlen.symm ▸ hsmall) hok
    have hcut : slot.inputs.take g.seq.numKeep ++ slot.inputs.drop (g.seq.numKeep + g.cache.discard g.seq.numKeep) =
      ins := hins
    rw [hcut] at h1
    refine ⟨h1, ?_⟩
    rw [hinslen, ← hlen]
    exact h2
  have hinsle : ins.length ≤ g.cache.numCtx := hinslen ▸ Nat.sub_le _ _
  refine ⟨t.gathering h ⟨hinsle, fun seq' hv => ?_⟩ (fun kv' hkv' => (hshift kv' hkv').1)
    (fun _ kv' hkv' => (hshift kv' hkv').2) (fun _ _ => rfl) ?_, ?_⟩
  · rw [Option.some.injEq] at hv
    subst hv
    refine ⟨huse, ?_⟩
    show ins.length + g.seq.pendingInputs.length ≤ g.cache.numCtx
    omega
  · rw [h.pending idx g.seq slot hlive hslot, Option.elim_some, hnil]
    rfl
  · unfold Gather.full
    simp only [slot_of_getElem? hself, hctx, hpend, hinslen]
    omega

/-- The loop over the inputs of a sequence. -/
theorem gathering_gather {s : Server σ μ} {idx batchSize total : Nat} (hi : idx < s.seqs.length)
    {inputs : List (Input μ)} {i : Nat} {g g' : Gather σ μ} (h : Gathering K (s.withGather idx g) g.options.rows)
    (hg : gather K idx batchSize total inputs i g = some g') : Gathering K (s.withGather idx g') g'.options.rows := by
  induction inputs generalizing i g with
  | nil =>
    simp only [gather, Option.some.injEq] at hg
    exact hg ▸ h
  | cons input rest ih =>
    simp only [gather] at hg
    -- what follows once there is room
    have next : ∀ g₁ : Gather σ μ, Gathering K (s.withGather idx g₁) g₁.options.rows → ¬g₁.full →
        (if i ≥ batchSize then some g₁
          else if g₁.breaks input then some { g₁ with nextSeq := idx }
          else gather K idx batchSize total rest (i + 1) (g₁.add total i input)) = some g' →
        Gathering K (s.withGather idx g') g'.options.rows := by
      intro g₁ h₁ hfull hg₁
      split at hg₁
      · simp only [Option.some.injEq] at hg₁
        exact hg₁ ▸ h₁
      · split at hg₁
        · simp only [Option.some.injEq] at hg₁
          subst hg₁
          exact ⟨⟨h₁.placed.ctx, h₁.placed.small, h₁.placed.room, h₁.placed.live, h₁.placed.distinct⟩,
            h₁.holds, h₁.ends, h₁.pending, h₁.idle⟩
        · exact ih (gathering_add hi h₁ hfull total i input) hg₁
    split at hg
    · rename_i hfull
      split at hg
      · rename_i hpend
        rw [Option.bind_eq_some_iff] at hg
        obtain ⟨c, hc, hg⟩ := hg
        obtain ⟨h₁, hfull₁⟩ := gathering_shift hi h hfull hpend hc
        exact next _ h₁ hfull₁ hg
      · simp only [Option.some.injEq] at hg
        exact hg ▸ h
    · rename_i hfull
      exact next g h hfull hg

/-- The sequence at a place changed in what no invariant is about. -/
theorem Gathering.setInputs {s : Server σ μ} {batch : List (BatchRow μ)} (h : Gathering K s batch) {idx : Nat}
    {seq : Sequence μ} (hs : s.seq idx = some seq) (seq' : Sequence μ) (hcache : seq'.cache = seq.cache)
    (hpend : seq'.pendingInputs = seq.pendingInputs) : Gathering K (s.setSeq idx (some seq')) batch := by
  have hi := seq_lt hs
  obtain ⟨slot, hslot, huse, hroom⟩ := h.placed.live idx seq hs
  have t : Touches K s (s.setSeq idx (some seq')) idx seq (some seq') slot :=
    { live := hs
      seqs := seq_setSeq s hi (some seq')
      same := fun seq'' h'' => by
        simp only [Option.some.injEq] at h''
        exact h'' ▸ hcache
      slot := hslot
      slots := fun _ _ => rfl
      numCtx := rfl
      kv := fun kv hkv => ⟨kv, hkv, fun _ _ _ => rfl⟩ }
  refine t.gathering h ⟨h.placed.room _ slot hslot, fun seq'' hv => ?_⟩ (fun kv hkv => h.holds kv hkv _ slot hslot)
    (fun _ kv hkv => h.ends kv hkv idx seq slot hs hslot) (fun _ _ => rfl) ?_
  · simp only [Option.some.injEq] at hv
    subst hv
    exact ⟨huse, hpend ▸ hroom⟩
  · rw [h.pending idx seq slot hs hslot, Option.elim_some, hpend]

/-- What `removeSequence` touches. -/
theorem touches_removeSequence {s : Server σ μ} (env : Env) {i : Nat} {seq seq' : Sequence μ} {slot : InputCacheSlot μ}
    (hs : s.seq i = some seq) (hcache : seq'.cache = seq.cache) (hslot : s.cache.slots[seq.cache]? = some slot) :
    Touches K s (s.removeSequence env i seq') i seq none { slot with inUse := false } where
  live := hs
  seqs := seq_setSeq s (seq_lt hs) none
  same _ h := by nomatch h
  slot := by
    simp only [Server.removeSequence, hcache, slot_of_getElem? hslot]
    rw [slots_setSlot hslot, if_pos rfl]
  slots j hj := by
    simp only [Server.removeSequence, hcache]
    rw [slots_setSlot hslot, if_neg hj]
  numCtx := rfl
  kv kv' hkv' := ⟨kv', hkv', fun _ _ _ => rfl⟩

/-- One turn of the loop over the sequences, on one that has nothing pending. -/
theorem gathering_gatherSeq {env : Env} {s s' : Server σ μ} {idx : Nat} {options options' : Options μ}
    (h : Gathering K s options.rows) (hpend : ∀ seq, s.seq idx = some seq → seq.pendingInputs = [])
    (hg : gatherSeq K env idx s options = some (s', options')) :
    Gathering K s' options'.rows ∧ s'.seqs.length = s.seqs.length ∧ ∀ j, j ≠ idx → s'.seq j = s.seq j := by
  unfold gatherSeq at hg
  split at hg
  · simp only [Option.some.injEq, Prod.mk.injEq] at hg
    obtain ⟨rfl, rfl⟩ := hg
    exact ⟨h, rfl, fun _ _ => rfl⟩
  · rename_i seq hs
    have hi := seq_lt hs
    have hnil := hpend seq hs
    obtain ⟨slot, hslot, huse, hroom⟩ := h.placed.live idx seq hs
    split at hg
    · -- the limit of its predictions is reached
      simp only [Option.some.injEq, Prod.mk.injEq] at hg
      obtain ⟨rfl, rfl⟩ := hg
      refine ⟨(touches_removeSequence env hs rfl hslot).gathering h ⟨h.placed.room _ slot hslot, nofun⟩
        (fun kv hkv => h.holds kv hkv _ slot hslot) (fun hne => absurd rfl hne) (fun _ _ => rfl) ?_, ?_, fun j hj => ?_⟩
      · rw [h.pending idx seq slot hs hslot, hnil]
        rfl
      · simp [Server.removeSequence, Server.setSeq]
      · exact (seq_setSeq s hi none j).trans (if_neg hj)
    · simp only [Option.map_eq_some_iff, Prod.mk.injEq] at hg
      obtain ⟨g, hg, rfl, rfl⟩ := hg
      have hfinish : ∀ (s₁ : Server σ μ) (seq₁ : Sequence μ), s₁.seqs = s.seqs →
          Gathering K (s₁.withGather idx ⟨s₁.cache, seq₁, options, s₁.nextSeq⟩) options.rows →
          gather K idx s₁.batchSize seq₁.inputs.length seq₁.inputs 0 ⟨s₁.cache, seq₁, options, s₁.nextSeq⟩ = some g →
          Gathering K { s₁.setSeq idx (some { g.seq with inputs := g.seq.inputs.drop g.seq.pendingInputs.length }) with
            cache := g.cache, nextSeq := g.nextSeq } g.options.rows := by
        intro s₁ seq₁ hseqs h₁ hg₁
        have hi₁ : idx < s₁.seqs.length := hseqs ▸ hi
        have hfin := gathering_gather hi₁ h₁ hg₁
        have hlive : (s₁.withGather idx g).seq idx = some g.seq := by rw [seq_withGather s₁ hi₁, if_pos rfl]
        have := hfin.setInputs hlive { g.seq with inputs := g.seq.inputs.drop g.seq.pendingInputs.length } rfl rfl
        simpa [Server.withGather, Server.setSeq, List.set_set] using this
      by_cases hdis : s.cache.cache.isNone = true
      · -- without a KV cache the inputs of the slot go back to the sequence
        simp only [hdis, if_true] at hg ⊢
        have hnone : s.cache.cache = none := Option.isNone_iff_eq_none.1 hdis
        refine ⟨hfinish (s.setInputs seq.cache [])
          { seq with inputs := (s.cache.slot seq.cache).inputs ++ seq.inputs } rfl ?_ hg,
            by simp [Server.setSeq, Server.setInputs], fun j hj => ?_⟩
        · have t : Touches K s ((s.setInputs seq.cache []).withGather idx
              ⟨(s.setInputs seq.cache []).cache,
                { seq with inputs := (s.cache.slot seq.cache).inputs ++ seq.inputs }, options,
                s.nextSeq⟩) idx seq (some { seq with inputs := (s.cache.slot seq.cache).inputs ++ seq.inputs })
              { slot with inputs := [] } :=
            { live := hs
              seqs := fun j => seq_withGather (s.setInputs seq.cache []) hi _ j
              same := fun seq'' h'' => by
                simp only [Option.some.injEq] at h''
                rw [← h'']
              slot := by
                simp only [Server.withGather, Server.setInputs, slot_of_getElem? hslot]
                rw [slots_setSlot hslot, if_pos rfl]
              slots := fun j hj => by
                simp only [Server.withGather, Server.setInputs]
                rw [slots_setSlot hslot, if_neg hj]
              numCtx := rfl
              kv := fun kv' hkv' => absurd (hnone.symm.trans hkv') nofun }
          refine t.gathering h ⟨Nat.zero_le _, fun seq'' hv => ?_⟩
            (fun kv' hkv' => absurd (hnone.symm.trans hkv') nofun)
            (fun _ kv' hkv' => absurd (hnone.symm.trans hkv') nofun) (fun _ _ => rfl) ?_
          · simp only [Option.some.injEq] at hv
            subst hv
            refine ⟨huse, ?_⟩
            simp only [hnil, List.length_nil]
            exact Nat.zero_le _
          · rw [h.pending idx seq slot hs hslot, Option.elim_some, hnil]
            rfl
        · exact (seq_setSeq s hi _ j).trans (if_neg hj)
      · simp only [hdis, Bool.false_eq_true, if_false] at hg ⊢
        refine ⟨hfinish s seq rfl (h.setInputs hs _ rfl rfl) hg, by simp [Server.setSeq], fun j hj => ?_⟩
        exact (seq_setSeq s hi _ j).trans (if_neg hj)

/-- The loop over the sequences, each visited once. -/
theorem gathering_gatherAll {env : Env} {idxs : List Nat} (hnodup : idxs.Nodup) {s s' : Server σ μ}
    {options options' : Options μ} (h : Gathering K s options.rows)
    (hpend : ∀ idx ∈ idxs, ∀ seq, s.seq idx = some seq → seq.pendingInputs = [])
    (hg : gatherAll K env idxs s options = some (s', options')) :
    Gathering K s' options'.rows ∧ s'.seqs.length = s.seqs.length := by
  induction idxs generalizing s options with
  | nil =>
    simp only [gatherAll, Option.some.injEq, Prod.mk.injEq] at hg
    obtain ⟨rfl, rfl⟩ := hg
    exact ⟨h, rfl⟩
  | cons idx idxs ih =>
    obtain ⟨hnot, hnodup'⟩ := List.nodup_cons.1 hnodup
    simp only [gatherAll, Option.bind_eq_some_iff] at hg
    obtain ⟨⟨s₁, options₁⟩, h₁, hg⟩ := hg
    obtain ⟨hg₁, hlen, hothers⟩ := gathering_gatherSeq h (hpend idx (List.mem_cons_self ..)) h₁
    obtain ⟨hg₂, hlen₂⟩ := ih hnodup' hg₁ (fun j hj seq hs => by
      have hne : j ≠ idx := fun heq => hnot (heq ▸ hj)
      rw [hothers j hne] at hs
      exact hpend j (List.mem_cons_of_mem _ hj) seq hs) hg
    exact ⟨hg₂, hlen₂.trans hlen⟩

/-! ## The forward pass -/

/-- What the forward pass does: nothing without a KV cache, and nothing to anything but the KV cache. -/
theorem forward_cases {s s' : Server σ μ} {rows : List (BatchRow μ)} (h : s.forward K rows = some s') :
    (s.cache.cache = none ∧ s' = s) ∨ ∃ kv kv', s.cache.cache = some kv ∧ K.forward rows kv = some kv' ∧
      s' = { s with cache := { s.cache with cache := some kv' } } := by
  unfold Server.forward at h
  split at h
  · rename_i hnone
    exact .inl ⟨hnone, (Option.some.inj h).symm⟩
  · rename_i kv hkv
    obtain ⟨kv', hkv', rfl⟩ := Option.map_eq_some_iff.1 h
    exact .inr ⟨kv, kv', hkv, hkv', rfl⟩

/-- After the forward pass the KV cache holds the pending inputs. -/
theorem computing_forward {s s' : Server σ μ} {batch : List (BatchRow μ)} (h : Gathering K s batch)
    (hf : s.forward K batch = some s') : Computing K s' ∧ s'.seqs = s.seqs := by
  rcases forward_cases hf with ⟨hnone, rfl⟩ | ⟨kv, kv', hkv, hkv', rfl⟩
  · refine ⟨⟨h.placed, h.holds, fun kv hkv => ?_⟩, rfl⟩
    exact absurd (hnone.symm.trans hkv) nofun
  · have hlive : ∀ i seq slot, s.seq i = some seq → s.cache.slots[seq.cache]? = some slot →
        HoldsInputs K kv' seq.cache (slot.inputs ++ seq.pendingInputs) ∧
          EndsAt K kv' seq.cache (slot.inputs ++ seq.pendingInputs).length := by
      intro i seq slot hs hslot
      exact (h.holds kv hkv _ slot hslot).forward (h.ends kv hkv i seq slot hs hslot)
        (h.pending i seq slot hs hslot) hkv'
    refine ⟨⟨⟨h.placed.ctx, h.placed.small, h.placed.room, h.placed.live, h.placed.distinct⟩,
      fun kv₁ hkv₁ id slot hslot => ?_, fun kv₁ hkv₁ i seq slot hs hslot => ?_⟩, rfl⟩
    · simp only [Option.some.injEq] at hkv₁
      subst hkv₁
      by_cases hid : ∃ i seq, s.seq i = some seq ∧ seq.cache = id
      · obtain ⟨i, seq, hs, rfl⟩ := hid
        have := (hlive i seq slot hs hslot).1.take slot.inputs.length
        rwa [List.take_left] at this
      · -- nothing in the batch is for a slot without a sequence
        have hidle := h.idle id (fun i seq hs heq => hid ⟨i, seq, hs, heq⟩)
        obtain ⟨row, hspec, _⟩ := K.forward_spec hkv'
        refine (h.holds kv hkv id slot hslot).congr (fun k _ => ?_)
        have hempty : batch.filter (fun x => x.seq = id) = pendingRows id 0 [] := hidle
        rw [forward_entries hspec hempty]
        simp
    · simp only [Option.some.injEq] at hkv₁
      subst hkv₁
      exact hlive i seq slot hs hslot

/-! ## After the forward pass -/

theorem setInputs_setInputs (s : Server σ μ) (i : Nat) (a b : List (Input μ)) :
    (s.setInputs i a).setInputs i b = s.setInputs i b := by
  unfold Server.setInputs InputCache.setSlot InputCache.slot
  by_cases hi : i < s.cache.slots.length
  · simp [hi]
  · simp [List.set_eq_of_length_le (Nat.le_of_not_lt hi)]

/-- What a sequence goes on with after a forward pass: the rest of its inputs, or the token that was sampled from its
output. -/
structure GoesOn (env : Env) (i : Nat) (seq seq' : Sequence μ) : Prop where
  cache : seq'.cache = seq.cache
  numKeep : seq'.numKeep = seq.numKeep
  pending : seq'.pendingInputs = []
  inputs : (seq.inputs ≠ [] ∧ seq'.inputs = seq.inputs) ∨
    (seq.inputs = [] ∧ ∃ token, env.sample i seq.iBatch = some token ∧ seq'.inputs = [{ token := token }])

/-- What a turn of the loop after the forward pass does to a sequence: its pending inputs become inputs of the slot,
and either the sequence goes on without any pending, or it is removed, with some of the inputs. -/
theorem finishSeq_cases {env : Env} {i : Nat} {s s' : Server σ μ} {seq : Sequence μ} (hs : s.seq i = some seq)
    (hf : finishSeq env i s = some s') :
    (∃ seq', GoesOn env i seq seq' ∧
      s' = (s.setInputs seq.cache ((s.cache.slot seq.cache).inputs ++ seq.pendingInputs)).setSeq i (some seq')) ∨
    ∃ seq' n, seq'.cache = seq.cache ∧ seq.inputs = [] ∧
      s' = (s.setInputs seq.cache (((s.cache.slot seq.cache).inputs ++ seq.pendingInputs).take n)).removeSequence
        env i seq' := by
  simp only [finishSeq, hs] at hf
  generalize hins : (s.cache.slot seq.cache).inputs ++ seq.pendingInputs = ins at hf
  have hgoes : ∀ seq', some ((s.setInputs seq.cache ins).setSeq i (some seq')) = some s' → GoesOn env i seq seq' →
      ∃ seq', GoesOn env i seq seq' ∧ s' = (s.setInputs seq.cache ins).setSeq i (some seq') := by
    intro seq' h hon
    exact ⟨seq', hon, (Option.some.inj h).symm⟩
  have hremoved : ∀ seq' n, some ((s.setInputs seq.cache (ins.take n)).removeSequence env i seq') = some s' →
      seq'.cache = seq.cache → seq.inputs = [] → ∃ seq' n, seq'.cache = seq.cache ∧ seq.inputs = [] ∧
        s' = (s.setInputs seq.cache (ins.take n)).removeSequence env i seq' := by
    intro seq' n h hcache hnil
    exact ⟨seq', n, hcache, hnil, (Option.some.inj h).symm⟩
  have hall : ins = ins.take ins.length := List.take_length.symm
  split at hf
  · rename_i hne
    split at hf
    · nomatch hf
    · have hinputs : seq.inputs ≠ [] := fun h => hne (List.length_eq_zero_iff.2 h)
      exact Or.inl (hgoes _ hf ⟨rfl, rfl, rfl, Or.inl ⟨hinputs, rfl⟩⟩)
  · rename_i hnil
    have hinputs : seq.inputs = [] := List.length_eq_zero_iff.1 (not_not.1 hnil)
    split at hf
    · rw [hall] at hf
      exact Or.inr (hremoved _ _ hf rfl hinputs)
    · simp only [Option.bind_eq_some_iff] at hf
      obtain ⟨token, htoken, hf⟩ := hf
      split at hf
      · rw [hall] at hf
        exact Or.inr (hremoved _ _ hf rfl hinputs)
      · rw [Option.bind_eq_some_iff] at hf
        obtain ⟨piece, _, hf⟩ := hf
        split at hf
        · -- a stop sequence: the inputs it came from are cut off
          split at hf
          · nomatch hf
          · rw [setInputs_setInputs] at hf
            exact Or.inr (hremoved _ _ hf rfl hinputs)
        · exact Or.inl (hgoes _ hf ⟨rfl, rfl, rfl, Or.inr ⟨hinputs, token, htoken, rfl⟩⟩)
        · rw [hall] at hf
          exact Or.inr (hremoved _ _ hf rfl hinputs)

/-- What a change to the inputs of the slot of a sequence touches. -/
theorem touches_setInputs {s : Server σ μ} {i : Nat} {seq : Sequence μ} {slot : InputCacheSlot μ}
    (hs : s.seq i = some seq) (hslot : s.cache.slots[seq.cache]? = some slot) (inputs : List (Input μ)) :
    Touches K s (s.setInputs seq.cache inputs) i seq (some seq) { slot with inputs := inputs } where
  live := hs
  seqs j := by
    split
    · rename_i hj
      exact hj ▸ hs
    · rfl
  same seq' h := by
    rw [Option.some.inj h]
  slot := by
    simp only [Server.setInputs, slot_of_getElem? hslot]
    rw [slots_setSlot hslot, if_pos rfl]
  slots j hj := by
    simp only [Server.setInputs]
    rw [slots_setSlot hslot, if_neg hj]
  numCtx := rfl
  kv kv' hkv' := ⟨kv', hkv', fun _ _ _ => rfl⟩

/-- One turn of the loop after the forward pass. -/
theorem computing_finishSeq {env : Env} {i : Nat} {s s' : Server σ μ} (h : Computing K s)
    (hf : finishSeq env i s = some s') :
    Computing K s' ∧ (∀ j, j ≠ i → s'.seq j = s.seq j) ∧ ∀ seq, s'.seq i = some seq → seq.pendingInputs = [] := by
  rcases hs : s.seq i with _ | seq
  · simp only [finishSeq, hs, Option.some.injEq] at hf
    subst hf
    exact ⟨h, fun _ _ => rfl, fun seq hseq => absurd (hs.symm.trans hseq) nofun⟩
  · have hi := seq_lt hs
    obtain ⟨slot, hslot, huse, hroom⟩ := h.placed.live i seq hs
    have hslot' : s.cache.slot seq.cache = slot := slot_of_getElem? hslot
    have hcases := finishSeq_cases hs hf
    rw [hslot'] at hcases
    rcases hcases with ⟨seq', ⟨hcache, _, hpend, _⟩, rfl⟩ | ⟨seq', n, hcache, _, rfl⟩
    · refine ⟨?_, fun j hj => (seq_setSeq s hi (some seq') j).trans (if_neg hj), fun seq'' h'' => ?_⟩
      · have t₁ := touches_setInputs (K := K) hs hslot (slot.inputs ++ seq.pendingInputs)
        have t : Touches K s ((s.setInputs seq.cache (slot.inputs ++ seq.pendingInputs)).setSeq i (some seq')) i seq
          (some seq')
            { slot with inputs := slot.inputs ++ seq.pendingInputs } :=
          { live := hs, seqs := seq_setSeq s hi (some seq'), same := fun _ h =>
            Option.some.inj h ▸ hcache, slot := t₁.slot
            slots := t₁.slots, numCtx := rfl, kv := t₁.kv }
        have hall : (slot.inputs ++ seq.pendingInputs).length ≤ s.cache.numCtx := by
          rw [List.length_append]
          exact hroom
        refine t.computing h ⟨hall, fun seq'' hv => ?_⟩ (fun kv' hkv' => (h.pending kv' hkv' i seq slot hs hslot).1)
          (fun seq'' hv kv' hkv' => ?_)
        · rw [← Option.some.inj hv, hpend]
          exact ⟨huse, hall⟩
        · rw [← Option.some.inj hv, hpend, List.append_nil]
          exact h.pending kv' hkv' i seq slot hs hslot
      · have := (seq_setSeq s hi (some seq') i).symm.trans h''
        rw [if_pos rfl, Option.some.injEq] at this
        exact this ▸ hpend
    · refine ⟨?_, fun j hj => (seq_setSeq s hi none j).trans (if_neg hj), fun seq'' h'' => ?_⟩
      · have t₁ := touches_setInputs (K := K) hs hslot ((slot.inputs ++ seq.pendingInputs).take n)
        have t₂ := touches_removeSequence (K := K)
          (s := s.setInputs seq.cache ((slot.inputs ++ seq.pendingInputs).take n)) env
          hs hcache t₁.slot
        have t : Touches K s ((s.setInputs seq.cache ((slot.inputs ++ seq.pendingInputs).take n)).removeSequence env
          i seq') i seq none
            { slot with inputs := (slot.inputs ++ seq.pendingInputs).take n, inUse := false } :=
          { live := hs, seqs := seq_setSeq s hi none, same := nofun, slot := t₂.slot
            slots := fun j hj => (t₂.slots j hj).trans (t₁.slots j hj), numCtx := rfl, kv := t₂.kv }
        have htake : ((slot.inputs ++ seq.pendingInputs).take n).length ≤ s.cache.numCtx := by
          rw [List.length_take, List.length_append]
          omega
        exact t.computing h ⟨htake, nofun⟩ (fun kv' hkv' => (h.pending kv' hkv' i seq slot hs hslot).1.take n) nofun
      · have := (seq_setSeq s hi none i).symm.trans h''
        rw [if_pos rfl] at this
        nomatch this

/-- The loop after the forward pass: nothing is pending when it visits every sequence that has something pending. -/
theorem computing_finishAll {env : Env} {idxs : List Nat} {s s' : Server σ μ} (h : Computing K s)
    (hpend : ∀ i seq, s.seq i = some seq → i ∉ idxs → seq.pendingInputs = []) (hf : finishAll env idxs s = some s') :
    Computing K s' ∧ ∀ i seq, s'.seq i = some seq → seq.pendingInputs = [] := by
  induction idxs generalizing s with
  | nil =>
    simp only [finishAll, Option.some.injEq] at hf
    subst hf
    exact ⟨h, fun i seq hseq => hpend i seq hseq List.not_mem_nil⟩
  | cons idx idxs ih =>
    simp only [finishAll, Option.bind_eq_some_iff] at hf
    obtain ⟨s₁, h₁, hf⟩ := hf
    obtain ⟨hc₁, hothers, hself⟩ := computing_finishSeq h h₁
    refine ih hc₁ (fun i seq hseq hnot => ?_) hf
    by_cases hi : i = idx
    · subst hi
      exact hself seq hseq
    · rw [hothers i hi] at hseq
      refine hpend i seq hseq (fun hmem => ?_)
      rcases List.mem_cons.1 hmem with heq | hmem
      · exact hi heq
      · exact hnot hmem

/-- With nothing pending the server is between two sections again. -/
theorem Computing.serverInv {s : Server σ μ} (h : Computing K s)
    (hpend : ∀ i seq, s.seq i = some seq → seq.pendingInputs = []) :
    ServerInv K s where
  placed := h.placed
  holds := h.holds
  ends kv hkv i seq slot hs hslot := by
    have := (h.pending kv hkv i seq slot hs hslot).2
    rwa [hpend i seq hs, List.append_nil] at this
  pending i seq slot hs _ := by
    rw [hpend i seq hs]
    rfl
  idle _ _ := rfl

/-- The order in which `processBatch` visits the sequences: each of them once. -/
theorem nodup_rotate (m n : Nat) : ((List.range n).map (fun k => (m + k) % n)).Nodup := by
  refine List.Nodup.map_on (fun a ha b hb hab => ?_) List.nodup_range
  rw [List.mem_range] at ha hb
  have hmod : a ≡ b [MOD n] := Nat.ModEq.add_left_cancel' m hab
  exact hmod.eq_of_lt_of_lt ha hb

/-- What `processBatch` does: it gathers a batch, and stops there if the batch is empty. -/
theorem processBatch_cases {env : Env} {s s' : Server σ μ} (h : s.processBatch K env = some s') :
    ∃ s₁ options, gatherAll K env ((List.range s.seqs.length).map (fun k => (s.nextSeq + k) % s.seqs.length)) s {} =
      some (s₁, options) ∧ ((options.rows = [] ∧ s' = s₁) ∨
        ∃ s₂, s₁.forward K options.rows = some s₂ ∧ finishAll env (List.range s.seqs.length) s₂ = some s') := by
  rw [Server.processBatch, Option.bind_eq_some_iff] at h
  obtain ⟨⟨s₁, options⟩, hg, h⟩ := h
  refine ⟨s₁, options, hg, ?_⟩
  split at h
  · rename_i hnil
    exact .inl ⟨List.length_eq_zero_iff.1 hnil, (Option.some.inj h).symm⟩
  · exact .inr (Option.bind_eq_some_iff.1 h)

/-- `processBatch` keeps the invariant. -/
theorem serverInv_processBatch {env : Env} {s s' : Server σ μ} (h : ServerInv K s)
    (hp : s.processBatch K env = some s') :
    ServerInv K s' := by
  obtain ⟨s₁, options, hg, hp⟩ := processBatch_cases hp
  have hstart : Gathering K s ({} : Options μ).rows := h
  obtain ⟨h₁, hlen⟩ := gathering_gatherAll (nodup_rotate _ _) hstart (fun _ _ _ hs => h.pending_nil hs) hg
  rcases hp with ⟨hnil, rfl⟩ | ⟨s₂, hforward, hp⟩
  · rwa [hnil] at h₁
  · obtain ⟨h₂, hseqs⟩ := computing_forward h₁ hforward
    obtain ⟨h₃, hpend⟩ := computing_finishAll h₂ (fun i seq hs hnot => by
      have hi := seq_lt hs
      rw [hseqs, hlen] at hi
      exact absurd (List.mem_range.2 hi) hnot) hp
    exact h₃.serverInv hpend

/-! ## Completion -/

/-- The inputs of a sequence: at least one, and no more than the context has room for. -/
theorem newInputs_length {numCtx numKeep' : Nat} {numKeep : Int} {inputs prompt : List (Input μ)} (hctx : 1 ≤ numCtx)
    (h : newInputs numCtx numKeep inputs = some (prompt, numKeep')) : prompt.length ≤ numCtx := by
  unfold newInputs at h
  split at h
  · nomatch h
  · have hkeep := Nat.min_le_right (if numKeep < 0 then inputs.length else numKeep.toNat) (numCtx - 1)
    generalize min (if numKeep < 0 then inputs.length else numKeep.toNat) (numCtx - 1) = keep at h hkeep
    split at h
    · simp only [Option.some.injEq, Prod.mk.injEq] at h
      rw [← h.1, List.length_append, List.length_take, List.length_drop]
      omega
    · simp only [Option.some.injEq, Prod.mk.injEq] at h
      rw [← h.1]
      omega

/-- A new sequence in a free place, with the slot that was loaded for it. -/
theorem serverInv_loaded {s : Server σ μ} {c' : InputCache σ μ} {i slot later : Nat} {rest prompt : List (Input μ)}
    {s₀ : InputCacheSlot μ} {ins : List (Input μ)} {seq : Sequence μ} (h : ServerInv K s) (hi : i < s.seqs.length)
    (hfree : s.seq i = none) (hl : LoadedSlot K prompt s.cache c' slot rest s₀ ins later)
    (hlen : prompt.length ≤ s.cache.numCtx) (hcache : seq.cache = slot) (hpend : seq.pendingInputs = []) :
    ServerInv K { s.setSeq i (some seq) with cache := c' } := by
  subst hcache
  have hget : ∀ j, c'.slots[j]? = if j = seq.cache then some ⟨ins, true, later⟩ else s.cache.slots[j]? := by
    intro j
    rw [hl.slots]
    exact slots_setSlot hl.slot _ j
  have hself : c'.slots[seq.cache]? = some ⟨ins, true, later⟩ := by rw [hget, if_pos rfl]
  -- a slot that was free is not the slot of a sequence
  have hother : ∀ j seq', s.seq j = some seq' → seq'.cache ≠ seq.cache := by
    intro j seq' hj heq
    obtain ⟨slot, hslot, huse, _⟩ := h.placed.live j seq' hj
    rw [heq, hl.slot, Option.some.injEq] at hslot
    rw [← hslot, hl.free] at huse
    cases huse
  have hseq : ∀ j seq', (s.setSeq i (some seq)).seq j = some seq' →
      (j = i ∧ seq' = seq) ∨ (s.seq j = some seq' ∧ seq'.cache ≠ seq.cache) := by
    intro j seq' hj
    rw [seq_setSeq s hi] at hj
    split at hj
    · rename_i hji
      exact Or.inl ⟨hji, (Option.some.inj hj).symm⟩
    · exact Or.inr ⟨hj, hother j seq' hj⟩
  have hins : ins.length ≤ s.cache.numCtx := by
    have := congrArg List.length hl.prompt_eq
    simp only [List.length_map, List.length_append] at this
    omega
  refine ⟨⟨hl.numCtx ▸ h.placed.ctx, hl.numCtx ▸ h.placed.small, fun id slot hslot => ?_, fun j seq' hj => ?_,
    fun j k a b hj hk heq => ?_⟩,
    fun kv' hkv' id slot hslot => ?_, fun kv' hkv' j seq' slot hj hslot => ?_, fun j seq' slot hj hslot => ?_,
      fun _ _ => rfl⟩
  · show slot.inputs.length ≤ c'.numCtx
    rw [hl.numCtx]
    rw [hget] at hslot
    split at hslot
    · exact Option.some.inj hslot ▸ hins
    · exact h.placed.room id slot hslot
  · rcases hseq j seq' hj with ⟨rfl, rfl⟩ | ⟨hj', hne⟩
    · refine ⟨_, hself, rfl, ?_⟩
      rw [hpend]
      exact hl.numCtx.symm ▸ hins
    · obtain ⟨slot, hslot, hrest⟩ := h.placed.live j seq' hj'
      refine ⟨slot, ?_, hl.numCtx.symm ▸ hrest⟩
      rw [hget, if_neg hne]
      exact hslot
  · rcases hseq j a hj with ⟨rfl, rfl⟩ | ⟨hj', hne⟩ <;> rcases hseq k b hk with ⟨rfl, rfl⟩ | ⟨hk', hne'⟩
    · rfl
    · exact absurd heq.symm hne'
    · exact absurd heq hne
    · exact h.placed.distinct j k a b hj' hk' heq
  · obtain ⟨kv, hkv, hkvs, hholds, _⟩ := hl.some kv' hkv'
    rw [hget] at hslot
    split at hslot
    · rename_i hid
      rw [hid, ← Option.some.inj hslot]
      exact hholds
    · rename_i hid
      exact (h.holds kv hkv id slot hslot).congr (fun k _ => hkvs id hid k)
  · obtain ⟨kv, hkv, hkvs, _, hends⟩ := hl.some kv' hkv'
    rw [hget] at hslot
    rcases hseq j seq' hj with ⟨rfl, rfl⟩ | ⟨hj', hne⟩
    · rw [if_pos rfl] at hslot
      rw [← Option.some.inj hslot]
      exact hends
    · rw [if_neg hne] at hslot
      intro p hp
      rw [hkvs _ hne]
      exact h.ends kv hkv j seq' slot hj' hslot p hp
  · rcases hseq j seq' hj with ⟨rfl, rfl⟩ | ⟨hj', _⟩
    · rw [hpend]
      rfl
    · rw [h.pending_nil hj']
      rfl

/-- What `completion` does: nothing without inputs or a free place; otherwise it loads a slot, and where there is one
the place gets the sequence. -/
theorem completion_cases {req : Request μ} {s s' : Server σ μ} (h : s.completion K req = some s') :
    s' = s ∨ ∃ prompt numKeep i c' out, newInputs s.cache.numCtx req.numKeep req.inputs = some (prompt, numKeep) ∧
      i < s.seqs.length ∧ s.seq i = none ∧ s.cache.loadCacheSlot K req.now req.later prompt req.cachePrompt =
        some (c', out) ∧
      ((out = none ∧ s' = { s with cache := c' }) ∨ ∃ slot rest, out = some (slot, rest) ∧
        s' = { s.setSeq i (some
          { inputs := rest, cache := slot, numPredict := req.numPredict, numKeep := numKeep, stop := req.stop
            embeddingOnly := req.embeddingOnly }) with cache := c' }) := by
  unfold Server.completion at h
  split at h
  · exact .inl (Option.some.inj h).symm
  · rename_i prompt numKeep hnew
    split at h
    · exact .inl (Option.some.inj h).symm
    · rename_i i hfind
      obtain ⟨hi, hnone, _⟩ := List.findIdx?_eq_some_iff_getElem.1 hfind
      have hfree : s.seq i = none := by
        unfold Server.seq
        rw [List.getElem?_eq_getElem hi, Option.isNone_iff_eq_none.1 hnone]
        rfl
      obtain ⟨⟨c', out⟩, hload, rfl⟩ := Option.map_eq_some_iff.1 h
      refine .inr ⟨prompt, numKeep, i, c', out, hnew, hi, hfree, hload, ?_⟩
      cases out with
      | none => exact .inl ⟨rfl, rfl⟩
      | some loaded => exact .inr ⟨loaded.1, loaded.2, rfl, rfl⟩

/-- `completion` keeps the invariant. -/
theorem serverInv_completion {req : Request μ} {s s' : Server σ μ} (h : ServerInv K s)
    (hc : s.completion K req = some s') : ServerInv K s' := by
  rcases completion_cases hc with rfl | ⟨prompt, numKeep, i, c', out, hnew, hi, hfree, hload, hout⟩
  · exact h
  have hlen := newInputs_length h.placed.ctx hnew
  rcases loadCacheSlot_spec h.holds h.placed.slots_small hload with ⟨rfl, rfl⟩ | ⟨slot, rest, s₀, ins, rfl, hl⟩
  · rcases hout with ⟨_, rfl⟩ | ⟨_, _, hsome, _⟩
    · exact h
    · nomatch hsome
  · rcases hout with ⟨hnone, _⟩ | ⟨_, _, hsome, rfl⟩
    · nomatch hnone
    · obtain ⟨rfl, rfl⟩ := Prod.mk.inj (Option.some.inj hsome)
      exact serverInv_loaded h hi hfree hl hlen rfl rfl

/-- There are no sequences at first. -/
theorem seq_init {s : Server σ μ} (h : (system K).init s) (i : Nat) (seq : Sequence μ) : s.seq i ≠ some seq := by
  obtain ⟨parallel, batchSize, numCtx, multiUserCache, cache, _, _, _, rfl⟩ := h
  intro hs
  unfold Server.seq at hs
  rw [List.getElem?_replicate] at hs
  split at hs <;> nomatch hs

/-- The invariant holds at first: there are no sequences, and nothing in the slots. -/
theorem serverInv_init {s : Server σ μ} (h : (system K).init s) : ServerInv K s := by
  have hseq := seq_init h
  obtain ⟨parallel, batchSize, numCtx, multiUserCache, cache, hctx, hsmall, _, rfl⟩ := h
  have hempty : ∀ (id : Nat) (slot : InputCacheSlot μ), (List.replicate parallel ({} : InputCacheSlot μ))[id]? =
    some slot → slot = {} := by
    intro id slot hslot
    rw [List.getElem?_replicate] at hslot
    split at hslot
    · exact (Option.some.inj hslot).symm
    · nomatch hslot
  refine ⟨⟨hctx, hsmall, fun id slot hslot => ?_, fun i seq hs => absurd hs (hseq i seq),
    fun i _ seq _ hs => absurd hs (hseq i seq)⟩,
    fun kv _ id slot hslot => ?_, fun _ _ i seq _ hs => absurd hs (hseq i seq),
      fun i seq _ hs => absurd hs (hseq i seq),
    fun _ _ => rfl⟩
  · rw [hempty id slot hslot]
    exact Nat.zero_le _
  · rw [hempty id slot hslot]
    exact holdsInputs_nil kv id

/-- The invariant holds in every run. -/
theorem serverInv_reachable {s : Server σ μ} (h : (system K).Reachable s) : ServerInv K s := by
  refine h.invariant (I := ServerInv K) (fun s hs => serverInv_init hs) (fun s s' hinv hstep => ?_)
  rcases hstep with ⟨req, hc⟩ | ⟨env, hp⟩
  · exact serverInv_completion hinv hc
  · exact serverInv_processBatch hinv hp

end Ollama.Runner
