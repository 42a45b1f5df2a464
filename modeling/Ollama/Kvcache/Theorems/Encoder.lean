import Ollama.Kvcache.Encoder
import Mathlib.Data.List.Nodup

/-!
# The encoder cache and its token

`Remove` compares the position at which the data was stored with the removed block, but never moves it, though a block
that is cut out before the token moves the token down. The data follows its token as long as no such block is cut out
(`encoder_follows`): after one, a single removal either drops the data of a token that is still there or keeps the
data of one that is gone.
-/

namespace Ollama.Kvcache

variable {τ : Type} {permute : τ → τ}

/-- Data is cached if and only if the token at whose pass it was stored is in the sequence. -/
def Sequence.Follows (s : Sequence τ) : Prop := s.cache.encoderCached = true ↔ ∃ t ∈ s.tokens, s.stored = some t.id

/-- While data is cached no block is cut out before its position; and none is stored at the position `MaxInt32`. -/
def EncoderCall.Steady (s : Sequence τ) : EncoderCall τ → Prop
  | .put _ _ => s.cache.curPos ≠ maxInt32
  | .remove b e => s.cache.encoderCached = true → ¬(b < e ∧ e ≤ s.cache.encoderPos)
  | _ => True

instance (s : Sequence τ) : (call : EncoderCall τ) → Decidable (call.Steady s)
  | .startForward _ => inferInstanceAs (Decidable True)
  | .setLayer _ => inferInstanceAs (Decidable True)
  | .put _ _ => inferInstanceAs (Decidable (_ ≠ _))
  | .remove _ _ => inferInstanceAs (Decidable (_ → ¬(_ ∧ _)))

/-- The runs with admitted calls. -/
def encoderRuns (permute : τ → τ) : Lib.System (Sequence τ) :=
  (encoderMachine permute).guarded (fun s call => call.Admitted s)

/-- The runs in which no block is cut out before the stored position. -/
def steadyRuns (permute : τ → τ) : Lib.System (Sequence τ) :=
  (encoderMachine permute).guarded (fun s call => call.Admitted s ∧ call.Steady s)

namespace EncoderAux

/-! ## Tokens -/

/-- New tokens have new ids. -/
theorem mem_tokensFrom {next : Nat} {positions : List Int} {t : Token} (h : t ∈ tokensFrom next positions) :
    next ≤ t.id ∧ t.id < next + positions.length := by
  induction positions generalizing next with
  | nil => nomatch h
  | cons pos positions ih =>
    rw [tokensFrom, List.mem_cons] at h
    rw [List.length_cons]
    rcases h with rfl | h
    · exact ⟨Nat.le_refl _, by dsimp only; omega⟩
    · have := ih h
      omega

/-- The names of a batch are new and differ. -/
theorem nodup_tokensFrom (next : Nat) (positions : List Int) : ((tokensFrom next positions).map Token.id).Nodup := by
  induction positions generalizing next with
  | nil => exact List.nodup_nil
  | cons pos positions ih =>
    rw [tokensFrom, List.map_cons, List.nodup_cons]
    refine ⟨?_, ih (next + 1)⟩
    intro h
    obtain ⟨t, ht, hid⟩ := List.mem_map.1 h
    have := mem_tokensFrom ht
    dsimp only at hid
    omega

/-- A removal keeps names. -/
theorem removed_id {b e : Int} {t t' : Token} (h : t.removed b e = some t') : t'.id = t.id := by
  unfold Token.removed at h
  split_ifs at h <;> cases h <;> rfl

/-- What is left after a removal are tokens from before. -/
theorem mem_removed {b e : Int} {tokens : List Token} {t' : Token} (h : t' ∈ tokens.filterMap (Token.removed b e)) :
    ∃ t ∈ tokens, t.removed b e = some t' ∧ t'.id = t.id := by
  obtain ⟨t, ht, hremoved⟩ := List.mem_filterMap.1 h
  exact ⟨t, ht, hremoved, removed_id hremoved⟩

/-- The names after a removal are some of those before it. -/
theorem ids_removed (b e : Int) (tokens : List Token) :
    ((tokens.filterMap (Token.removed b e)).map Token.id).Sublist (tokens.map Token.id) := by
  induction tokens with
  | nil => exact List.Sublist.refl _
  | cons t tokens ih =>
    rcases h : t.removed b e with _ | t'
    · rw [List.filterMap_cons_none h, List.map_cons]
      exact ih.cons _
    · rw [List.filterMap_cons_some h, List.map_cons, List.map_cons, removed_id h]
      exact ih.cons_cons _

/-! ## The invariant -/

/-- What holds as long as no block is cut out before the stored position: cached data belongs to a token of the
sequence that is at that position, and a pass has its first token at the current position. -/
structure Inv (s : Sequence τ) : Prop where
  nodup : (s.tokens.map Token.id).Nodup
  fresh : ∀ t ∈ s.tokens, t.id < s.next
  old : ∀ id, s.stored = some id → id < s.next
  cached : s.cache.encoderCached = true → ∃ id, s.stored = some id ∧ ⟨id, s.cache.encoderPos⟩ ∈ s.tokens ∧
    s.cache.encoderPos ≠ maxInt32
  gone : s.cache.encoderCached = false → ∀ t ∈ s.tokens, s.stored ≠ some t.id
  pass : ∀ id, s.pass = some id → ⟨id, s.cache.curPos⟩ ∈ s.tokens
  int32 : ∀ id, s.pass = some id → IsInt32 s.cache.curPos
  storedInt32 : s.cache.encoderCached = true → IsInt32 s.cache.encoderPos

/-- The invariant says that the cache follows the sequence. -/
theorem Inv.follows {s : Sequence τ} (h : Inv s) : s.Follows := by
  constructor
  · intro hcached
    obtain ⟨id, hstored, hmem, _⟩ := h.cached hcached
    exact ⟨_, hmem, hstored⟩
  · rintro ⟨t, ht, hstored⟩
    cases hcached : s.cache.encoderCached with
    | true => rfl
    | false => exact (h.gone hcached t ht hstored).elim

/-- A token of the sequence has one position. -/
theorem Inv.unique {s : Sequence τ} (h : Inv s) {t t' : Token} (ht : t ∈ s.tokens) (ht' : t' ∈ s.tokens)
    (hid : t.id = t'.id) :
    t = t' :=
  List.inj_on_of_nodup_map h.nodup ht ht' hid

/-- The invariant holds at first. -/
theorem inv_init {s : Sequence τ} (h : (steadyRuns permute).init s) : Inv s := by
  obtain ⟨cachePadding, permutedV, h⟩ := h
  unfold EncoderCache.init at h
  split at h
  · nomatch h
  · simp only [Option.map_some, Option.some.injEq] at h
    subst h
    exact ⟨List.nodup_nil, fun _ ht => (List.not_mem_nil ht).elim, nofun, nofun,
      fun _ _ ht => (List.not_mem_nil ht).elim, nofun, nofun, nofun⟩

/-- `StartForward` keeps the invariant. -/
theorem inv_startForward {s s' : Sequence τ} (h : Inv s) {positions : List Int}
    (ha : (EncoderCall.startForward positions).Admitted s)
    (hrun : (EncoderCall.startForward positions).run permute s = some s') : Inv s' := by
  simp only [EncoderCall.run, Option.map_eq_some_iff] at hrun
  obtain ⟨c, hc, rfl⟩ := hrun
  cases positions with
  | nil => nomatch hc
  | cons pos positions =>
    simp only [EncoderCache.startForward, Option.some.injEq] at hc
    subst hc
    refine ⟨?_, ?_, ?_, ?_, ?_, ?_, ?_, ?_⟩
    · rw [List.map_append]
      refine List.nodup_append.2 ⟨h.nodup, nodup_tokensFrom _ _, ?_⟩
      intro id hid id' hid'
      obtain ⟨t, ht, rfl⟩ := List.mem_map.1 hid
      obtain ⟨t', ht', rfl⟩ := List.mem_map.1 hid'
      have := h.fresh t ht
      have := mem_tokensFrom ht'
      omega
    · intro t ht
      rcases List.mem_append.1 ht with ht | ht
      · exact Nat.lt_of_lt_of_le (h.fresh t ht) (Nat.le_add_right _ _)
      · exact (mem_tokensFrom ht).2
    · intro id hid
      exact Nat.lt_of_lt_of_le (h.old id hid) (Nat.le_add_right _ _)
    · intro hcached
      obtain ⟨id, hid, hmem, hpos⟩ := h.cached hcached
      exact ⟨id, hid, List.mem_append_left _ hmem, hpos⟩
    · intro hcached t ht hstored
      rcases List.mem_append.1 ht with ht | ht
      · exact h.gone hcached t ht hstored
      · -- The tokens of the pass are newer than the stored one.
        have := h.old _ hstored
        have := mem_tokensFrom ht
        omega
    · intro id hid
      cases hid
      exact List.mem_append_right _ List.mem_cons_self
    · intro _ _
      exact (ha.2.2 pos List.mem_cons_self).1
    · exact h.storedInt32

/-- `Put` keeps the invariant. -/
theorem inv_put {s s' : Sequence τ} (h : Inv s) {key value : τ} (ha : (EncoderCall.put key value).Admitted s)
    (hsteady : (EncoderCall.put key value).Steady s) (hrun : (EncoderCall.put key value).run permute s = some s') :
    Inv s' := by
  simp only [EncoderCall.run, EncoderCache.put, Option.map_eq_some_iff] at hrun
  obtain ⟨c, hc, rfl⟩ := hrun
  obtain ⟨id, hpass⟩ := Option.ne_none_iff_exists'.1 ha
  split at hc
  · simp only [Option.some.injEq] at hc
    subst hc
    have hmem := h.pass id hpass
    refine ⟨h.nodup, h.fresh, ?_, fun _ => ⟨id, hpass, hmem, hsteady⟩, nofun, h.pass, h.int32,
      fun _ => h.int32 id hpass⟩
    intro id' hid'
    exact h.fresh _ (h.pass id' hid')
  · nomatch hc

/-- What a removal that is not before the stored position leaves of the token at it. -/
theorem removed_stored {b e p : Int} {id : Nat} (hp : p ≠ maxInt32) (hp' : IsInt32 p) (hsteady : ¬(b < e ∧ e ≤ p))
    (hbe : b ≤ e) :
    Token.removed b e ⟨id, p⟩ = if p ≥ b ∧ p < e then none else some ⟨id, p⟩ := by
  have hle : p < maxInt32 := by
    simp only [IsInt32, maxInt32] at *
    omega
  unfold Token.removed
  dsimp only
  by_cases hbefore : p < b
  · rw [if_pos hbefore, if_neg (by omega)]
  · rw [if_neg hbefore]
    by_cases hin : p < e
    · rw [if_pos (Or.inr hin), if_pos ⟨by omega, hin⟩]
    · -- The removed block is empty.
      have hempty : p - (e - b) = p := by omega
      rw [if_neg (by omega), if_neg (by omega), hempty]

/-- `Remove` keeps the invariant, if it is steady. -/
theorem inv_remove {s s' : Sequence τ} (h : Inv s) {b e : Int}
    (ha : (EncoderCall.remove b e : EncoderCall τ).Admitted s)
    (hsteady : (EncoderCall.remove b e : EncoderCall τ).Steady s)
    (hrun : (EncoderCall.remove b e).run permute s = some s') : Inv s' := by
  simp only [EncoderCall.run, Option.some.injEq] at hrun
  subst hrun
  have hnodup := h.nodup.sublist (ids_removed b e s.tokens)
  have hfresh : ∀ t ∈ s.tokens.filterMap (Token.removed b e), t.id < s.next := by
    intro t' ht'
    obtain ⟨t, ht, _, hid⟩ := mem_removed ht'
    rw [hid]
    exact h.fresh t ht
  unfold EncoderCache.remove
  split
  · rename_i hin
    refine ⟨hnodup, hfresh, h.old, nofun, ?_, nofun, nofun, nofun⟩
    intro _ t' ht' hstored
    obtain ⟨t, ht, hremoved, hid⟩ := mem_removed ht'
    dsimp only at hstored
    rw [hid] at hstored
    cases hcached : s.cache.encoderCached with
    | false => exact h.gone hcached t ht hstored
    | true =>
      -- The stored token is the one that was removed.
      obtain ⟨id, hid, hmem, hpos⟩ := h.cached hcached
      have heq := h.unique hmem ht (Option.some.inj (hid.symm.trans hstored))
      rw [← heq, removed_stored hpos (h.storedInt32 hcached) (hsteady hcached) ha.2.2, if_pos hin] at hremoved
      nomatch hremoved
  · rename_i hout
    refine ⟨hnodup, hfresh, h.old, ?_, ?_, nofun, nofun, h.storedInt32⟩
    · intro hcached
      obtain ⟨id, hid, hmem, hpos⟩ := h.cached hcached
      refine ⟨id, hid, List.mem_filterMap.2 ⟨_, hmem, ?_⟩, hpos⟩
      rw [removed_stored hpos (h.storedInt32 hcached) (hsteady hcached) ha.2.2, if_neg hout]
    · intro hcached t' ht' hstored
      obtain ⟨t, ht, _, hid⟩ := mem_removed ht'
      exact h.gone hcached t ht (by rw [← hid]; exact hstored)

/-- A steady step keeps the invariant. -/
theorem inv_step {s s' : Sequence τ} (h : Inv s) {call : EncoderCall τ} (ha : call.Admitted s) (hsteady : call.Steady s)
    (hrun : call.run permute s = some s') : Inv s' := by
  cases call with
  | startForward positions => exact inv_startForward h ha hrun
  | setLayer layer =>
    simp only [EncoderCall.run, Option.some.injEq] at hrun
    subst hrun
    exact ⟨h.nodup, h.fresh, h.old, h.cached, h.gone, h.pass, h.int32, h.storedInt32⟩
  | put key value => exact inv_put h ha hsteady hrun
  | remove b e => exact inv_remove h ha hsteady hrun

/-- In runs of steady steps the invariant holds. -/
theorem inv_reachable {s : Sequence τ} (h : (steadyRuns permute).Reachable s) : Inv s := by
  induction h with
  | init h => exact inv_init h
  | step _ hstep ih =>
    obtain ⟨call, ⟨ha, hsteady⟩, hrun⟩ := hstep
    exact inv_step ih ha hsteady hrun

/-! ## Where it goes wrong -/

/-- Data that is cached for a token which is not at the stored position, or at the position `MaxInt32`, is lost or
kept wrongly by the removal of everything from that position on. -/
theorem not_follows_remove {s s' : Sequence τ} (hnodup : (s.tokens.map Token.id).Nodup) {t : Token} (ht : t ∈ s.tokens)
    (hstored : s.stored = some t.id) (hcached : s.cache.encoderCached = true) (hint : IsInt32 s.cache.encoderPos)
    (hwrong : (t.pos < s.cache.encoderPos ∧ s.cache.encoderPos ≠ maxInt32) ∨
      (t.pos = s.cache.encoderPos ∧ s.cache.encoderPos = maxInt32))
    (hrun : (EncoderCall.remove s.cache.encoderPos maxInt32).run permute s = some s') : ¬s'.Follows := by
  simp only [EncoderCall.run, Option.some.injEq] at hrun
  subst hrun
  unfold Sequence.Follows EncoderCache.remove
  intro h
  rcases hwrong with ⟨hlt, hne⟩ | ⟨heq, hmax⟩
  · -- The token is before the removed positions and stays.
    have hin : s.cache.encoderPos ≥ s.cache.encoderPos ∧ s.cache.encoderPos < maxInt32 := by
      simp only [IsInt32, maxInt32] at *
      omega
    rw [if_pos hin] at h
    have hstays : t.removed s.cache.encoderPos maxInt32 = some t := by rw [Token.removed, if_pos hlt]
    exact absurd (h.2 ⟨t, List.mem_filterMap.2 ⟨t, ht, hstays⟩, hstored⟩) (by simp)
  · -- The token is removed, but the data is not.
    rw [if_neg (by omega)] at h
    obtain ⟨t', ht', hstored'⟩ := h.1 hcached
    obtain ⟨u, hu, hremoved, hid⟩ := mem_removed ht'
    have hsame : u = t := List.inj_on_of_nodup_map hnodup hu ht (by
      rw [← hid]
      exact Option.some.inj (hstored'.symm.trans hstored))
    rw [hsame, Token.removed, if_neg (by omega), if_pos (Or.inl rfl)] at hremoved
    nomatch hremoved

end EncoderAux

open EncoderAux

/-- In every run in which no block is cut out before the stored position, data is cached if and only if its token is
in the sequence. And a call that is not of this kind leads to a state in which the removal of everything from the
stored position on breaks this. -/
theorem encoder_follows {s : Sequence τ} (h : (steadyRuns permute).Reachable s) :
    s.Follows ∧ ∀ (call : EncoderCall τ) (s' s'' : Sequence τ), call.Admitted s → ¬call.Steady s →
      call.run permute s = some s' →
      (EncoderCall.remove s'.cache.encoderPos maxInt32).run permute s' = some s'' → ¬s''.Follows := by
  have hinv := inv_reachable h
  refine ⟨hinv.follows, ?_⟩
  intro call s' s'' ha hunsteady hrun
  cases call with
  | startForward positions => exact (hunsteady trivial).elim
  | setLayer layer => exact (hunsteady trivial).elim
  | put key value =>
    simp only [EncoderCall.run, EncoderCache.put, Option.map_eq_some_iff] at hrun
    obtain ⟨c, hc, rfl⟩ := hrun
    obtain ⟨id, hpass⟩ := Option.ne_none_iff_exists'.1 ha
    have hmax : s.cache.curPos = maxInt32 := not_not.1 hunsteady
    split at hc
    · simp only [Option.some.injEq] at hc
      subst hc
      exact not_follows_remove hinv.nodup (hinv.pass id hpass) hpass rfl (hinv.int32 id hpass) (Or.inr ⟨rfl, hmax⟩)
    · nomatch hc
  | remove b e =>
    simp only [EncoderCall.Steady, Classical.not_imp, not_not] at hunsteady
    obtain ⟨hcached, hlt, hle⟩ := hunsteady
    obtain ⟨id, hid, hmem, hpos⟩ := hinv.cached hcached
    have hint := hinv.storedInt32 hcached
    simp only [EncoderCall.run, Option.some.injEq] at hrun
    subst hrun
    have hkept : s.cache.remove b e = s.cache := by
      unfold EncoderCache.remove
      rw [if_neg (by omega)]
    have hmoved : Token.removed b e ⟨id, s.cache.encoderPos⟩ = some ⟨id, s.cache.encoderPos - (e - b)⟩ := by
      have hmax : s.cache.encoderPos < maxInt32 := by
        simp only [IsInt32, maxInt32] at *
        omega
      unfold Token.removed
      dsimp only
      rw [if_neg (by omega), if_neg (by omega)]
    refine not_follows_remove (hinv.nodup.sublist (ids_removed b e s.tokens))
      (List.mem_filterMap.2 ⟨_, hmem, hmoved⟩) hid ?_ ?_ (Or.inl ?_)
    · rw [hkept]
      exact hcached
    · rw [hkept]
      exact hint
    · rw [hkept]
      exact ⟨by dsimp only; omega, hpos⟩

/-- A cache as it is at first. -/
def freshSequence : Sequence Unit := { cache := { permutedV := false } }

/-- The example begins with a new cache. -/
theorem init_freshSequence : (encoderMachine id).init freshSequence := ⟨0, false, rfl⟩

/-- An image between tokens of text: a token after it is cut out, the image stays; then the image and what follows it
is removed. -/
theorem encoder_follows_image : ∃ s s' : Sequence Unit, (steadyRuns id).Reachable s ∧ (steadyRuns id).Reachable s' ∧
    (s.Follows ∧ s.cache.encoderCached = true ∧ s.tokens.map Token.pos = [0, 1, 2]) ∧
    (s'.Follows ∧ s'.cache.encoderCached = false ∧ s'.tokens.map Token.pos = [0]) := by
  let calls : List (EncoderCall Unit) :=
    [.setLayer 0, .startForward [0], .startForward [1], .put () (), .startForward [2, 3], .remove 2 3]
  have hinit : (steadyRuns id).Reachable freshSequence := .init init_freshSequence
  have hsome : ((encoderMachine id).runGuarded (fun s call => call.Admitted s ∧
    call.Steady s) freshSequence calls).isSome := by
    decide +kernel
  have hsome' : ((encoderMachine id).runGuarded (fun s call => call.Admitted s ∧ call.Steady s) freshSequence
      (calls ++ [.remove 1 maxInt32])).isSome := by decide +kernel
  obtain ⟨s, hs⟩ := Option.isSome_iff_exists.1 hsome
  obtain ⟨s', hs'⟩ := Option.isSome_iff_exists.1 hsome'
  have hreach := Lib.Machine.reachable_runGuarded hinit hs
  have hreach' := Lib.Machine.reachable_runGuarded hinit hs'
  have hshape : ((encoderMachine id).runGuarded (fun s call => call.Admitted s ∧ call.Steady s) freshSequence calls).map
      (fun s => (s.cache.encoderCached, s.tokens.map Token.pos)) = some (true, [0, 1, 2]) := by decide +kernel
  have hshape' : ((encoderMachine id).runGuarded (fun s call => call.Admitted s ∧ call.Steady s) freshSequence
      (calls ++ [.remove 1 maxInt32])).map (fun s => (s.cache.encoderCached, s.tokens.map Token.pos)) =
        some (false, [0]) := by
    decide +kernel
  rw [hs, Option.map_some, Option.some.injEq, Prod.mk.injEq] at hshape
  rw [hs', Option.map_some, Option.some.injEq, Prod.mk.injEq] at hshape'
  exact ⟨s, s', hreach, hreach', ⟨(encoder_follows hreach).1, hshape⟩, (encoder_follows hreach').1, hshape'⟩

/-- The token before an image is cut out, and then the image, which has taken its place: the data of the image stays. -/
theorem encoder_stale : ¬∀ s : Sequence Unit, (encoderRuns id).Reachable s → s.Follows := by
  intro h
  let calls : List (EncoderCall Unit) :=
    [.setLayer 0, .startForward [0], .startForward [1], .put () (), .remove 0 1, .remove 0 1]
  have hsome : ((encoderMachine id).runGuarded (fun s call => call.Admitted s) freshSequence calls).map
      (fun s => (s.cache.encoderCached, s.tokens)) = some (true, []) := by decide +kernel
  obtain ⟨s, hs, heq⟩ := Option.map_eq_some_iff.1 hsome
  obtain ⟨hcached, htokens⟩ := Prod.mk.inj heq
  have hreach : (encoderRuns id).Reachable s := Lib.Machine.reachable_runGuarded (.init init_freshSequence) hs
  obtain ⟨t, ht, _⟩ := (h s hreach).1 hcached
  rw [htokens] at ht
  exact List.not_mem_nil ht

end Ollama.Kvcache
