import Ollama.Runner.Lemmas.Slots

/-!
# Loading a slot

What `LoadCacheSlot` leaves, by either policy: a slot that was free has the longest part of the prompt that is kept,
the KV cache holds that part and nothing behind it for the slot, and everything it holds for other slots is as it was.
-/

namespace Ollama.Runner

open Kvcache (maxInt32)

variable {σ ρ μ : Type} {K : KvCache σ ρ μ}

/-- The KV cache holds the inputs of every slot. -/
def CacheHolds (K : KvCache σ ρ μ) (c : InputCache σ μ) : Prop :=
  ∀ kv, c.cache = some kv → ∀ id s, c.slots[id]? = some s → HoldsInputs K kv id s.inputs

/-! ## Common prefixes -/

theorem countCommonPrefix_le (a b : List (Input μ)) :
    countCommonPrefix a b ≤ a.length ∧ countCommonPrefix a b ≤ b.length := by
  induction a generalizing b with
  | nil => cases b <;> simp [countCommonPrefix]
  | cons x a ih =>
    cases b with
    | nil => simp [countCommonPrefix]
    | cons y b =>
      simp only [countCommonPrefix]
      split
      · simp
      · have := ih b
        simp only [List.length_cons]
        omega

/-- The common prefix is common, by token and hash. -/
theorem take_countCommonPrefix (a b : List (Input μ)) {n : Nat} (hn : n ≤ countCommonPrefix a b) :
    (a.take n).map Input.key = (b.take n).map Input.key := by
  induction a generalizing b n with
  | nil =>
    have := (countCommonPrefix_le ([] : List (Input μ)) b).1
    have h0 : n = 0 := by simp at this; omega
    simp [h0]
  | cons x a ih =>
    cases b with
    | nil =>
      have h0 : n = 0 := by simp [countCommonPrefix] at hn; exact hn
      simp [h0]
    | cons y b =>
      simp only [countCommonPrefix] at hn
      split at hn
      · have h0 : n = 0 := by omega
        simp [h0]
      · rename_i hkey
        simp only [not_or, ne_eq, not_not] at hkey
        cases n with
        | zero => simp
        | succ n =>
          rw [List.take_succ_cons, List.take_succ_cons, List.map_cons, List.map_cons, ih b (by omega)]
          congr 1
          exact Prod.ext hkey.1 hkey.2

/-! ## The search for a slot -/

/-- What is known of the slot with the longest prefix: the prefix is one of its inputs and the prompt. -/
def IsPrefixOf (prompt : List (Input μ)) (slots : List (InputCacheSlot μ)) (best : Option (Nat × Nat)) : Prop :=
  ∀ i n, best = some (i, n) → ∃ s, slots[i]? = some s ∧ n = countCommonPrefix s.inputs prompt

/-- The slot is free. -/
def IsFree (slots : List (InputCacheSlot μ)) (i : Nat) : Prop := ∃ s, slots[i]? = some s ∧ s.inUse = false

theorem longestFrom_spec (prompt : List (Input μ)) (all : List (InputCacheSlot μ))
    (rest : List (InputCacheSlot μ)) (i : Nat) (best : Option (Nat × Nat)) (hdrop : all.drop i = rest)
    (hbest : IsPrefixOf prompt all best) (hfree : ∀ j n, best = some (j, n) → IsFree all j) :
    IsPrefixOf prompt all (longestFrom prompt rest i best) ∧
      ∀ j n, longestFrom prompt rest i best = some (j, n) → IsFree all j := by
  induction rest generalizing i best with
  | nil => exact ⟨hbest, hfree⟩
  | cons s rest ih =>
    have hs : all[i]? = some s := by
      have := congrArg (·[0]?) hdrop
      simpa using this
    have hrest : all.drop (i + 1) = rest := by
      rw [← List.drop_drop, hdrop]
      rfl
    simp only [longestFrom]
    split
    · exact ih (i + 1) best hrest hbest hfree
    · rename_i huse
      refine ih (i + 1) _ hrest (fun j n hjn => ?_) (fun j n hjn => ?_)
      · split at hjn
        · simp only [Option.some.injEq, Prod.mk.injEq] at hjn
          obtain ⟨rfl, rfl⟩ := hjn
          exact ⟨s, hs, rfl⟩
        · exact hbest j n hjn
      · split at hjn
        · simp only [Option.some.injEq, Prod.mk.injEq] at hjn
          obtain ⟨rfl, rfl⟩ := hjn
          exact ⟨s, hs, by simpa using huse⟩
        · exact hfree j n hjn

theorem bestFrom_spec (prompt : List (Input μ)) (all : List (InputCacheSlot μ))
    (rest : List (InputCacheSlot μ)) (i : Nat) (best : Option (Nat × Nat)) (oldestSlot : Option Nat) (oldest : Nat)
    (hdrop : all.drop i = rest) (hbest : IsPrefixOf prompt all best) (hfree : ∀ j, oldestSlot = some j → IsFree all j) :
    IsPrefixOf prompt all (bestFrom prompt rest i best oldestSlot oldest).1 ∧
      ∀ j, (bestFrom prompt rest i best oldestSlot oldest).2 = some j → IsFree all j := by
  induction rest generalizing i best oldestSlot oldest with
  | nil => exact ⟨hbest, hfree⟩
  | cons s rest ih =>
    have hs : all[i]? = some s := by
      have := congrArg (·[0]?) hdrop
      simpa using this
    have hrest : all.drop (i + 1) = rest := by
      rw [← List.drop_drop, hdrop]
      rfl
    have hbest' : IsPrefixOf prompt all
        (if longer (countCommonPrefix s.inputs prompt) best then some (i,
          countCommonPrefix s.inputs prompt) else best) := by
      intro j n hjn
      split at hjn
      · simp only [Option.some.injEq, Prod.mk.injEq] at hjn
        obtain ⟨rfl, rfl⟩ := hjn
        exact ⟨s, hs, rfl⟩
      · exact hbest j n hjn
    simp only [bestFrom]
    split
    · rename_i huse
      refine ih (i + 1) _ _ _ hrest hbest' (fun j hj => ?_)
      simp only [Option.some.injEq] at hj
      subst hj
      exact ⟨s, hs, by simpa using huse.2⟩
    · exact ih (i + 1) _ _ _ hrest hbest' hfree

/-- What the search leaves: a free slot with inputs `ins`, of which the first `count` are those of the prompt. -/
structure Found (K : KvCache σ ρ μ) (prompt : List (Input μ)) (c c' : InputCache σ μ) (i count : Nat)
    (s : InputCacheSlot μ) (ins : List (Input μ)) : Prop where
  slot : c.slots[i]? = some s
  free : s.inUse = false
  slots : c'.slots = c.slots.set i { s with inputs := ins }
  shorter : ∃ (j : Nat) (s' : InputCacheSlot μ), c.slots[j]? = some s' ∧ ins.length ≤ s'.inputs.length
  le : count ≤ ins.length
  common : (ins.take count).map Input.key = (prompt.take count).map Input.key
  le_prompt : count ≤ prompt.length
  numCtx : c'.numCtx = c.numCtx
  none : c.cache = none → c'.cache = none
  some : ∀ kv, c.cache = some kv → ∃ kv', c'.cache = some kv' ∧
    (∀ j, j ≠ i → ∀ p, K.entries kv' j p = K.entries kv j p) ∧ HoldsInputs K kv' i ins

/-- A free slot as it is. -/
theorem found_self {prompt : List (Input μ)} {c : InputCache σ μ} (hc : CacheHolds K c) {i count : Nat}
    {s : InputCacheSlot μ} (hs : c.slots[i]? = some s) (hfree : s.inUse = false)
    (hcount : count ≤ countCommonPrefix s.inputs prompt) : Found K prompt c c i count s s.inputs := by
  obtain ⟨h1, h2⟩ := countCommonPrefix_le s.inputs prompt
  refine ⟨hs, hfree, ?_, ⟨i, s, hs, Nat.le_refl _⟩,
    by omega, take_countCommonPrefix _ _ hcount, by omega, rfl, fun h => h, fun kv hkv => ?_⟩
  · obtain ⟨hi, hget⟩ := List.getElem?_eq_some_iff.1 hs
    rw [← hget, List.set_getElem_self]
  · exact ⟨kv, hkv, fun j _ p => rfl, hc kv hkv i s hs⟩

theorem slot_of_getElem? {c : InputCache σ μ} {i : Nat} {s : InputCacheSlot μ} (h : c.slots[i]? = some s) :
    c.slot i = s := by
  simp [InputCache.slot, h]

/-- `findBestCacheSlot`: a free slot that has the prefix, gets it from another, or has none of it. -/
theorem findBestCacheSlot_spec {now : Nat} {prompt : List (Input μ)} {c c' : InputCache σ μ} {i count : Nat}
    (hc : CacheHolds K c) (h : c.findBestCacheSlot K now prompt = some (c', some (i, count))) :
    ∃ s ins, Found K prompt c c' i count s ins := by
  unfold InputCache.findBestCacheSlot at h
  obtain ⟨hbest, hoff⟩ := bestFrom_spec prompt c.slots c.slots 0 none none now rfl (fun _ _ h => by nomatch h)
    (fun _ h => by nomatch h)
  split at h
  · rename_i longestSlot longest oldestSlot heq
    rw [heq] at hbest hoff
    obtain ⟨sl, hsl, hlongest⟩ := hbest longestSlot longest rfl
    rw [slot_of_getElem? hsl] at h
    split at h
    · rename_i hcond
      simp only [Option.some.injEq, Prod.mk.injEq] at h
      obtain ⟨rfl, rfl, rfl⟩ := h
      exact ⟨sl, sl.inputs, found_self hc hsl (by simpa using hcond.2) (by omega)⟩
    · split at h
      · nomatch h
      · rename_i oldest
        obtain ⟨so, hso, hfree⟩ := hoff oldest rfl
        rw [slot_of_getElem? hso, if_neg (by simp [hfree])] at h
        obtain ⟨h1, h2⟩ := countCommonPrefix_le sl.inputs prompt
        split at h
        · -- the prefix is copied from the slot that has it
          rename_i hfork
          simp only [Option.some.injEq, Prod.mk.injEq] at h
          obtain ⟨rfl, rfl, rfl⟩ := h
          refine ⟨so, sl.inputs.take longest, hso, hfree, rfl, ⟨longestSlot, sl, hsl, List.length_take_le' ..⟩, ?_,
            ?_, by omega, rfl, fun hn => by simp [hn], fun kv hkv => ?_⟩
          · rw [List.length_take]
            omega
          · rw [List.take_take, Nat.min_self]
            exact take_countCommonPrefix _ _ (by omega)
          · have hspec : ∀ seq p, K.entries (K.copyPrefix longestSlot oldest longest kv) seq p =
                if seq = oldest then if p < longest then K.entries kv longestSlot p else 0 else K.entries kv seq p :=
              K.copyPrefix_spec hfork.2
            refine ⟨K.copyPrefix longestSlot oldest longest kv,
              by simp [hkv], fun j hj p => by rw [hspec, if_neg hj], ?_⟩
            refine ((hc kv hkv longestSlot sl hsl).take longest).congr (fun k hk => ?_)
            rw [List.length_take] at hk
            rw [hspec, if_pos rfl, if_pos (by omega)]
        · rename_i hno
          simp only [Option.some.injEq, Prod.mk.injEq] at h
          obtain ⟨rfl, rfl, rfl⟩ := h
          refine ⟨so, so.inputs, found_self hc hso hfree ?_⟩
          -- without a fork the prefix is empty or the slot's own
          by_cases h0 : longest = 0
          · omega
          · have hsame : longestSlot = oldest := by
              by_contra hne
              exact hno ⟨by omega, hne⟩
            subst hsame
            rw [hsl, Option.some.injEq] at hso
            subst hso
            omega
  · nomatch h

theorem findSlot_spec {now : Nat} {prompt : List (Input μ)} {c c' : InputCache σ μ} {i count : Nat}
    (hc : CacheHolds K c) (h : c.findSlot K now prompt = some (c', some (i, count))) :
    ∃ s ins, Found K prompt c c' i count s ins := by
  unfold InputCache.findSlot at h
  split at h
  · exact findBestCacheSlot_spec hc h
  · simp only [Option.some.injEq, Prod.mk.injEq] at h
    obtain ⟨rfl, hlong⟩ := h
    obtain ⟨h1, h2⟩ := longestFrom_spec prompt c.slots c.slots 0 none rfl (fun _ _ h => by nomatch h)
      (fun _ _ h => by nomatch h)
    obtain ⟨s, hs, hn⟩ := h1 i count hlong
    obtain ⟨s', hs', hfree⟩ := h2 i count hlong
    rw [hs, Option.some.injEq] at hs'
    subst hs'
    exact ⟨s, s.inputs, found_self hc hs hfree (by omega)⟩

/-! ## LoadCacheSlot -/

/-- What `LoadCacheSlot` leaves when it succeeds: a slot `s` that was free holds `ins`, which the rest of the prompt
continues, and the KV cache holds this and no more for it. -/
structure LoadedSlot (K : KvCache σ ρ μ) (prompt : List (Input μ)) (c c' : InputCache σ μ) (i : Nat)
    (rest : List (Input μ)) (s : InputCacheSlot μ) (ins : List (Input μ)) (later : Nat) : Prop where
  slot : c.slots[i]? = some s
  free : s.inUse = false
  slots : c'.slots = c.slots.set i ⟨ins, true, later⟩
  rest_ne : rest ≠ []
  prompt_eq : (ins ++ rest).map Input.key = prompt.map Input.key
  numCtx : c'.numCtx = c.numCtx
  some : ∀ kv', c'.cache = some kv' → ∃ kv, c.cache = some kv ∧
    (∀ j, j ≠ i → ∀ p, K.entries kv' j p = K.entries kv j p) ∧ HoldsInputs K kv' i ins ∧ EndsAt K kv' i ins.length

/-- A search without a slot leaves everything as it is. -/
theorem findSlot_none {now : Nat} {prompt : List (Input μ)} {c c' : InputCache σ μ}
    (h : c.findSlot K now prompt = some (c', none)) : c' = c := by
  unfold InputCache.findSlot at h
  split at h
  · unfold InputCache.findBestCacheSlot at h
    split at h
    · split_ifs at h with hfull
      · simp at h
      · split at h
        · nomatch h
        · split_ifs at h
          · exact (Prod.mk.inj (Option.some.inj h)).1.symm
          · simp at h
          · simp at h
    · nomatch h
  · simp only [Option.some.injEq, Prod.mk.injEq] at h
    exact h.1.symm

/-- Something of the KV cache that no call changes. -/
structure Kept {α : Type*} (K : KvCache σ ρ μ) (f : σ → α) : Prop where
  forward : ∀ {batch : List (BatchRow μ)} {kv kv' : σ}, K.forward batch kv = some kv' → f kv' = f kv
  copyPrefix : ∀ (srcSeq dstSeq : Nat) (len : Int) (kv : σ), f (K.copyPrefix srcSeq dstSeq len kv) = f kv
  remove : ∀ (seq : Nat) (b e : Int) (kv : σ), f (K.remove seq b e kv).1 = f kv

/-- The search changes neither it nor the policy. -/
theorem Kept.findSlot {α : Type*} {f : σ → α} (hf : Kept K f) {now : Nat} {prompt : List (Input μ)}
    {c c' : InputCache σ μ} {out : Option (Nat × Nat)} (h : c.findSlot K now prompt = some (c', out)) :
    c'.cache.map f = c.cache.map f ∧ c'.multiUserCache = c.multiUserCache := by
  unfold InputCache.findSlot at h
  split at h
  · unfold InputCache.findBestCacheSlot at h
    split at h
    · split at h
      · rw [← (Prod.mk.inj (Option.some.inj h)).1]
        exact ⟨rfl, rfl⟩
      · split at h
        · nomatch h
        · split_ifs at h
          · rw [← (Prod.mk.inj (Option.some.inj h)).1]
            exact ⟨rfl, rfl⟩
          · rw [← (Prod.mk.inj (Option.some.inj h)).1]
            refine ⟨?_, rfl⟩
            cases c.cache with
            | none => rfl
            | some kv => exact congrArg some (hf.copyPrefix _ _ _ kv)
          · rw [← (Prod.mk.inj (Option.some.inj h)).1]
            exact ⟨rfl, rfl⟩
    · nomatch h
  · rw [← (Prod.mk.inj (Option.some.inj h)).1]
    exact ⟨rfl, rfl⟩

/-- `LoadCacheSlot` changes neither it nor the policy. -/
theorem Kept.loadCacheSlot {α : Type*} {f : σ → α} (hf : Kept K f) {now later : Nat} {prompt : List (Input μ)}
    {cachePrompt : Bool} {c c' : InputCache σ μ} {out : Loaded μ}
    (h : c.loadCacheSlot K now later prompt cachePrompt = some (c', out)) :
    c'.cache.map f = c.cache.map f ∧ c'.multiUserCache = c.multiUserCache := by
  unfold InputCache.loadCacheSlot at h
  split at h
  · nomatch h
  · rename_i c₁ hfind
    rw [← (Prod.mk.inj (Option.some.inj h)).1]
    exact hf.findSlot hfind
  · rename_i c₁ i count hfind
    obtain ⟨hkept, hpolicy⟩ := hf.findSlot hfind
    rw [← hkept, ← hpolicy]
    dsimp only at h
    split at h
    · nomatch h
    · have hcache : (c₁.setSlot i { c₁.slot i with inUse := true, lastUsed := later }).cache = c₁.cache := rfl
      rw [hcache] at h
      generalize (if (if cachePrompt = true then count else 0) =
        prompt.length then (if cachePrompt = true then count else 0) - 1
        else if cachePrompt = true then count else 0) = numPast at h
      split at h
      · rename_i hnone
        rw [← (Prod.mk.inj (Option.some.inj h)).1, hnone]
        exact ⟨rfl, rfl⟩
      · rename_i kv hkv
        rw [hkv]
        split at h
        · split at h
          · rw [← (Prod.mk.inj (Option.some.inj h)).1]
            exact ⟨congrArg some ((hf.remove _ _ _ _).trans (hf.remove _ _ _ _)), rfl⟩
          · rw [← (Prod.mk.inj (Option.some.inj h)).1]
            exact ⟨congrArg some ((hf.remove _ _ _ _).trans (hf.remove _ _ _ _)), rfl⟩
        · rw [← (Prod.mk.inj (Option.some.inj h)).1]
          exact ⟨congrArg some (hf.remove _ _ _ _), rfl⟩

/-- The slot that was found, with as much of the prompt as the KV cache still holds. -/
theorem loaded_of_found {prompt : List (Input μ)} {c c₁ : InputCache σ μ} {i count numPast later : Nat}
    {s : InputCacheSlot μ} {ins : List (Input μ)} {cache : Option σ} (hf : Found K prompt c c₁ i count s ins)
    (hle : numPast ≤ count) (hlt : numPast < prompt.length)
    (hkv : ∀ kv', cache = some kv' → ∃ kv, c.cache = some kv ∧
      (∀ j, j ≠ i → ∀ p, K.entries kv' j p = K.entries kv j p) ∧
      HoldsInputs K kv' i (ins.take numPast) ∧ EndsAt K kv' i numPast) :
    let c₂ := c₁.setSlot i { c₁.slot i with inUse := true, lastUsed := later }
    LoadedSlot K prompt c { c₂.setSlot i { c₂.slot i with inputs := (c₂.slot i).inputs.take numPast } with
      cache := cache } i
      (prompt.drop numPast) s (ins.take numPast) later := by
  intro c₂
  have hi := (List.getElem?_eq_some_iff.1 hf.slot).1
  have hs₁ : c₁.slot i = { s with inputs := ins } := slot_of_getElem? (by rw [hf.slots]; simp [hi])
  have hs₂ : c₂.slot i = ⟨ins, true, later⟩ := slot_of_getElem? (by simp [c₂, InputCache.setSlot, hf.slots, hs₁, hi])
  have htake : (ins.take numPast).map Input.key = (prompt.take numPast).map Input.key := by
    have := congrArg (List.take numPast) hf.common
    rwa [← List.map_take, ← List.map_take, List.take_take, List.take_take, Nat.min_eq_left hle] at this
  refine ⟨hf.slot, hf.free, ?_, ?_, ?_, hf.numCtx, fun kv' hkv' => ?_⟩
  · rw [hs₂]
    show (c₁.slots.set i _).set i _ = _
    rw [hf.slots, List.set_set, List.set_set]
  · intro h0
    have := List.drop_eq_nil_iff.1 h0
    omega
  · rw [List.map_append, htake, ← List.map_append, List.take_append_drop]
  · obtain ⟨kv, h1, h2, h3, h4⟩ := hkv kv' hkv'
    refine ⟨kv, h1, h2, h3, ?_⟩
    have hlen := hf.le
    rw [List.length_take, Nat.min_eq_left (by omega)]
    exact h4

/-- `LoadCacheSlot`, with either outcome. -/
theorem loadCacheSlot_spec {now later : Nat} {prompt : List (Input μ)} {cachePrompt : Bool} {c c' : InputCache σ μ}
    {out : Loaded μ} (hc : CacheHolds K c)
    (hsmall : ∀ (id : Nat) (s : InputCacheSlot μ), c.slots[id]? = some s → (s.inputs.length : Int) ≤ maxInt32)
    (h : c.loadCacheSlot K now later prompt cachePrompt = some (c', out)) :
    (out = none ∧ c' = c) ∨ ∃ i rest s ins, out = some (i, rest) ∧ LoadedSlot K prompt c c' i rest s ins later := by
  unfold InputCache.loadCacheSlot at h
  split at h
  · nomatch h
  · rename_i c₁ hfind
    simp only [Option.some.injEq, Prod.mk.injEq] at h
    obtain ⟨rfl, rfl⟩ := h
    exact Or.inl ⟨rfl, findSlot_none hfind⟩
  · rename_i c₁ i count hfind
    obtain ⟨s, ins, hf⟩ := findSlot_spec hc hfind
    right
    dsimp only at h
    split at h
    · nomatch h
    · rename_i hne
      -- one input is left to sample from
      generalize hpast : (if (if cachePrompt = true then count else 0) = prompt.length then
        (if cachePrompt = true then count else 0) - 1 else if cachePrompt = true then count else 0) = numPast at h
      have hle : numPast ≤ count ∧ numPast < prompt.length := by
        have := hf.le_prompt
        rw [← hpast]
        split_ifs <;> omega
      have hcache : (c₁.setSlot i { c₁.slot i with inUse := true, lastUsed := later }).cache = c₁.cache := rfl
      rw [hcache] at h
      rcases hc₀ : c.cache with _ | kv
      · rw [hf.none hc₀] at h
        simp only [Option.some.injEq, Prod.mk.injEq] at h
        obtain ⟨rfl, rfl⟩ := h
        exact ⟨i, _, s, _, rfl, loaded_of_found hf hle.1 hle.2 (fun kv' h' => by nomatch h')⟩
      · obtain ⟨kv₁, hc₁, hothers, hholds⟩ := hf.some kv hc₀
        rw [hc₁] at h
        dsimp only at h
        split at h
        · -- partial erasure failed: the whole sequence is removed
          rw [if_neg (by rw [K.remove_all]; decide)] at h
          simp only [Option.some.injEq, Prod.mk.injEq] at h
          obtain ⟨rfl, rfl⟩ := h
          refine ⟨i, _, s, _, rfl, loaded_of_found hf (Nat.zero_le _) (by omega) (fun kv' h' => ?_)⟩
          simp only [Option.some.injEq] at h'
          subst h'
          refine ⟨kv, hc₀, fun j hj p => ?_, ?_, ?_⟩
          · rw [K.remove_others j hj, K.remove_others j hj, hothers j hj]
          · rw [List.take_zero]
            exact holdsInputs_nil _ _
          · exact ((holdsInputs_nil _ i).truncate (n := 0) (by decide) K.remove_all).2
        · rename_i hok
          rw [Bool.not_eq_true] at hok
          simp only [Option.some.injEq, Prod.mk.injEq] at h
          obtain ⟨rfl, rfl⟩ := h
          refine ⟨i, _, s, _, rfl, loaded_of_found hf hle.1 hle.2 (fun kv' h' => ?_)⟩
          simp only [Option.some.injEq] at h'
          subst h'
          have hle' := hf.le
          obtain ⟨j, s', hs', hshorter⟩ := hf.shorter
          have hsmall' := hsmall j s' hs'
          obtain ⟨h1, h2⟩ := hholds.truncate (n := numPast) (by omega) hok
          exact ⟨kv, hc₀, fun j hj p => by rw [K.remove_others j hj, hothers j hj], h1, h2⟩

end Ollama.Runner
