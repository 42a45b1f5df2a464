import Ollama.Llamarunner.InputCache
import Ollama.Runner.Lemmas.BestSlot
import Ollama.Runner.Lemmas.Server

/-!
# Slots and the KV cache

The slots of a runner stay in step with the KV cache in every run, whatever the requests, the sampled tokens and the
clients do: each input of a slot has one row in the KV cache, which was computed for that input after the inputs
before it, up to context shifts. A slot that is loaded for a prompt was free, and its inputs and the rest that is
returned make up the prompt.

`tokenRows` is the smallest cache that keeps the contract: it remembers the token and the position of a row.
-/

namespace Ollama.Runner

open Kvcache (maxInt32)

variable {σ ρ μ : Type} {K : KvCache σ ρ μ}

/-- In every run, the KV cache holds one row for each input of a slot, and it is the row of the input; and a slot that
is loaded was not in use and has the part of the prompt before the rest. -/
theorem slots_match_cache {s : Server σ μ} (h : (system K).Reachable s) :
    (∀ kv, s.cache.cache = some kv → ∀ (id : Nat) (slot : InputCacheSlot μ), s.cache.slots[id]? = some slot →
      ∀ (k : Nat) (x : Input μ), slot.inputs[k]? = some x →
        ∃ r, K.entries kv id k = {r} ∧ Computed K r x.key ((slot.inputs.take k).map Input.key)) ∧
    ∀ (now later : Nat) (prompt : List (Input μ)) (cachePrompt : Bool) (c' : InputCache σ μ) (i : Nat)
      (rest : List (Input μ)), s.cache.loadCacheSlot K now later prompt cachePrompt = some (c', some (i, rest)) →
        (∃ slot, s.cache.slots[i]? = some slot ∧ slot.inUse = false) ∧ rest ≠ [] ∧
        ∃ slot', c'.slots[i]? = some slot' ∧ slot'.inUse = true ∧ (slot'.inputs ++ rest).map Input.key =
          prompt.map Input.key := by
  have hinv := serverInv_reachable h
  constructor
  · intro kv hkv id slot hslot k x hx
    obtain ⟨rows, hlen, hrows⟩ := hinv.holds kv hkv id slot hslot
    have hk := (List.getElem?_eq_some_iff.1 hx).1
    rw [← hlen] at hk
    exact ⟨rows[k], hrows k rows[k] x (List.getElem?_eq_getElem hk) hx⟩
  · intro now later prompt cachePrompt c' i rest hload
    rcases loadCacheSlot_spec hinv.holds hinv.placed.slots_small hload with ⟨hout, _⟩ | ⟨i', rest', slot, ins, hout, hl⟩
    · nomatch hout
    · rw [Option.some.injEq, Prod.mk.injEq] at hout
      obtain ⟨rfl, rfl⟩ := hout
      refine ⟨⟨slot, hl.slot, hl.free⟩, hl.rest_ne, ⟨ins, true, later⟩, ?_, rfl, hl.prompt_eq⟩
      rw [hl.slots, List.getElem?_set_self (List.getElem?_eq_some_iff.1 hl.slot).1]

/-- A cache whose rows are the token and the position they were computed for. -/
def tokenRows : KvCache (Nat → Int → Multiset (Int × Int)) (Int × Int) Unit where
  entries kv := kv
  compute x rows := (x.token, rows.length)
  rotate offset r := (r.1, r.2 + offset)
  forward batch kv := some (fun seq p => kv seq p +
    ((batch.filter (fun x => x.seq = seq ∧ x.pos = p)).map (fun x => (x.input.token, x.pos)) : List (Int × Int)))
  copyPrefix srcSeq dstSeq len kv := fun seq p => if seq = dstSeq then if p < len then kv srcSeq p else 0 else kv seq p
  remove seq b e kv := (fun seq' p =>
    if seq' = seq then
      if p < b then kv seq p else if e = maxInt32 then 0 else (kv seq (p + (e - b))).map (fun r => (r.1, r.2 + (b - e)))
    else kv seq' p, false)
  forward_spec := by
    intro batch kv kv' h
    rw [Option.some.injEq] at h
    subst h
    refine ⟨fun x => (x.input.token, x.pos), fun _ _ => rfl, fun x _ rows hlen _ => ?_⟩
    rw [hlen]
  copyPrefix_spec := fun _ _ _ => rfl
  remove_others := fun _ hne _ => if_neg hne
  remove_spec := fun _ _ _ _ => if_pos rfl
  remove_all := rfl

/-- A run of two slots: a prompt of two tokens is computed in the first slot, in use, and a longer prompt takes its
prefix from it. -/
theorem slots_match_cache_two :
    ∃ (s : Server (Nat → Int → Multiset (Int × Int)) Unit) (kv : Nat → Int →
      Multiset (Int × Int)) (c' : InputCache _ Unit), (system tokenRows).Reachable s ∧ s.cache.cache = some kv ∧
      (∃ r, kv 0 1 = {r} ∧ Computed tokenRows r (8, 0) [(7, 0)]) ∧
      s.cache.loadCacheSlot tokenRows 5 6 [{ token := 7 }, { token := 8 }, { token := 5 }] true =
        some (c', some (1, [{ token := 5 }])) ∧
      ∃ slot', c'.slots[1]? = some slot' ∧
        (slot'.inputs ++ [{ token := 5 }]).map Input.key = [(7, 0), (8, 0), (5, 0)] := by
  let s₀ : Server (Nat → Int → Multiset (Int × Int)) Unit :=
    { seqs := List.replicate 2 none, batchSize := 4, cache := ⟨8, List.replicate 2 {}, true, some (fun _ _ => 0)⟩ }
  let req : Request Unit := ⟨[{ token := 7 }, { token := 8 }], true, 0, -1, [], false, 1, 2⟩
  let env : Env := ⟨fun _ _ => some 9, fun _ => false, fun _ => some [], fun _ => true⟩
  have h₀ : (system tokenRows).Reachable s₀ := by
    refine Lib.System.Reachable.init ⟨2, 4, 8, true, some (fun _ _ => 0),
      by decide, by decide, fun kv hkv seq p => ?_, rfl⟩
    rw [← Option.some.inj hkv]
    rfl
  have hsome₁ : (s₀.completion tokenRows req).isSome := by decide +kernel
  obtain ⟨s₁, hs₁⟩ := Option.isSome_iff_exists.1 hsome₁
  have hsome₂ : ((s₀.completion tokenRows req).bind (Server.processBatch tokenRows env)).isSome := by decide +kernel
  rw [hs₁, Option.bind_some] at hsome₂
  obtain ⟨s₂, hs₂⟩ := Option.isSome_iff_exists.1 hsome₂
  have hreach : (system tokenRows).Reachable s₂ := (h₀.step (Or.inl ⟨req, hs₁⟩)).step (Or.inr ⟨env, hs₂⟩)
  have hslots : ((s₀.completion tokenRows req).bind (Server.processBatch tokenRows env)).map
      (fun s => (s.cache.cache.isSome, (s.cache.slots[0]?).map InputCacheSlot.inputs)) =
        some (true, some [{ token := 7 }, { token := 8 }]) := by decide +kernel
  have hload : ((s₀.completion tokenRows req).bind (Server.processBatch tokenRows env)).bind
      (fun s => (s.cache.loadCacheSlot tokenRows 5 6 [{ token := 7 }, { token := 8 }, { token := 5 }] true).map
        Prod.snd) = some (some (1, [{ token := 5 }])) := by decide +kernel
  simp only [hs₁, Option.bind_some, hs₂, Option.map_some, Option.some.injEq, Prod.mk.injEq,
    Option.map_eq_some_iff] at hslots hload
  obtain ⟨hkv, slot, hslot, hinputs⟩ := hslots
  obtain ⟨kv, hkv⟩ := Option.isSome_iff_exists.1 hkv
  obtain ⟨⟨c', out⟩, hload, rfl⟩ := hload
  obtain ⟨hrows, hloaded⟩ := slots_match_cache hreach
  obtain ⟨_, _, slot', hslot', _, hkeys⟩ := hloaded 5 6 _ true c' 1 _ hload
  obtain ⟨r, hr, hcomputed⟩ := hrows kv hkv 0 slot hslot 1 { token := 8 } (by rw [hinputs]; rfl)
  rw [hinputs] at hcomputed
  exact ⟨s₂, kv, c', hreach, hkv, ⟨r, hr, hcomputed⟩, hload, slot', hslot', hkeys⟩

end Ollama.Runner

/-!
## The best slot of a cache

`findBestCacheSlot` of both runners looks for the slot that was used first among those that are free and were used
before now, and uses it without asking whether it found one. With no free slot, or with one that was used at this very
time, it dereferences a nil pointer, unless the slot with the longest prefix happens to serve (`best_slot_iff`).
-/

namespace Ollama.Runner

open Lib

namespace BestSlotAux

variable {σ ρ μ : Type}

/-- What inputs are compared by. -/
def sameKey (x y : Input μ) : Bool := x.token = y.token ∧ x.multimodalHash = y.multimodalHash

theorem commonPrefix_count (a b : List (Input μ)) : CommonPrefix sameKey (countCommonPrefix a b) a b := by
  induction a generalizing b with
  | nil => cases b <;> exact CommonPrefix.zero
  | cons x a ih =>
    cases b with
    | nil => exact CommonPrefix.zero
    | cons y b =>
      rw [countCommonPrefix]
      split
      · exact CommonPrefix.zero
      · rename_i hsame
        exact CommonPrefix.cons (by simpa [sameKey] using hsame) (ih b)

theorem commonPrefix_count_llama (deepEqual : Llamarunner.Input → Llamarunner.Input → Bool)
    (a b : List Llamarunner.Input) :
    CommonPrefix deepEqual (Llamarunner.countCommonPrefix deepEqual a b) a b := by
  induction a generalizing b with
  | nil => cases b <;> exact CommonPrefix.zero
  | cons x a ih =>
    cases b with
    | nil => exact CommonPrefix.zero
    | cons y b =>
      rw [Llamarunner.countCommonPrefix]
      split
      · rename_i hsame
        exact CommonPrefix.cons hsame (ih b)
      · exact CommonPrefix.zero

/-- A slot that a prefix is copied to. -/
theorem set_agree {δ ι : Type} {same : ι → ι → Bool} {slots : List δ} {dst n : Nat} {t : δ} (ht : slots[dst]? = some t)
    {inputs : δ → List ι} {u : δ} {a b : List ι} (hu : inputs u = a.take n) (h : CommonPrefix same n a b) :
    ∃ t', (slots.set dst u)[dst]? = some t' ∧ CommonPrefix same n (inputs t') b := by
  refine ⟨u, by rw [List.getElem?_set_self (List.getElem?_eq_some_iff.1 ht).1], ?_⟩
  rw [hu]
  exact h.take

end BestSlotAux

open BestSlotAux

variable {σ ρ μ : Type}

/-- The search for a prompt. -/
def bestSlotPolicy (K : KvCache σ ρ μ) (prompt : List (Input μ)) : Policy (InputCache σ μ) (InputCacheSlot μ) where
  slots c := c.slots
  blank := {}
  inUse s := s.inUse
  lastUsed s := s.lastUsed
  length s := s.inputs.length
  count s := countCommonPrefix s.inputs prompt
  fork src dst n c :=
    { c.setSlot dst { c.slot dst with inputs := (c.slot src).inputs.take n } with
      cache := c.cache.map (K.copyPrefix src dst n) }
  agree s n := CommonPrefix sameKey n s.inputs prompt
  agree_of_le s n h := (commonPrefix_count s.inputs prompt).of_le h
  fork_agree c src dst s t hs ht := by
    have hsrc : c.slot src = s := by simp [InputCache.slot, hs]
    rw [hsrc]
    exact set_agree ht rfl (commonPrefix_count s.inputs prompt)

/-- The search for a prompt in the cache of the other runner. -/
def bestSlotPolicyLlama {τ : Type} (C : Llamarunner.Context τ)
    (deepEqual : Llamarunner.Input → Llamarunner.Input → Bool) (prompt : List Llamarunner.Input) :
    Policy (Llamarunner.InputCache τ) Llamarunner.InputCacheSlot where
  slots c := c.slots
  blank := {}
  inUse s := s.inUse
  lastUsed s := s.lastUsed
  length s := s.inputs.length
  count s := Llamarunner.countCommonPrefix deepEqual s.inputs prompt
  fork src dst n c :=
    { slots := c.slots.set dst { c.slot dst with inputs := (c.slot src).inputs.take n },
      lc := c.lc.map (fun lc => C.kvCacheSeqCp src dst 0 n (C.kvCacheSeqRm dst 0 (-1) lc)) }
  agree s n := CommonPrefix deepEqual n s.inputs prompt
  agree_of_le s n h := (commonPrefix_count_llama deepEqual s.inputs prompt).of_le h
  fork_agree c src dst s t hs ht := by
    have hsrc : c.slot src = s := by simp [Llamarunner.InputCache.slot, hs]
    rw [hsrc]
    exact set_agree ht rfl (commonPrefix_count_llama deepEqual s.inputs prompt)

theorem bestFrom_eq (K : KvCache σ ρ μ) (prompt : List (Input μ)) (rest : List (InputCacheSlot μ)) (i : Nat)
    (best : Option (Nat × Nat)) (oldestSlot : Option Nat) (oldest : Nat) :
    bestFrom prompt rest i best oldestSlot oldest =
      (bestSlotPolicy K prompt).bestFrom rest i best oldestSlot oldest := by
  induction rest generalizing i best oldestSlot oldest with
  | nil => rfl
  | cons s rest ih =>
    simp only [bestFrom, Policy.bestFrom, ih]
    rfl

/-- The search is the one that was settled. -/
theorem findBestCacheSlot_eq (K : KvCache σ ρ μ) (now : Nat) (prompt : List (Input μ)) (c : InputCache σ μ) :
    c.findBestCacheSlot K now prompt = (bestSlotPolicy K prompt).findBestCacheSlot now c := by
  rw [InputCache.findBestCacheSlot, bestFrom_eq K]
  rfl

theorem bestFrom_eq_llama {τ : Type} (C : Llamarunner.Context τ)
    (deepEqual : Llamarunner.Input → Llamarunner.Input → Bool) (prompt : List Llamarunner.Input)
    (rest : List Llamarunner.InputCacheSlot) (i : Nat) (best : Option (Nat × Nat)) (oldestSlot : Option Nat)
    (oldest : Nat) :
    Llamarunner.bestFrom deepEqual prompt rest i best oldestSlot oldest =
      (bestSlotPolicyLlama C deepEqual prompt).bestFrom rest i best oldestSlot oldest := by
  induction rest generalizing i best oldestSlot oldest with
  | nil => rfl
  | cons s rest ih =>
    simp only [Llamarunner.bestFrom, Policy.bestFrom, ih]
    rfl

theorem findBestCacheSlot_eq_llama {τ : Type} (C : Llamarunner.Context τ)
    (deepEqual : Llamarunner.Input → Llamarunner.Input → Bool) (now : Nat) (prompt : List Llamarunner.Input)
    (c : Llamarunner.InputCache τ) :
    c.findBestCacheSlot C deepEqual now prompt = (bestSlotPolicyLlama C deepEqual prompt).findBestCacheSlot now c := by
  rw [Llamarunner.InputCache.findBestCacheSlot, bestFrom_eq_llama C]
  rfl

/-- In both runners the search finds a free slot that has so many inputs of the prompt whenever a slot is free, fails
when none is, and does not panic, exactly when a free slot was used before now or the first slot with the longest
prefix is free and has no other inputs. -/
theorem best_slot_iff (K : KvCache σ ρ μ) (now : Nat) (prompt : List (Input μ)) (c : InputCache σ μ) {τ : Type}
    (C : Llamarunner.Context τ) (deepEqual : Llamarunner.Input → Llamarunner.Input → Bool)
    (prompt' : List Llamarunner.Input) (c' : Llamarunner.InputCache τ) :
    ((bestSlotPolicy K prompt).Selected c (c.findBestCacheSlot K now prompt) ↔
      (bestSlotPolicy K prompt).Selectable now c) ∧
    ((bestSlotPolicyLlama C deepEqual prompt').Selected c' (c'.findBestCacheSlot C deepEqual now prompt') ↔
      (bestSlotPolicyLlama C deepEqual prompt').Selectable now c') := by
  rw [findBestCacheSlot_eq, findBestCacheSlot_eq_llama]
  exact ⟨Policy.selected_iff now c, Policy.selected_iff now c'⟩

/-- The only slot is in use: instead of an error there is a panic. -/
theorem best_slot_in_use :
    ¬∀ (now : Nat) (prompt : List (Input Unit)) (c : InputCache (Nat → Int → Multiset (Int × Int)) Unit),
      c.slots ≠ [] → (∀ s ∈ c.slots, s.lastUsed ≤ now) →
      (bestSlotPolicy tokenRows prompt).Selected c (c.findBestCacheSlot tokenRows now prompt) := by
  intro h
  have := h 1 [{ token := 7 }] ⟨8, [{ inUse := true }], true, none⟩ (by simp) (by simp)
  exact this.returns (by decide)

end Ollama.Runner
