import Ollama.Runner.Server
import Ollama.Kvcache.Lemmas.Counts

/-!
# The runner over a causal cache

The cache of `kvcache/causal.go` behind the interface the runner uses (`causalCache`), and the server with the cache
that `NewInputCache` makes of one size for all slots (`causalSystem`). What matters here is which cells there are, so
a row of the contract is a cell and nothing else.

The backend and the model are parameters: what the backend answers to each call, and the rows the model stores in each
layer. A call that panics, and a forward pass that fails, has no outcome.
-/

namespace Ollama.Runner

open Kvcache

variable {κ ν μ : Type}

/-- A causal cache as the runner uses it, after a number of calls that the backend has answered. Its invariant holds,
and its cells have the sequences and positions of batches. -/
structure CausalState (κ ν : Type) where
  cache : Causal κ ν
  inv : CacheInv cache
  range : cache.InRange
  calls : Nat

/-- What the backend answers to each call, and the rows the model stores for a batch, layer by layer. -/
structure Backend (κ ν μ : Type) where
  ctx : Nat → Ctx
  rows : Nat → Causal κ ν → List (BatchRow μ) → List (List (κ × ν))

/-- `options.Positions`. -/
def positions (batch : List (BatchRow μ)) : List Int := batch.map BatchRow.pos

/-- `options.Sequences`. -/
def sequences (batch : List (BatchRow μ)) : List Int := batch.map (fun x => (x.seq : Int))

/-- `CopyPrefix`. -/
def CausalState.copyPrefix (srcSeq dstSeq : Nat) (len : Int) (s : CausalState κ ν) : CausalState κ ν where
  cache := s.cache.copyPrefix srcSeq dstSeq len
  inv := s.inv.copyPrefix srcSeq dstSeq len
  range := s.range.copyPrefix srcSeq (Int.natCast_nonneg dstSeq) len
  calls := s.calls

/-- `Remove`, of positions a context can have, and whether it fails. -/
def CausalState.remove (B : Backend κ ν μ) (seq : Nat) (b e : Int) (s : CausalState κ ν) : CausalState κ ν × Bool :=
  if h : 0 ≤ b ∧ b ≤ e ∧ e ≤ maxInt32 then
    match hr : s.cache.remove (B.ctx s.calls) seq b e with
    | some (c, err) => (⟨c, s.inv.remove hr, s.range.remove h.1 h.2.1 h.2.2 hr, s.calls + 1⟩, err.isSome)
    | none => (s, true)
  else
    (s, true)

section Forward

variable [Zero κ] [Zero ν]

/-- The positions are still those a context can have after a batch of such positions. -/
theorem inRange_forward {ctx : Ctx} {batch : List (BatchRow μ)} {rows : List (List (κ × ν))} {c c' : Causal κ ν}
    (hinv : CacheInv c) (h : c.InRange) (hpos : ∀ x ∈ batch, 0 ≤ x.pos ∧ x.pos < maxInt32)
    (hf : c.forward ctx (positions batch) (sequences batch) rows = some (c', none)) : c'.InRange := by
  unfold Causal.forward at hf
  have hpos' : ∀ p ∈ positions batch, 0 ≤ p ∧ p < maxInt32 := by
    intro p hp
    obtain ⟨x, hx, rfl⟩ := List.mem_map.1 hp
    exact hpos x hx
  have hseq : ∀ s ∈ sequences batch, 0 ≤ s := by
    intro s hs
    obtain ⟨x, _, rfl⟩ := List.mem_map.1 hs
    exact Int.natCast_nonneg x.seq
  split at hf
  · rename_i c₁ hs
    simp only [Option.map_eq_some_iff, Prod.mk.injEq, and_true] at hf
    obtain ⟨_, hput, rfl⟩ := hf
    have hrange := h.startForward hinv hpos' hseq hs
    intro x hx
    rw [(putLayers_layer hput).2.1] at hx
    exact hrange x hx
  · exact h.startForward hinv hpos' hseq hf

/-- `StartForward` and the forward pass of the model, on positions a context can have. -/
def CausalState.forward (B : Backend κ ν μ) (batch : List (BatchRow μ)) (s : CausalState κ ν) :
    Option (CausalState κ ν) :=
  if hpos : ∀ x ∈ batch, 0 ≤ x.pos ∧ x.pos < maxInt32 then
    match hf : s.cache.forward (B.ctx s.calls) (positions batch) (sequences batch) (B.rows s.calls s.cache batch) with
    | some (c, none) => some ⟨c, (forward_fixed s.inv hf).1, inRange_forward s.inv s.range hpos hf, s.calls + 1⟩
    | _ => none
  else
    none

/-- A forward pass that succeeds. -/
theorem CausalState.forward_eq_some {B : Backend κ ν μ} {batch : List (BatchRow μ)} {s s' : CausalState κ ν}
    (h : s.forward B batch = some s') :
    s.cache.forward (B.ctx s.calls) (positions batch) (sequences batch) (B.rows s.calls s.cache batch) =
      some (s'.cache, none) := by
  unfold CausalState.forward at h
  split at h
  · split at h
    · rename_i c hf
      rw [← Option.some.inj h]
      exact hf
    · nomatch h
  · nomatch h

/-- The cells of a sequence after a forward pass. -/
theorem CausalState.count_forward {B : Backend κ ν μ} {batch : List (BatchRow μ)} {s s' : CausalState κ ν}
    (h : s.forward B batch = some s') (seq : Nat) (p : Int) :
    s'.cache.count seq p = s.cache.count seq p + (batch.filter (fun x => x.seq = seq ∧ x.pos = p)).length := by
  have hzip : (positions batch).zip (sequences batch) = batch.map (fun x => (x.pos, (x.seq : Int))) :=
    List.zip_map'
  have hbatch : ((positions batch).zip (sequences batch)).countP (fun x => decide ((seq : Int) ∈ [x.2] ∧ x.1 = p)) =
      (batch.filter (fun x => x.seq = seq ∧ x.pos = p)).length := by
    rw [hzip, List.countP_map, ← List.countP_eq_length_filter]
    refine List.countP_congr (fun x _ => ?_)
    simp only [Function.comp_apply, decide_eq_true_eq, List.mem_singleton, Int.natCast_inj]
    exact and_congr_left (fun _ => eq_comm)
  have hf := CausalState.forward_eq_some h
  unfold Causal.forward at hf
  split at hf
  · rename_i c₁ hs
    simp only [Option.map_eq_some_iff, Prod.mk.injEq, and_true] at hf
    obtain ⟨_, hput, rfl⟩ := hf
    rw [Causal.count, (putLayers_layer hput).2.1, countP_startForward (ofUsed_mem seq p) s.inv hs, hbatch]
    rfl
  · rw [Causal.count, countP_startForward (ofUsed_mem seq p) s.inv hf, hbatch]
    rfl

end Forward

/-- How `Remove` ends: with a cache and maybe an error of the cache's own, or, where it is asked for other positions
or panics, as a failure that changes nothing. -/
theorem CausalState.remove_cases (B : Backend κ ν μ) (seq : Nat) (b e : Int) (s : CausalState κ ν) :
    (0 ≤ b ∧ b ≤ e ∧ e ≤ maxInt32 ∧ ∃ err, s.cache.remove (B.ctx s.calls) seq b e =
      some ((s.remove B seq b e).1.cache, err) ∧ (s.remove B seq b e).2 = err.isSome) ∨
    ((s.remove B seq b e) = (s, true) ∧
      (0 ≤ b → b ≤ e → e ≤ maxInt32 → s.cache.remove (B.ctx s.calls) seq b e = none)) := by
  unfold CausalState.remove
  split
  · rename_i hguard
    split
    · rename_i c err hr
      exact .inl ⟨hguard.1, hguard.2.1, hguard.2.2, err, hr, rfl⟩
    · rename_i hr
      exact .inr ⟨rfl, fun _ _ _ => hr⟩
  · rename_i hguard
    exact .inr ⟨rfl, fun h1 h2 h3 => absurd ⟨h1, h2, h3⟩ hguard⟩

/-- A removal without an end does not fail. -/
theorem CausalState.remove_open (B : Backend κ ν μ) (seq : Nat) {b : Int} (h0 : 0 ≤ b) (hb : b ≤ maxInt32)
    (s : CausalState κ ν) :
    (s.remove B seq b maxInt32).2 = false := by
  have hopen : ∃ c, s.cache.remove (B.ctx s.calls) seq b maxInt32 = some (c, none) := Kvcache.remove_open s.range
  obtain ⟨c, hc⟩ := hopen
  rcases CausalState.remove_cases B seq b maxInt32 s with ⟨_, _, _, err, hr, hfail⟩ | ⟨_, hpanic⟩
  · rw [hc] at hr
    rw [hfail, ← (Prod.mk.inj (Option.some.inj hr)).2]
    rfl
  · rw [hpanic h0 hb (Int.le_refl _)] at hc
    nomatch hc

/-! ## NewInputCache -/

/-- The cache of a model, made by `NewCausalCache` or `NewSWACache`, with the configuration its backend has for it. -/
structure CausalModel (κ : Type) where
  windowSize : Int
  window : IsInt32 windowSize
  shiftFn : Option (Nat → κ → Int → κ)
  config : CacheConfig

theorem cells_init {windowSize : Int} {shiftFn : Option (Nat → κ → Int → κ)} {config : CacheConfig} {capacity : Nat}
    {c : Causal κ ν} (h : Causal.init windowSize shiftFn config capacity = some c) :
    c.cells = List.replicate c.capacity {} ∧ capacity ≤ c.capacity ∧ c.shiftFn = shiftFn := by
  unfold Causal.init at h
  rw [Option.ite_none_right_eq_some, Option.some.injEq] at h
  obtain ⟨_, rfl⟩ := h
  refine ⟨rfl, le_roundUp _ _ ?_, rfl⟩
  show 0 < if config.cachePadding = 0 then 1 else config.cachePadding
  split <;> omega

theorem inRange_init {windowSize : Int} {shiftFn : Option (Nat → κ → Int → κ)} {config : CacheConfig} {capacity : Nat}
    {c : Causal κ ν} (h : Causal.init windowSize shiftFn config capacity = some c) : c.InRange := by
  intro x hx s hs
  rw [(cells_init h).1] at hx
  rw [List.eq_of_mem_replicate hx] at hs
  nomatch hs

/-- `Init`. -/
def CausalState.init (m : CausalModel κ) (capacity : Nat) : Option (CausalState κ ν) :=
  match h : Causal.init m.windowSize m.shiftFn m.config capacity with
  | some c => some ⟨c, cacheInv_init m.window h, inRange_init h, 0⟩
  | none => none

/-- `NewInputCache`: an error without an entry for every slot, and a panic without a slot. -/
def newInputCache (m : CausalModel κ) (kvSize numSlots : Nat) (multiUserCache : Bool) :
    Option (InputCache (CausalState κ ν) μ) :=
  if kvSize / numSlots < 1 then
    none
  else
    (CausalState.init m kvSize).map (fun kv => ⟨kvSize / numSlots, List.replicate numSlots {}, multiUserCache, some kv⟩)

/-! ## The system -/

variable [Zero κ] [Zero ν]

/-- The causal cache behind the interface of the runner. -/
def causalCache (B : Backend κ ν μ) : KvCache (CausalState κ ν) Unit μ where
  entries s seq p := Multiset.replicate (s.cache.count seq p) ()
  compute _ _ := ()
  rotate _ r := r
  forward := CausalState.forward B
  copyPrefix := CausalState.copyPrefix
  remove := CausalState.remove B
  forward_spec := by
    intro batch s s' h
    refine ⟨fun _ => (), fun seq p => ?_, fun _ _ _ _ _ => rfl⟩
    rw [CausalState.count_forward h, Multiset.replicate_add, List.map_const', Multiset.coe_replicate]
  copyPrefix_spec := by
    intro srcSeq dstSeq len s hne seq p
    have hcount : (s.copyPrefix srcSeq dstSeq len).cache.count seq p = _ :=
      count_copyPrefix (mt Int.natCast_inj.1 hne) s.cache seq p
    rw [hcount]
    by_cases hs : seq = dstSeq
    · rw [if_pos (congrArg Nat.cast hs), if_pos hs]
      split <;> rfl
    · rw [if_neg (mt Int.natCast_inj.1 hs), if_neg hs]
  remove_others := by
    intro seq b e s seq' hne p
    rcases CausalState.remove_cases B seq b e s with ⟨_, _, _, err, hr, _⟩ | ⟨hsame, _⟩
    · rw [count_remove_of_ne (mt Int.natCast_inj.1 hne) hr]
    · rw [hsame]
  remove_spec := by
    intro seq b e s hb hbe hok p
    rcases CausalState.remove_cases B seq b e s with ⟨_, _, he, err, hr, hfail⟩ | ⟨hsame, _⟩
    · rw [hok] at hfail
      obtain rfl : err = none := Option.not_isSome_iff_eq_none.1 (by rw [← hfail]; nofun)
      rw [count_remove_self hb hbe he s.range hr]
      split
      · rfl
      · split
        · rfl
        · exact (Multiset.map_id _).symm
    · rw [hsame] at hok
      nomatch hok
  remove_all := by
    intro seq s
    exact CausalState.remove_open B seq (Int.le_refl 0) (by decide) s

/-- The runs of a server over the causal cache of a model. -/
def causalSystem (B : Backend κ ν μ) (m : CausalModel κ) : Lib.System (Server (CausalState κ ν) μ) where
  init s := ∃ (kvSize numSlots batchSize : Nat) (multiUserCache : Bool) (cache : InputCache (CausalState κ ν) μ),
    newInputCache m kvSize numSlots multiUserCache = some cache ∧
    s = { seqs := List.replicate numSlots none, batchSize := batchSize, cache := cache }
  step := (system (causalCache B)).step

end Ollama.Runner
