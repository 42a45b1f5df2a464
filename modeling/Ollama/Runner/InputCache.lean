import Mathlib.Data.Multiset.MapFold
import Ollama.Kvcache.Causal

/-!
# The cache as the runner sees it

The interface of `kvcache/cache.go` as a contract: what a cache holds for a sequence at a position is a multiset of
rows, and each call is described by what it does to them. The rows themselves are opaque. The model computes the row
of an input from the rows of the positions before it, and a removal that closes a gap rotates the rows it moves.

`Computed` says what a row was computed for: an input after other inputs, with the blocks that context shifts have cut
out since left out.
-/

namespace Ollama.Runner

open Kvcache (maxInt32)

/-- `model.Input`: a token, and the data of an image or another element, with its hash. -/
structure Input (μ : Type) where
  token : Int
  multimodal : Option μ := none
  multimodalHash : Nat := 0
  deriving DecidableEq, Repr

/-- What inputs are compared by. -/
def Input.key {μ : Type} (x : Input μ) : Int × Nat := (x.token, x.multimodalHash)

/-- An element of a batch: the input, its position and the sequence it is for. -/
structure BatchRow (μ : Type) where
  input : Input μ
  pos : Int
  seq : Nat
  deriving DecidableEq, Repr

/-- A cache that implements the interface, with the model that computes its rows. -/
structure KvCache (σ ρ μ : Type) where
  /-- The rows of a sequence at a position. -/
  entries : σ → Nat → Int → Multiset ρ
  /-- The row of an input after the rows of the positions before it. -/
  compute : Input μ → List ρ → ρ
  /-- A row moved by some positions. -/
  rotate : Int → ρ → ρ
  /-- `StartForward` and the forward pass of the model, when both succeed. -/
  forward : List (BatchRow μ) → σ → Option σ
  copyPrefix : (srcSeq dstSeq : Nat) → Int → σ → σ
  /-- `Remove`: the cache it leaves, and whether it fails. -/
  remove : Nat → (beginIndex endIndex : Int) → σ → σ × Bool
  /-- A forward pass adds a row for every element of the batch. Where the rows of all positions before the element's
  are there, once each, it is the one computed from them. -/
  forward_spec : ∀ {batch : List (BatchRow μ)} {s s' : σ}, forward batch s = some s' → ∃ row : BatchRow μ → ρ,
    (∀ seq p, entries s' seq p = entries s seq p + ((batch.filter (fun x => x.seq = seq ∧ x.pos = p)).map row :
    List ρ)) ∧
    ∀ x ∈ batch, ∀ rows : List ρ, (rows.length : Int) = x.pos →
      (∀ (k : Nat) (r : ρ), rows[k]? = some r → entries s' x.seq k = {r}) → row x = compute x.input rows
  /-- `CopyPrefix` makes the positions below `len` of one sequence all there is of another. -/
  copyPrefix_spec : ∀ {srcSeq dstSeq : Nat} {len : Int} {s : σ}, srcSeq ≠ dstSeq → ∀ seq p,
    entries (copyPrefix srcSeq dstSeq len s) seq p =
      if seq = dstSeq then if p < len then entries s srcSeq p else 0 else entries s seq p
  /-- A removal is of the sequence it is for, whether it fails or not. -/
  remove_others : ∀ {seq : Nat} {b e : Int} {s : σ}, ∀ seq', seq' ≠ seq → ∀ p,
    entries (remove seq b e s).1 seq' p = entries s seq' p
  /-- A removal that succeeds cuts out a block and moves what follows it down. With `MaxInt32` for its end it removes
  everything from its beginning on. -/
  remove_spec : ∀ {seq : Nat} {b e : Int} {s : σ}, 0 ≤ b → b ≤ e → (remove seq b e s).2 = false → ∀ p,
    entries (remove seq b e s).1 seq p =
      if p < b then entries s seq p
      else if e = maxInt32 then 0
      else (entries s seq (p + (e - b))).map (rotate (b - e))
  /-- The removal of a whole sequence does not fail. -/
  remove_all : ∀ {seq : Nat} {s : σ}, (remove seq 0 maxInt32 s).2 = false

/-- The row was computed for an input with the given key after inputs with the given keys, up to context shifts: each
cuts a block out of the inputs before it and rotates the row by its length. -/
inductive Computed {σ ρ μ : Type} (K : KvCache σ ρ μ) : ρ → Int × Nat → List (Int × Nat) → Prop where
  | compute (x : Input μ) (prev : List (Int × Nat)) (rows : List ρ) (hlen : rows.length = prev.length)
      (hrows : ∀ (i : Nat) (r : ρ) (key : Int × Nat), rows[i]? = some r → prev[i]? = some key →
        Computed K r key (prev.take i)) :
      Computed K (K.compute x rows) x.key prev
  | shift {r : ρ} {key : Int × Nat} (keep discard prev : List (Int × Nat))
      (h : Computed K r key (keep ++ discard ++ prev)) :
      Computed K (K.rotate (-discard.length) r) key (keep ++ prev)

end Ollama.Runner

/-!
## The input cache

`runner/ollamarunner/cache.go`: the slots of the runner, each with the inputs whose rows the KV cache holds for it. A
slot is named by its place, which is also its sequence in the KV cache. A call that panics has no outcome (`none`).

Times are numbers, and the times a call reads are arguments of it.
-/

namespace Ollama.Runner

open Kvcache (maxInt32)

variable {σ ρ μ : Type}

/-- `InputCacheSlot`. -/
structure InputCacheSlot (μ : Type) where
  inputs : List (Input μ) := []
  inUse : Bool := false
  lastUsed : Nat := 0
  deriving DecidableEq, Repr

/-- `InputCache`. It is enabled when there is a KV cache. -/
structure InputCache (σ μ : Type) where
  numCtx : Nat
  slots : List (InputCacheSlot μ)
  multiUserCache : Bool
  cache : Option σ

/-- The slot at a place. -/
def InputCache.slot (c : InputCache σ μ) (i : Nat) : InputCacheSlot μ := (c.slots[i]?).getD {}

/-- Another slot at a place. -/
def InputCache.setSlot (c : InputCache σ μ) (i : Nat) (slot : InputCacheSlot μ) : InputCache σ μ :=
  { c with slots := c.slots.set i slot }

/-- `countCommonPrefix`. -/
def countCommonPrefix : List (Input μ) → List (Input μ) → Nat
  | x :: a, y :: b =>
    if x.token ≠ y.token ∨ x.multimodalHash ≠ y.multimodalHash then 0 else countCommonPrefix a b + 1
  | _, _ => 0

/-- Whether a count is greater than the longest so far, of which there is none at first. -/
def longer (count : Nat) : Option (Nat × Nat) → Bool
  | none => true
  | some (_, longest) => decide (count > longest)

/-- The loop of `findLongestCacheSlot` from slot `i` on: the slot with the longest common prefix, and its length. -/
def longestFrom (prompt : List (Input μ)) : List (InputCacheSlot μ) → Nat → Option (Nat × Nat) → Option (Nat × Nat)
  | [], _, best => best
  | s :: rest, i, best =>
    if s.inUse then longestFrom prompt rest (i + 1) best
    else
      let count := countCommonPrefix s.inputs prompt
      longestFrom prompt rest (i + 1) (if longer count best then some (i, count) else best)

/-- The loop of `findBestCacheSlot` from slot `i` on: the slot with the longest common prefix, in use or not, and the
one that is not in use and was used first, before the time `oldest`. -/
def bestFrom (prompt : List (Input μ)) :
    List (InputCacheSlot μ) → Nat → Option (Nat × Nat) → Option Nat → Nat → Option (Nat × Nat) × Option Nat
  | [], _, best, oldestSlot, _ => (best, oldestSlot)
  | s :: rest, i, best, oldestSlot, oldest =>
    let count := countCommonPrefix s.inputs prompt
    let best := if longer count best then some (i, count) else best
    if s.lastUsed < oldest ∧ ¬s.inUse then
      bestFrom prompt rest (i + 1) best (some i) s.lastUsed
    else
      bestFrom prompt rest (i + 1) best oldestSlot oldest

/-- `findBestCacheSlot`: panics without slots, and when it needs the slot that was used first and has none. The prefix
is copied to the slot when another has it. An error is a result without a slot. -/
def InputCache.findBestCacheSlot (K : KvCache σ ρ μ) (now : Nat) (prompt : List (Input μ)) (c : InputCache σ μ) :
    Option (InputCache σ μ × Option (Nat × Nat)) :=
  match bestFrom prompt c.slots 0 none none now with
  | (some (longestSlot, longest), oldestSlot) =>
    if longest = (c.slot longestSlot).inputs.length ∧ ¬(c.slot longestSlot).inUse then
      some (c, some (longestSlot, longest))
    else
      match oldestSlot with
      | none => none
      | some oldestSlot =>
        if (c.slot oldestSlot).inUse then
          some (c, none)
        else if longest > 0 ∧ longestSlot ≠ oldestSlot then
          let c' := c.setSlot oldestSlot { c.slot oldestSlot with inputs := (c.slot longestSlot).inputs.take longest }
          some ({ c' with cache := c.cache.map (K.copyPrefix longestSlot oldestSlot longest) },
            some (oldestSlot, longest))
        else
          some (c, some (oldestSlot, longest))
  | (none, _) => none

/-- What `LoadCacheSlot` returns: the slot and the rest of the prompt, or an error. -/
abbrev Loaded (μ : Type) := Option (Nat × List (Input μ))

/-- The slot and the number of inputs that are in it, by the policy; an error without a free slot. -/
def InputCache.findSlot (K : KvCache σ ρ μ) (now : Nat) (prompt : List (Input μ)) (c : InputCache σ μ) :
    Option (InputCache σ μ × Option (Nat × Nat)) :=
  if c.multiUserCache then c.findBestCacheSlot K now prompt else some (c, longestFrom prompt c.slots 0 none)

/-- `LoadCacheSlot`, at the times `now` and `later`. An empty prompt panics, and so do the cases of `findBestCacheSlot`. -/
def InputCache.loadCacheSlot (K : KvCache σ ρ μ) (now later : Nat) (prompt : List (Input μ)) (cachePrompt : Bool)
    (c : InputCache σ μ) : Option (InputCache σ μ × Loaded μ) :=
  match c.findSlot K now prompt with
  | none => none
  | some (c, none) => some (c, none)
  | some (c, some (i, count)) =>
    let c := c.setSlot i { c.slot i with inUse := true, lastUsed := later }
    let load (cache : Option σ) (numPast : Nat) : Option (InputCache σ μ × Loaded μ) :=
      some ({ c.setSlot i { c.slot i with inputs := (c.slot i).inputs.take numPast } with cache := cache },
        some (i, prompt.drop numPast))
    if prompt.length = 0 then
      none
    else
      let numPast := if cachePrompt then count else 0
      let numPast := if numPast = prompt.length then numPast - 1 else numPast
      match c.cache with
      | none => load none numPast
      | some kv =>
        let out := K.remove i numPast maxInt32 kv
        if out.2 then
          let out := K.remove i 0 maxInt32 out.1
          if out.2 then some ({ c with cache := some out.1 }, none) else load (some out.1) 0
        else
          load (some out.1) numPast

/-- `ShiftDiscard`. -/
def InputCache.shiftDiscard (c : InputCache σ μ) (inputLen numKeep : Int) : Int :=
  let targetFree := max (((c.numCtx : Int) - numKeep).tdiv 2) 1
  let currentFree := (c.numCtx : Int) - inputLen
  let discard := targetFree - currentFree
  if discard < 0 then 0 else discard

/-- `ShiftCacheSlot`: no outcome where it returns an error, which ends the process. -/
def InputCache.shiftCacheSlot (K : KvCache σ ρ μ) (i : Nat) (numKeep : Nat) (c : InputCache σ μ) :
    Option (InputCache σ μ) :=
  if numKeep ≥ c.numCtx then
    none
  else
    let inputs := (c.slot i).inputs
    let discard := (c.shiftDiscard inputs.length numKeep).toNat
    if discard = 0 then
      some c
    else
      let shift (cache : Option σ) : Option (InputCache σ μ) :=
        if inputs.length < discard then none
        else
          some { c.setSlot i { c.slot i with
            inputs := (inputs.take numKeep ++ inputs.drop (numKeep + discard)).take (inputs.length - discard) } with
              cache := cache }
      match c.cache with
      | none => shift none
      | some kv =>
        let out := K.remove i numKeep (numKeep + discard) kv
        if out.2 then none else shift (some out.1)

end Ollama.Runner
