import Ollama.Kvcache.Causal

/-!
# The wrapper cache

`kvcache/wrapper.go`: several caches behind one interface, here causal ones. A batch is started on one cache after the
other; when one of them fails, those before it are unwound token by token.
-/

namespace Ollama.Kvcache

variable {κ ν : Type}

/-- `WrapperCache`. -/
structure WrapperCache (κ ν : Type) where
  caches : List (Causal κ ν)
  curType : Nat := 0

/-- The tokens of a batch are removed from a cache, each with all that follows it, whatever `Remove` returns. A
removal without an end asks the backend nothing. -/
def Causal.unwind : List (Int × Int) → Causal κ ν → Option (Causal κ ν)
  | [], c => some c
  | (pos, seq) :: rest, c => (c.remove {} seq pos maxInt32).bind (fun out => Causal.unwind rest out.1)

/-- The loop of `StartForward` from cache `i` on, `ctx` being what the backend answers each of them. The caches that
are started are unwound on the way back, the last one first. -/
def startForwardFrom (ctx : Nat → Ctx) (positions seqs : List Int) :
    Nat → List (Causal κ ν) → Option (List (Causal κ ν) × Option Err)
  | _, [] => some ([], none)
  | i, c :: rest =>
    match c.startForward (ctx i) positions seqs with
    | none => none
    | some (c, some err) => some (c :: rest, some err)
    | some (c, none) =>
      match startForwardFrom ctx positions seqs (i + 1) rest with
      | none => none
      | some (rest, none) => some (c :: rest, none)
      | some (rest, some err) => (c.unwind (positions.zip seqs)).map (fun c => (c :: rest, some err))

/-- `StartForward`. -/
def WrapperCache.startForward (ctx : Nat → Ctx) (positions seqs : List Int) (w : WrapperCache κ ν) :
    Option (WrapperCache κ ν × Option Err) :=
  (startForwardFrom ctx positions seqs 0 w.caches).map (fun out =>
    match out.2 with
    | none => ({ caches := out.1, curType := 0 }, none)
    | some err => ({ w with caches := out.1 }, some err))

end Ollama.Kvcache
