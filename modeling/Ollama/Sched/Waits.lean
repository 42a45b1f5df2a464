import Mathlib.Logic.Relation
import Ollama.Sched.Steps

/-!
# Who waits for whom

A goroutine waits for the one that has the lock it wants, and, while a channel is full, for the one that receives from
it. The goroutines are those that ever hold a lock or are waited for: the two loops, the loads, the callbacks of
timers and the call of `expireRunner` that has the lock on the loaded runners. Goroutines that wait without a lock, to
send a finished event, to send an expired event again or to queue a request again, are waited for by none.
-/

namespace Ollama.Sched

open Lib

/-- The goroutines that hold locks. -/
inductive Goroutine where
  | pending
  | completed
  | loader (r : Nat)
  | callback (r : Nat)
  | expirer
  deriving DecidableEq

namespace Goroutine

/-- The goroutine has the lock on the loaded runners. -/
def holdsLoaded (s : Scheduler) : Goroutine → Prop
  | .pending => s.loadedMu = some .pending
  | .completed => s.loadedMu = some .completed
  | .loader _ => s.loadedMu = some .loader
  | .callback _ => s.loadedMu = some .callback
  | .expirer => s.loadedMu = some .expirer

/-- The goroutine has the lock of the runner. -/
def holdsRef (s : Scheduler) : Goroutine → Nat → Prop
  | .pending, r => (s.runners r).refMu = some .pending
  | .completed, r => (s.runners r).refMu = some .completed
  | .loader r', r => r' = r ∧ (s.runners r).refMu = some .loader
  | .callback r', r => r' = r ∧ (s.runners r).refMu = some .callback
  | .expirer, r => (s.runners r).refMu = some .expirer

/-- The goroutine is at the lock on the loaded runners. -/
def wantsLoaded (s : Scheduler) : Goroutine → Prop
  | .pending => (∃ q, s.pending = .trying q) ∨ (∃ q n, s.pending = .placing q n) ∨ (∃ q x, s.pending = .loading q x) ∨
      ∃ q, s.pending = .choosing q
  | .completed => (∃ q, s.completed = .finished q) ∨ ∃ r, s.completed = .unloading r
  | _ => False

/-- The goroutine is at the lock of the runner. -/
def wantsRef (s : Scheduler) : Goroutine → Nat → Prop
  | .pending, r => (∃ q, s.pending = .reuse q r) ∨ (∃ q, s.pending = .using q r) ∨
      (∃ q rs, s.pending = .freeing q (r :: rs)) ∨
      (∃ q first rs, s.pending = .scanning q first (r :: rs)) ∨ ∃ q, s.pending = .expiring q r
  | .completed, r => (∃ q, s.completed = .finishing q r) ∨ s.completed = .expired r
  | .callback r', r => r' = r ∧ 0 < (s.runners r).callbacks ∧ (s.runners r).refMu ≠ some .callback
  | .expirer, r => s.expirer = .locking r
  | .loader _, _ => False

/-- The goroutine sends an expired event. -/
def sendsExpired (s : Scheduler) : Goroutine → Prop
  | .pending => ∃ q r, s.pending = .evicting q r
  | .completed => ∃ r, s.completed = .idling r
  | .loader r => (s.runners r).loader = .failing
  | .callback r => (s.runners r).refMu = some .callback
  | .expirer => ∃ r, s.expirer = .sending r

end Goroutine

open Goroutine

/-- One goroutine waits for another. -/
inductive Waits (s : Scheduler) : Goroutine → Goroutine → Prop where
  | loaded {g g' : Goroutine} : g.wantsLoaded s → g'.holdsLoaded s → Waits s g g'
  | ref {g g' : Goroutine} {r : Nat} : g.wantsRef s r → g'.holdsRef s r → Waits s g g'
  | expired {g : Goroutine} : g.sendsExpired s → ¬s.expiredRoom → Waits s g .completed
  | unloaded : s.completed = .unloaded → ¬s.room s.unloadedCh (s.pending = .idle ∨ ∃ q, s.pending = .waiting q) →
      Waits s .completed .pending

/-- A goroutine has the lock on the loaded runners and waits for that of a runner, and the one that has it waits,
through however many others, for the first. -/
def LockCycle (s : Scheduler) : Prop :=
  ∃ g g' r, g.holdsLoaded s ∧ g.wantsRef s r ∧ g'.holdsRef s r ∧ Relation.TransGen (Waits s) g' g

/-- The steps that send an expired event. -/
def Action.sendsExpired : Action → Bool
  | .evict | .sendIdle | .sendFailed _ | .sendCallback _ | .retry _ | .sendExpire => true
  | _ => false

/-- The runners that `updateFreeSpace` has still to visit. -/
def Pending.toVisit : Pending → List Nat
  | .freeing _ rs => rs
  | _ => []

/-- `processCompleted` takes the lock of a runner it will unload only while nobody with the lock on the loaded runners
has still to take it, the lock on the loaded runners is taken for a runner only while `processCompleted` is not about
to unload it, and `expiredCh` does not get full. -/
def locksInOrder (s : Scheduler) (a : Action) : Prop :=
  s.expiredCh.length + a.sendsExpired.toNat < s.maxQueue ∧
  (a = .checkExpired → ∀ r, s.completed = .expired r → r ∉ s.pending.toVisit ∧ s.expirer ≠ .locking r) ∧
  (∀ numCtx, a = .updateFreeSpace numCtx → ∀ r ∈ s.loaded.map Prod.snd, s.completed ≠ .unloading r) ∧
  ∀ modelPath, a = .expireRunner modelPath → ∀ r, s.loaded.lookup modelPath = some r → s.completed ≠ .unloading r

end Ollama.Sched
