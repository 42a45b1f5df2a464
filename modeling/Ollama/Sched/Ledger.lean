import Mathlib.Data.Multiset.Basic
import Mathlib.Logic.Function.Basic
import Ollama.Sched.Scheduler

/-!
# What the scheduler owes to its requests

The life of a request, apart from how a runner is found for it: it waits, it is granted a runner or a runner is loaded
for it, it is answered, and when its context is done its finished event is sent and handled. `Ledger` keeps what this
needs, the requests that wait and the finished events without an order, and its steps are those at which the life of
some request changes.

`Ledger.Ok` is what holds of the books in every run: a request is in one place at a time, a request that waits has no
answer, and no finished event is sent twice.
-/

namespace Ollama.Sched

open Lib

/-- What is written down of a request. -/
structure Life where
  done : Bool := false
  finisher : Bool := false
  answers : List Answer := []
  granted : Option Nat := none
  finished : Bool := false

/-- The books of the scheduler. -/
structure Ledger where
  nextRequest : Nat := 0
  /-- The requests that wait for a runner. -/
  waiting : Multiset Nat := 0
  /-- The request that is sent a runner that was loaded before. -/
  handing : Option (Nat × Nat) := none
  loader : Nat → Loader := fun _ => .gone
  /-- The requests whose finished event is on its way. -/
  finishes : Multiset Nat := 0
  lives : Nat → Life := fun _ => {}

namespace Ledger

/-- The books with another entry for a request. -/
def write (l : Ledger) (q : Nat) (x : Life) : Ledger := { l with lives := Function.update l.lives q x }

/-- One line of the books, with the request that is given up on it. -/
inductive Step (l : Ledger) : Option Nat → Ledger → Prop where
  | enter : Step l none { l.write l.nextRequest {} with
      nextRequest := l.nextRequest + 1, waiting := l.nextRequest ::ₘ l.waiting }
  | turnAway : Step l none { l.write l.nextRequest { answers := [.maxQueue] } with nextRequest := l.nextRequest + 1 }
  | cancel {q : Nat} : q < l.nextRequest → Step l none (l.write q { l.lives q with done := true })
  | sendFinished {q : Nat} : (l.lives q).finisher = true → (l.lives q).done = true →
      Step l none { l.write q { l.lives q with finisher := false } with finishes := q ::ₘ l.finishes }
  | drop {q : Nat} {rest : Multiset Nat} : l.waiting = q ::ₘ rest → (l.lives q).done = true →
      Step l (some q) { l with waiting := rest }
  | grant {q r : Nat} {rest : Multiset Nat} : l.waiting = q ::ₘ rest → l.handing = none →
      Step l none { l.write q { l.lives q with granted := some r } with waiting := rest, handing := some (q, r) }
  | handOver {q r : Nat} : l.handing = some (q, r) →
      Step l none { l.write q { l.lives q with
      answers := (l.lives q).answers ++ [.runner r], finisher := true } with handing := none }
  | fail {q : Nat} {rest : Multiset Nat} {e : Answer} : l.waiting = q ::ₘ rest → (∀ r, e ≠ .runner r) →
      Step l none { l.write q { l.lives q with answers := (l.lives q).answers ++ [e] } with waiting := rest }
  | load {q r : Nat} {rest : Multiset Nat} : l.waiting = q ::ₘ rest → l.loader r = .gone →
      Step l none
        { l.write q { l.lives q with granted := some r } with
          waiting := rest, loader := Function.update l.loader r (.starting q) }
  | running {q r : Nat} : l.loader r = .starting q →
      Step l none { l.write q { l.lives q with finisher := true } with
      loader := Function.update l.loader r (.handing q) }
  | handLoaded {q r : Nat} : l.loader r = .handing q →
      Step l none
        { l.write q { l.lives q with answers := (l.lives q).answers ++ [.runner r] } with
          loader := Function.update l.loader r .gone }
  | failed {q r : Nat} : l.loader r = .starting q →
      Step l none
        { l.write q { l.lives q with granted := none, answers := (l.lives q).answers ++ [.runningError] } with
          loader := Function.update l.loader r .failing }
  | sendFailed {r : Nat} : l.loader r = .failing → Step l none { l with loader := Function.update l.loader r .gone }
  | finish {q : Nat} {rest : Multiset Nat} : l.finishes = q ::ₘ rest →
      Step l none { l.write q { l.lives q with finished := true } with finishes := rest }

/-- The runs of the books from the empty ones. -/
def system : System Ledger where
  init l := l = {}
  step l l' := ∃ d, Step l d l'

/-- The request has not been answered, and some goroutine has it. -/
def Held (l : Ledger) (q : Nat) : Prop :=
  q ∈ l.waiting ∨ (∃ r, l.handing = some (q, r)) ∨ ∃ r, l.loader r = .starting q ∨ l.loader r = .handing q

/-- The request is held, or was answered once, or was given up after its context was done. -/
def Accounted (l : Ledger) (q : Nat) : Prop :=
  l.Held q ∨ (l.lives q).answers.length = 1 ∨ ((l.lives q).answers = [] ∧ (l.lives q).done = true)

/-- The books are in order. -/
structure Ok (l : Ledger) : Prop where
  once : l.waiting.Nodup
  waiting : ∀ q ∈ l.waiting, q < l.nextRequest ∧ (l.lives q).answers = [] ∧ (l.lives q).granted = none ∧
    (l.lives q).finisher = false ∧ (l.lives q).finished = false ∧ q ∉ l.finishes
  handing : ∀ q r, l.handing = some (q, r) → q < l.nextRequest ∧ (l.lives q).answers = [] ∧
    (l.lives q).granted = some r ∧
    (l.lives q).finisher = false ∧ (l.lives q).finished = false ∧ q ∉ l.finishes ∧ l.loader r ≠ .starting q ∧
      l.loader r ≠ .handing q
  starting : ∀ q r, l.loader r = .starting q → q < l.nextRequest ∧ (l.lives q).answers = [] ∧
    (l.lives q).granted = some r ∧ (l.lives q).finisher = false ∧ (l.lives q).finished = false ∧ q ∉ l.finishes
  loaded : ∀ q r, l.loader r = .handing q → q < l.nextRequest ∧ (l.lives q).answers = [] ∧ (l.lives q).granted = some r
  finisher : ∀ q, (l.lives q).finisher = true → q < l.nextRequest ∧ (l.lives q).granted ≠ none ∧
    (l.lives q).finished = false ∧ q ∉ l.finishes
  finishes : ∀ q ∈ l.finishes, q < l.nextRequest ∧ (l.lives q).granted ≠ none ∧ (l.lives q).done = true ∧
    (l.lives q).finished = false
  sentOnce : l.finishes.Nodup
  finished : ∀ q, (l.lives q).finished = true → q < l.nextRequest ∧ (l.lives q).done = true
  granted : ∀ q, (l.lives q).granted ≠ none → q < l.nextRequest
  answered : ∀ q r, .runner r ∈ (l.lives q).answers → (l.lives q).granted = some r
  accounted : ∀ q, q < l.nextRequest → l.Accounted q

@[simp] theorem write_lives (l : Ledger) (q q' : Nat) (x : Life) :
    (l.write q x).lives q' = if q' = q then x else l.lives q' :=
  Function.update_apply ..

end Ledger

end Ollama.Sched
