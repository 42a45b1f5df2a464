import Ollama.Lib.System
import Ollama.Lib.Utf8

/-!
# The relay reader

`server/internal/internal/syncs/line.go`: writers take tickets in a line, and one `WriteTo` hands its destination to
the first of them. A writer waits until the ticket ahead of it is done, or until the line is closed, and passes its
turn on when it is closed itself.

A call of a writer is split where another goroutine can come in between: the wait for its turn, the write to the
destination and the count of what was written. What the destination has received is kept with the writer that wrote
it.
-/

namespace Ollama.Syncs

open Lib Utf8

/-- Where a writer stands in a call of `Write` or `WriteString`. -/
inductive Call where
  | idle
  /-- in `awaitTurn`; a call of `Write` counts what it writes -/
  | await (p : Bytes) (counts : Bool)
  /-- before the write to the destination -/
  | write (p : Bytes) (counts : Bool)
  /-- before `w.q.n += int64(n)` -/
  | count (n : Nat)
  deriving DecidableEq

/-- `relayWriter`, with whether its ticket is done. -/
structure Writer where
  done : Bool := false
  ready : Bool := false
  call : Call := .idle
  deriving DecidableEq

/-- Where the call of `WriteTo` stands. -/
inductive Reader where
  | idle
  /-- the line was open -/
  | checked
  /-- before `<-q.closed()` -/
  | waiting
  /-- it has returned a number, when the destination had received so many bytes -/
  | returned (n : Nat) (received : Nat)
  deriving DecidableEq

/-- `RelayReader`: its writers in the order in which they were taken, whether the destination is there and the first
ticket done, what is counted, whether the line is closed, the call of `WriteTo`, the bytes that the destination has
received, each with its writer, and whether a writer has found no destination. -/
structure Relay where
  writers : List Writer
  begun : Bool
  n : Nat
  closed : Bool
  reader : Reader
  received : List (Nat × UInt8)
  panicked : Bool
  deriving DecidableEq

/-- `NewRelayReader`. -/
def newRelayReader : Relay := ⟨[], false, 0, false, .idle, [], false⟩

/-- The ticket of the writer `i` is done. -/
def Relay.doneAt (s : Relay) (i : Nat) : Bool := (s.writers[i]?.map Writer.done).getD false

/-- `Ticket.Ready` of the writer `i`: the ticket ahead of it is done. -/
def Relay.readyAt (s : Relay) (i : Nat) : Bool :=
  match i with
  | 0 => s.begun
  | i + 1 => s.doneAt i

/-- No call of the writer `i` is open. -/
def Relay.idleAt (s : Relay) (i : Nat) : Bool := (s.writers[i]?.map (fun w => decide (w.call = .idle))).getD true

/-- What can happen next. -/
inductive RelayAct where
  /-- `Take` -/
  | take
  /-- `Write` is called, or `WriteString` -/
  | call (i : Nat) (p : Bytes) (counts : Bool)
  /-- `awaitTurn` returns true -/
  | turn (i : Nat)
  /-- `awaitTurn` returns false -/
  | refuse (i : Nat)
  /-- the destination takes the first `k` bytes of what is written -/
  | deliver (i : Nat) (k : Nat)
  /-- what was written is counted -/
  | count (i : Nat)
  /-- `Close` of a writer -/
  | done (i : Nat)
  /-- `WriteTo` is called -/
  | check
  /-- `WriteTo` lets the relay begin -/
  | start
  /-- `WriteTo` returns -/
  | finish
  /-- `CloseWithError` -/
  | close
  deriving DecidableEq

/-- A writer is replaced. -/
def Relay.set (s : Relay) (i : Nat) (w : Writer) : Relay := { s with writers := s.writers.set i w }

/-- The state after an act of the writer `i`. -/
def Relay.writerAct (s : Relay) (i : Nat) (w : Writer) : RelayAct → Option Relay
  | .call _ p counts => if w.call = .idle then some (s.set i { w with call := .await p counts }) else none
  | .turn _ =>
    match w.call with
    | .await p counts => if w.ready ∨ s.readyAt i
        then some (s.set i { w with ready := true, call := .write p counts }) else none
    | _ => none
  | .refuse _ =>
    match w.call with
    | .await _ _ => if ¬w.ready ∧ s.closed then some (s.set i { w with call := .idle }) else none
    | _ => none
  | .deliver _ k =>
    match w.call with
    | .write p counts =>
      if ¬s.begun then some { s with panicked := true }
      else
        let got := p.take k
        some { s.set i { w with call := if counts then .count got.length else .idle } with
          received := s.received ++ got.map (fun b => (i, b)) }
    | _ => none
  | .count _ =>
    match w.call with
    | .count k => some { s.set i { w with call := .idle } with n := s.n + k }
    | _ => none
  | .done _ => some (s.set i { w with done := true })
  | _ => none

/-- The state after an act. -/
def Relay.act (s : Relay) (a : RelayAct) : Option Relay :=
  if s.panicked then none
  else
    match a with
    | .take => some { s with writers := s.writers ++ [{}] }
    | .check =>
      if s.reader ≠ .idle then none
      else if s.closed then some { s with reader := .returned 0 s.received.length }
      else some { s with reader := .checked }
    | .start => if s.reader = .checked then some { s with begun := true, reader := .waiting } else none
    | .finish => if s.reader = .waiting ∧ s.closed
        then some { s with reader := .returned s.n s.received.length } else none
    | .close => some { s with closed := true }
    | .call i _ _ | .turn i | .refuse i | .deliver i _ | .count i | .done i =>
      (s.writers[i]?).bind (fun w => s.writerAct i w a)

/-- A relay reader, whose `WriteTo` is called once. -/
def relay : Machine Relay RelayAct where
  init s := s = newRelayReader
  act := Relay.act

end Ollama.Syncs
