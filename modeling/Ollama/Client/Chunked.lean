import Ollama.Syncs.Relay

/-!
# A chunked layer

`server/internal/client/ollama/registry.go`, `Pull`: a layer over the chunking threshold is put by a goroutine that
reads from a relay. The loop of `Pull` sends a first request, then starts a goroutine for each chunk, which takes a
ticket of the relay, requests its chunk until it gets it, and writes it when its turn comes. The context can be
cancelled between any two steps, by whoever calls `Pull` or by a goroutine of another layer that fails.

The limit on the goroutines of a pull only makes a start wait.
-/

namespace Ollama.Client

open Lib Utf8 Syncs

/-- `chunks.Chunk`. -/
structure Chunk where
  start : Int64
  stop : Int64
  deriving DecidableEq

/-- `Chunk.Size`. -/
def Chunk.size (c : Chunk) : Int64 := c.stop - c.start + 1

/-- The chunk of `chunks.Of` at an offset. -/
def chunkAt (size chunkSize start : Int64) : Chunk :=
  let stop := start + chunkSize - 1
  ⟨start, if stop ≤ size - 1 then stop else size - 1⟩

/-- Where the goroutine of a chunk stands. -/
inductive ChunkPhase where
  /-- in its loop of attempts, with no write under way -/
  | attempt
  /-- in a write to its ticket; whether the destination has failed -/
  | writing (failed : Bool)
  /-- before `q.Close()` -/
  | complete
  /-- before `q.CloseWithError(err)` -/
  | failed
  /-- before `ticket.Close()` -/
  | ending
  | returned
  deriving DecidableEq

/-- The goroutine of a chunk. -/
structure ChunkTask where
  chunk : Chunk
  phase : ChunkPhase
  deriving DecidableEq

/-- Where the goroutine that puts the layer stands. -/
inductive PutPhase where
  /-- before `io.Copy` -/
  | opening
  /-- in `io.Copy`, which calls `WriteTo` -/
  | copying
  /-- before `q.CloseWithError(err)` -/
  | ending
  | returned
  deriving DecidableEq

/-- Where the loop of `Pull` stands with the layer. -/
inductive LoopPhase where
  /-- before the first request -/
  | request
  /-- before the chunk at an offset -/
  | next (start : Int64)
  | left
  deriving DecidableEq

/-- A chunked layer: its relay, the goroutine that puts it, the loop, the goroutines of its chunks in the order of
their tickets, the bytes counted, and whether the context is done. -/
structure Chunked where
  relay : Relay
  put : PutPhase
  loop : LoopPhase
  chunks : List ChunkTask
  progress : Int64
  canceled : Bool
  deriving DecidableEq

/-- The state in which the goroutine that puts the layer is started. -/
def newChunked : Chunked := ⟨newRelayReader, .opening, .request, [], 0, false⟩

/-- What can happen next. -/
inductive ChunkedAct where
  /-- the first request is answered, or fails -/
  | request (ok : Bool)
  /-- the loop goes on to the next chunk -/
  | next
  /-- the context is done -/
  | cancel
  /-- `copyNamedFile` comes to `io.Copy` -/
  | copy
  /-- `WriteTo` is called -/
  | check
  /-- `WriteTo` lets the relay begin -/
  | start
  /-- `WriteTo` returns -/
  | finish
  /-- `Put` returns -/
  | put
  /-- the goroutine that has put the layer closes the relay -/
  | putClose
  /-- an attempt for a chunk fails, and is made again -/
  | retry (i : Nat)
  /-- an attempt for a chunk fails -/
  | fail (i : Nat)
  /-- some of a chunk is written to its ticket -/
  | write (i : Nat) (p : Bytes)
  /-- the write has its turn -/
  | turn (i : Nat)
  /-- the write finds the relay closed -/
  | refuse (i : Nat)
  /-- the destination takes some of what is written, and fails or not -/
  | deliver (i : Nat) (k : Nat) (failed : Bool)
  /-- the write returns -/
  | written (i : Nat)
  /-- all of the chunk is written, and counted -/
  | flushed (i : Nat)
  /-- `q.Close()` -/
  | complete (i : Nat)
  /-- `q.CloseWithError(err)` -/
  | failed (i : Nat)
  /-- `ticket.Close()` -/
  | done (i : Nat)
  deriving DecidableEq

/-- The goroutine of a chunk goes on, and leaves the relay in a state. -/
def Chunked.move (s : Chunked) (i : Nat) (c : ChunkTask) (phase : ChunkPhase) (r : Relay) : Chunked :=
  { s with chunks := s.chunks.set i { c with phase }, relay := r }

/-- The state after an act of the goroutine of the chunk `i`. -/
def Chunked.chunkAct (size : Int64) (s : Chunked) (i : Nat) (c : ChunkTask) : ChunkedAct → Option Chunked
  | .retry _ => if c.phase = .attempt then some s else none
  | .fail _ => if c.phase = .attempt then some (s.move i c .failed s.relay) else none
  | .write _ p => if c.phase = .attempt then (s.relay.act (.call i p true)).map (s.move i c (.writing false)) else none
  | .turn _ => if c.phase = .writing false then (s.relay.act (.turn i)).map (s.move i c (.writing false)) else none
  | .refuse _ => if c.phase = .writing false then (s.relay.act (.refuse i)).map (s.move i c .failed) else none
  | .deliver _ k failed => if c.phase = .writing false
      then (s.relay.act (.deliver i k)).map (s.move i c (.writing failed)) else none
  | .written _ =>
    match c.phase with
    | .writing failed => (s.relay.act (.count i)).map (s.move i c (if failed then .failed else .attempt))
    | _ => none
  | .flushed _ =>
    if c.phase = .attempt then
      let total := s.progress + c.chunk.size
      some { s.move i c (if size ≤ total then .complete else .ending) s.relay with progress := total }
    else none
  | .complete _ => if c.phase = .complete then (s.relay.act .close).map (s.move i c .ending) else none
  | .failed _ => if c.phase = .failed then (s.relay.act .close).map (s.move i c .ending) else none
  | .done _ => if c.phase = .ending then (s.relay.act (.done i)).map (s.move i c .returned) else none
  | _ => none

/-- The state after an act. -/
def Chunked.act (size chunkSize : Int64) (s : Chunked) (a : ChunkedAct) : Option Chunked :=
  if s.relay.panicked then none
  else
    match a with
    | .request ok => if s.loop = .request then some { s with loop := if ok then .next 0 else .left } else none
    | .next =>
      match s.loop with
      | .next start =>
        if ¬start < size then some { s with loop := .left }
        else if s.canceled then some { s with loop := .left }
        else (s.relay.act .take).map (fun r => { s with
          relay := r
          loop := .next (start + chunkSize)
          chunks := s.chunks ++ [⟨chunkAt size chunkSize start, .attempt⟩] })
      | _ => none
    | .cancel => some { s with canceled := true }
    | .copy => if s.put = .opening ∧ size ≠ 0 then some { s with put := .copying } else none
    | .check => if s.put = .copying then (s.relay.act .check).map (fun r => { s with relay := r }) else none
    | .start => if s.put = .copying then (s.relay.act .start).map (fun r => { s with relay := r }) else none
    | .finish => if s.put = .copying then (s.relay.act .finish).map (fun r => { s with relay := r }) else none
    | .put =>
      match s.put, s.relay.reader with
      | .opening, _ => some { s with put := .ending }
      | .copying, .returned _ _ => some { s with put := .ending }
      | _, _ => none
    | .putClose => if s.put = .ending
        then (s.relay.act .close).map (fun r => { s with relay := r, put := .returned }) else none
    | .retry i | .fail i | .write i _ | .turn i | .refuse i | .deliver i _ _ | .written i | .flushed i | .complete
        i | .failed i
    | .done i =>
      (s.chunks[i]?).bind (fun c => s.chunkAct size i c a)

/-- A layer of a size that is pulled in chunks of a size. -/
def chunked (size chunkSize : Int64) : Machine Chunked ChunkedAct where
  init s := s = newChunked
  act s a := s.act size chunkSize a

end Ollama.Client
