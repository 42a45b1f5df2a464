import Ollama.Lib.Strings
import Ollama.Lib.Utf8

/-!
# Stop sequences and responses

`runner/common/stop.go`, and what `processBatch` does with a piece of text it has generated: pieces are held back
while a stop sequence may have begun or a character is incomplete, and are sent together otherwise. Strings are lists
of bytes.
-/

namespace Ollama.Runner

open Lib

/-! ## stop.go -/

/-- `FindStop`: the first of the stop sequences, in the order of the list, that occurs in the text. -/
def findStop (sequence : Bytes) (stops : List Bytes) : Option Bytes :=
  stops.find? (fun stop => (index stop sequence).isSome)

/-- `ContainsStopSuffix`: whether the text ends with a beginning of a stop sequence. -/
def containsStopSuffix (sequence : Bytes) (stops : List Bytes) : Bool :=
  stops.any (fun stop => (List.range stop.length).any (fun i => (stop.take (i + 1)).isSuffixOf sequence))

/-- The loop of `TruncateStop` that splits the text back into pieces of the original lengths: the pieces, and whether
one was cut short. -/
def splitPieces (joined : Bytes) : List Nat → Nat → List Bytes × Bool
  | [], _ => ([], false)
  | length :: rest, start =>
    if start ≥ joined.length then
      ([], false)
    else
      let cut := decide (start + length > joined.length)
      let stop := if cut then joined.length else start + length
      let out := splitPieces joined rest stop
      ((joined.take stop).drop start :: out.1, cut || out.2)

/-- `TruncateStop`. -/
def truncateStop (pieces : List Bytes) (stop : Bytes) : List Bytes × Bool :=
  match index stop pieces.flatten with
  | none => (pieces, false)
  | some i => splitPieces (pieces.flatten.take i) (pieces.map List.length) 0

/-- The loop of `IncompleteUnicode` over the bytes from the last one on. -/
def incompleteFrom : Bytes → Nat → Bool
  | [], _ => false
  | c :: rest, i =>
    if i < 5 then
      if c &&& 0xc0 = 0x80 then incompleteFrom rest (i + 1)
      else if c &&& 0xe0 = 0xc0 then decide (i < 2)
      else if c &&& 0xf0 = 0xe0 then decide (i < 3)
      else if c &&& 0xf8 = 0xf0 then decide (i < 4)
      else false
    else
      false

/-- `IncompleteUnicode`. -/
def incompleteUnicode (token : Bytes) : Bool := incompleteFrom token.reverse 1

/-! ## Responses -/

/-- The text of a sequence: the pieces held back, and the responses sent so far. -/
structure Responses where
  pending : List Bytes := []
  sent : List Bytes := []
  deriving DecidableEq, Repr

/-- `flushPending`: sends what is valid of the pieces held back. It fails when there is something to send and the client has
gone. -/
def flushPending (connected : Bool) (r : Responses) : Responses × Bool :=
  let joined := Utf8.trimValid r.pending.flatten
  if joined.length = 0 then
    ({ r with pending := [] }, true)
  else if connected then
    ({ pending := [], sent := r.sent ++ [joined] }, true)
  else
    ({ r with pending := [] }, false)

/-- What happens to the sequence after a piece. -/
inductive Verdict where
  /-- A stop sequence was found: the sequence ends, and as many tokens as given are taken off its cache and the last
  token. -/
  | stop (tokens : Nat)
  | go
  /-- The client has gone. -/
  | connection
  deriving DecidableEq, Repr

/-- What `processBatch` does with a generated piece. -/
def emit (connected : Bool) (stops : List Bytes) (r : Responses) (piece : Bytes) : Responses × Verdict :=
  let pending := r.pending ++ [piece]
  let sequence := pending.flatten
  match findStop sequence stops with
  | some stop =>
    let out := truncateStop pending stop
    let tokens := pending.length - out.1.length + if out.2 ∨ pending.length = out.1.length then 1 else 0
    ({ r with pending := out.1 }, .stop tokens)
  | none =>
    if containsStopSuffix sequence stops ∨ incompleteUnicode sequence then
      ({ r with pending := pending }, .go)
    else
      let out := flushPending connected { r with pending := pending }
      (out.1, if out.2 then .go else .connection)

/-- The responses of a sequence for the pieces it generates, while its client is there: until a stop sequence is
found, with the last flush of `removeSequence` then. -/
def generate (stops : List Bytes) : List Bytes → Responses → Responses
  | [], r => r
  | piece :: rest, r =>
    match emit true stops r piece with
    | (r, .stop _) => (flushPending true r).1
    | (r, .go) => generate stops rest r
    | (r, .connection) => (flushPending true r).1

/-- What is sent for a sequence that ends after its pieces, with an end token or at its limit: `removeSequence`
flushes what is still held back. -/
def responses (stops pieces : List Bytes) : List Bytes := (flushPending true (generate stops pieces {})).1.sent

end Ollama.Runner
