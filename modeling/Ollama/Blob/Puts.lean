import Ollama.Blob.Cache
import Ollama.Lib.System

/-!
# Puts of one digest, step by step

`copyNamedFile` takes no lock and writes the final file in place, so the file steps of several calls for one digest
may come in any order. Here a call is a thread, and each of its file steps is one act: the `os.Stat`, the
`os.OpenFile`, each write, the truncation after an error and the `Close`. All calls share the file. Taken without a
break, the steps of a call are those of `copyNamedFile` (`alone_eq_copyNamedFile`).
-/

namespace Ollama.Blob

open Lib Utf8

/-- Where a call of `copyNamedFile` stands. -/
inductive PutState where
  /-- before `os.Stat` -/
  | stat
  /-- before `os.OpenFile`, with or without `os.O_TRUNC` -/
  | openFile (trunc : Bool)
  /-- in `io.Copy`: what the `checkWriter` has written and hashed, and what is still to be read -/
  | copy (n : Nat) (h : Bytes) (reads : List Bytes)
  /-- before `f.Truncate(0)`, after an error -/
  | truncate (err : Err)
  /-- before `f.Close` -/
  | close
  | returned (err : Option Err)
  deriving DecidableEq

/-- A call of `Put` for the digest. -/
structure PutCall where
  file : Reader
  size : Int
  state : PutState

variable (sha : Bytes → Digest) (d : Digest)

/-- Where a call goes when it has read everything. -/
def PutCall.copied (call : PutCall) (n : Nat) : PutState :=
  if call.file.fails then .truncate .read
  else if (n : Int) < call.size then .truncate .unexpectedEOF
  else .close

/-- The file step that comes next, on the file that is there, and where the call stands then. -/
def PutCall.next (file : Option Bytes) (call : PutCall) : Option (Option Bytes × PutState) :=
  match call.state with
  | .stat =>
    match file with
    | none => some (none, .openFile false)
    | some content =>
      if (content.length : Int) = call.size then some (some content, .returned none)
      else some (some content, .openFile (decide ((content.length : Int) > call.size)))
  | .openFile trunc =>
    let content := if trunc then [] else file.getD []
    some (some content, if call.size = 0 then .returned none else .copy 0 [] call.file.reads)
  | .copy n _ [] => some (file, call.copied n)
  | .copy n h (p :: reads) =>
    if p = [] then some (file, .copy n h reads)
    else
      match CheckWriter.write sha d call.size ⟨n, h, file.getD []⟩ p with
      | (_, some err) => some (file, .truncate err)
      | (w, none) => some (some w.f, .copy w.n w.h reads)
  | .truncate err => some (some [], .returned (some err))
  | .close => some (file, .returned none)
  | .returned _ => none

/-- The file of a digest, and the calls of `Put` for it, in the order in which they began. -/
structure Puts where
  file : Option Bytes
  calls : List PutCall

/-- What can happen next. -/
inductive PutAct where
  /-- a call begins -/
  | put (r : Reader) (size : Int)
  /-- a call takes its next file step -/
  | step (i : Nat)

/-- The state after an act. -/
def Puts.act (s : Puts) : PutAct → Option Puts
  | .put r size => some { s with calls := s.calls ++ [⟨r, size, .stat⟩] }
  | .step i => (s.calls[i]?).bind (fun call =>
      (call.next sha d s.file).map (fun out => ⟨out.1, s.calls.set i { call with state := out.2 }⟩))

/-- Any number of calls of `Put` for a digest, on a cache that does not have its file at first. -/
def puts : Machine Puts PutAct where
  init s := s = ⟨none, []⟩
  act := Puts.act sha d

/-! ## One call alone -/

/-- The steps of a call that no other call interrupts, to its return. -/
def PutCall.alone : (fuel : Nat) → Option Bytes → PutCall → Option Bytes × PutState
  | 0, file, call => (file, call.state)
  | fuel + 1, file, call =>
    match call.next sha d file with
    | none => (file, call.state)
    | some (file, state) => alone fuel file { call with state }

variable {sha d}

theorem alone_returned (fuel : Nat) (f : Bytes) (r : Reader) (size : Int) (err : Option Err) :
    PutCall.alone sha d fuel (some f) ⟨r, size, .returned err⟩ = (some f, .returned err) := by
  cases fuel <;> rfl

/-- After an error the file is truncated. -/
theorem alone_truncate {fuel : Nat} (hfuel : 1 ≤ fuel) (f : Bytes) (r : Reader) (size : Int) (err : Err) :
    PutCall.alone sha d fuel (some f) ⟨r, size, .truncate err⟩ = (some [], .returned (some err)) := by
  obtain ⟨fuel, rfl⟩ := Nat.exists_eq_add_of_le' hfuel
  exact alone_returned fuel [] r size (some err)

/-- The loop of `io.Copy`, and what follows it. -/
theorem alone_copy (r : Reader) (size : Int) (reads : List Bytes) {fuel : Nat} (hfuel : reads.length + 2 ≤ fuel)
    (w : CheckWriter) :
    PutCall.alone sha d fuel (some w.f) ⟨r, size, .copy w.n w.h reads⟩ =
      match copyReads sha d size w reads with
      | (_, some err) => (some [], .returned (some err))
      | (w, none) =>
        if r.fails then (some [], .returned (some .read))
        else if (w.n : Int) < size then (some [], .returned (some .unexpectedEOF))
        else (some w.f, .returned none) := by
  induction reads generalizing fuel w with
  | nil =>
    obtain ⟨fuel, rfl⟩ := Nat.exists_eq_add_of_le' (show 1 ≤ fuel by omega)
    have hfuel' : 1 ≤ fuel := by
      rw [List.length_nil] at hfuel
      omega
    show PutCall.alone sha d fuel (some w.f) ⟨r, size, PutCall.copied ⟨r, size, _⟩ w.n⟩ = _
    unfold PutCall.copied copyReads
    dsimp only
    split
    · exact alone_truncate hfuel' w.f r size .read
    · split
      · exact alone_truncate hfuel' w.f r size .unexpectedEOF
      · obtain ⟨fuel, rfl⟩ := Nat.exists_eq_add_of_le' hfuel'
        exact alone_returned fuel w.f r size none
  | cons p reads ih =>
    obtain ⟨fuel, rfl⟩ := Nat.exists_eq_add_of_le' (show 1 ≤ fuel by omega)
    have hfuel' : reads.length + 2 ≤ fuel := by
      rw [List.length_cons] at hfuel
      omega
    unfold PutCall.alone PutCall.next copyReads
    dsimp only
    by_cases hp : p = []
    · rw [if_pos hp, if_pos hp]
      exact ih hfuel' w
    · rw [if_neg hp, if_neg hp, Option.getD_some]
      rcases CheckWriter.write sha d size w p with ⟨w', _ | err⟩
      · exact ih hfuel' w'
      · exact alone_truncate (by omega) w.f r size err

/-- The steps of a call without a break are `copyNamedFile`. -/
theorem alone_eq_copyNamedFile (old : Option Bytes) (r : Reader) (size : Int) {fuel : Nat}
    (hfuel : r.reads.length + 4 ≤ fuel) :
    PutCall.alone sha d fuel old ⟨r, size, .stat⟩ =
      (some (copyNamedFile sha old r d size).1, .returned (copyNamedFile sha old r d size).2) := by
  obtain ⟨fuel, rfl⟩ := Nat.exists_eq_add_of_le' (show 2 ≤ fuel by omega)
  -- from where the file is to be opened
  have hopen : ∀ (file : Option Bytes) (trunc : Bool), PutCall.alone sha d (fuel + 1) file ⟨r, size, .openFile trunc⟩ =
      (some (copyOpened sha (if trunc then [] else file.getD []) r d size).1,
        .returned (copyOpened sha (if trunc then [] else file.getD []) r d size).2) := by
    intro file trunc
    unfold PutCall.alone PutCall.next copyOpened
    dsimp only
    generalize (if trunc then [] else file.getD []) = f
    by_cases hsize : size = 0
    · rw [if_pos hsize, if_pos hsize]
      exact alone_returned fuel f r size none
    · rw [if_neg hsize, if_neg hsize, alone_copy r size r.reads (by omega) ⟨0, [], f⟩]
      rcases copyReads sha d size ⟨0, [], f⟩ r.reads with ⟨w, _ | err⟩
      · dsimp only
        split
        · rfl
        · split <;> rfl
      · rfl
  cases old with
  | none => exact hopen none false
  | some content =>
    unfold copyNamedFile
    rw [PutCall.alone, PutCall.next]
    dsimp only
    by_cases hlen : (content.length : Int) = size
    · rw [if_pos hlen, if_pos hlen]
      exact alone_returned (fuel + 1) content r size none
    · rw [if_neg hlen, if_neg hlen]
      dsimp only
      rw [hopen, Option.getD_some]
      simp only [decide_eq_true_eq]

end Ollama.Blob
