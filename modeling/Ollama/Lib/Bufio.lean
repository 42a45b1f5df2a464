import Ollama.Lib.Utf8
import Mathlib.Data.List.Infix
import Mathlib.Tactic.Common

/-!
# Readers that can seek

`io.ReadSeeker`: a content that is read from a position on, and a position that is set by seeks. A read may be shorter
than what is asked for, and a seek leads to where its offset says, or fails and leads nowhere. What calls to an
unbuffered reader answer is a plain run of the content (`PlainRun`); `plainRun_runCalls` is the rule by which another
reader is shown to answer the same.

`bufio.Reader` reads ahead. What it holds begins where its own reads do, and ends where the reader under it stands
(`Holds`).
-/

namespace Ollama.Lib

/-- An error: `io.EOF`, or another. -/
inductive IoErr (ε : Type*) where
  | eof
  | other (e : ε)
  deriving DecidableEq

/-- `io.SeekStart`. -/
def seekStart : Int := 0

/-- `io.SeekCurrent`. -/
def seekCurrent : Int := 1

/-- `io.SeekEnd`. -/
def seekEnd : Int := 2

/-- Where a seek leads to, from a position in a content of a length. -/
def seekTarget (length pos : Nat) (offset : Int64) (whence : Int) : Option Int :=
  if whence = seekStart then some offset.toInt
  else if whence = seekCurrent then some (pos + offset.toInt)
  else if whence = seekEnd then some (length + offset.toInt)
  else none

/-- `io.ReadSeeker`: what is read from it and where it stands, the positions that it can be set to, and its two
methods. A seek answers with the new position or with an error, which leaves the position as it is. -/
structure ReadSeeker (σ ε : Type*) where
  content : Bytes
  pos : σ → Nat
  Allowed : Int → Prop
  read : σ → Nat → (Bytes × Option (IoErr ε)) × σ
  seek : σ → Int64 → Int → Except (IoErr ε) Int64 × σ
  pos_lt : ∀ s, pos s < 2 ^ 63
  allowed_fits : ∀ t, Allowed t → 0 ≤ t ∧ t < 2 ^ 63
  read_short : ∀ s n, (read s n).1.1.length ≤ n
  read_bytes : ∀ s n, (read s n).1.1 <+: content.drop (pos s)
  read_pos : ∀ s n, pos (read s n).2 = pos s + (read s n).1.1.length
  read_eof : ∀ s n, (read s n).1.2 = some .eof → content.length ≤ pos (read s n).2
  seek_ok : ∀ s offset whence t, seekTarget content.length (pos s) offset whence = some t → Allowed t →
    (∃ n, (seek s offset whence).1 = .ok n ∧ n.toInt = t) ∧ (pos (seek s offset whence).2 : Int) = t
  seek_error : ∀ s offset whence, (∀ t, seekTarget content.length (pos s) offset whence = some t → ¬Allowed t) →
    (∃ e, (seek s offset whence).1 = .error e) ∧ pos (seek s offset whence).2 = pos s

namespace ReadSeeker

variable {σ : Type*} {ε : Type*} (R : ReadSeeker σ ε)

/-- A call: a read into so many bytes, or a seek. -/
inductive Call where
  | read (n : Nat)
  | seek (offset : Int64) (whence : Int)
  deriving DecidableEq

/-- A call with its answer. -/
inductive Event (ε : Type*) where
  | read (n : Nat) (out : Bytes) (err : Option (IoErr ε))
  | seek (offset : Int64) (whence : Int) (result : Except (IoErr ε) Int64)

/-- The position after a call, by its answer. -/
def Event.after (pos : Nat) : Event ε → Nat
  | .read _ out _ => pos + out.length
  | .seek _ _ (.ok n) => n.toInt.toNat
  | .seek _ _ (.error _) => pos

/-- The position after some calls, by their answers. -/
def logical (pos : Nat) (evs : List (Event ε)) : Nat := evs.foldl Event.after pos

/-- A read of the reader can answer with the error. -/
def Reports (e : IoErr ε) : Prop := ∃ s n, (R.read s n).1.2 = some e

/-- A read of the reader into some bytes can answer with nothing, and without an error. -/
def Stalls : Prop := ∃ s n, 0 < n ∧ (R.read s n).1 = ([], none)

/-- What a read into `n` bytes can answer at a position. -/
structure PlainRead (pos n : Nat) (out : Bytes) (err : Option (IoErr ε)) : Prop where
  short : out.length ≤ n
  bytes : out <+: R.content.drop pos
  eof : err = some .eof → R.content.length ≤ pos + out.length
  reports : ∀ e, err = some e → R.Reports e
  progress : out = [] → err = none → n = 0 ∨ R.Stalls

/-- What a call can answer at a position. -/
def Plain (pos : Nat) : Event ε → Prop
  | .read n out err => R.PlainRead pos n out err
  | .seek offset whence (.ok n) => seekTarget R.content.length pos offset whence = some n.toInt ∧ R.Allowed n.toInt
  | .seek offset whence (.error _) => ∀ t, seekTarget R.content.length pos offset whence = some t → ¬R.Allowed t

/-- What calls can answer from a position on. -/
def PlainRun (pos : Nat) : List (Event ε) → Prop
  | [] => True
  | ev :: evs => R.Plain pos ev ∧ PlainRun (ev.after pos) evs

/-- The calls, one after the other. -/
def runCalls {τ : Type*} (step : τ → Call → Event ε × τ) (s : τ) : List Call → List (Event ε) × τ
  | [] => ([], s)
  | c :: cs => ((step s c).1 :: (runCalls step (step s c).2 cs).1, (runCalls step (step s c).2 cs).2)

/-- The last call of some. -/
theorem runCalls_concat {τ : Type*} (step : τ → Call → Event ε × τ) (s : τ) (cs : List Call) (c : Call) :
    runCalls step s (cs ++ [c]) =
      ((runCalls step s cs).1 ++ [(step (runCalls step s cs).2 c).1], (step (runCalls step s cs).2 c).2) := by
  induction cs generalizing s with
  | nil => rfl
  | cons d cs ih => simp only [List.cons_append, runCalls, ih]

/-- A reader each of whose calls answers as a plain reader does at a position, and keeps to the position that the
answer leads to. -/
theorem plainRun_runCalls {R : ReadSeeker σ ε} {τ : Type*} {step : τ → Call → Event ε × τ} {P : τ → Nat → Prop}
    (hstep : ∀ s pos c, P s pos → R.Plain pos (step s c).1 ∧ P (step s c).2 ((step s c).1.after pos)) {s : τ}
    {pos : Nat} (h : P s pos) (cs : List Call) :
    R.PlainRun pos (runCalls step s cs).1 ∧ P (runCalls step s cs).2 (logical pos (runCalls step s cs).1) := by
  induction cs generalizing s pos with
  | nil => exact ⟨trivial, h⟩
  | cons c cs ih =>
    obtain ⟨hplain, hat⟩ := hstep s pos c h
    obtain ⟨hrun, hend⟩ := ih hat
    exact ⟨⟨hplain, hrun⟩, hend⟩

/-! ## The reader without a buffer -/

/-- A call of the reader. -/
def step (s : σ) : Call → Event ε × σ
  | .read n => (.read n (R.read s n).1.1 (R.read s n).1.2, (R.read s n).2)
  | .seek offset whence => (.seek offset whence (R.seek s offset whence).1, (R.seek s offset whence).2)

/-- A read at the position of the reader. -/
theorem plainRead_read (s : σ) (n : Nat) : R.PlainRead (R.pos s) n (R.read s n).1.1 (R.read s n).1.2 := by
  refine ⟨R.read_short s n, R.read_bytes s n, ?_, fun e he => ⟨s, n, he⟩, ?_⟩
  · intro heof
    rw [← R.read_pos]
    exact R.read_eof s n heof
  · intro hout herr
    obtain hn | hn := Nat.eq_zero_or_pos n
    · exact .inl hn
    · exact .inr ⟨s, n, hn, Prod.ext hout herr⟩

/-- A seek at the position of the reader. -/
theorem plain_seek (s : σ) (offset : Int64) (whence : Int) :
    R.Plain (R.pos s) (.seek offset whence (R.seek s offset whence).1) ∧
      R.pos (R.seek s offset whence).2 = (Event.seek offset whence (R.seek s offset whence).1).after (R.pos s) := by
  by_cases hallowed : ∃ t, seekTarget R.content.length (R.pos s) offset whence = some t ∧ R.Allowed t
  · obtain ⟨t, htarget, ht⟩ := hallowed
    obtain ⟨⟨n, hn, rfl⟩, hpos⟩ := R.seek_ok s offset whence t htarget ht
    rw [hn]
    refine ⟨⟨htarget, ht⟩, ?_⟩
    rw [Event.after, ← hpos, Int.toNat_natCast]
  · have hnot : ∀ t, seekTarget R.content.length (R.pos s) offset whence = some t → ¬R.Allowed t :=
      fun t htarget ht => hallowed ⟨t, htarget, ht⟩
    obtain ⟨⟨e, he⟩, hpos⟩ := R.seek_error s offset whence hnot
    rw [he]
    exact ⟨hnot, hpos⟩

/-- The calls of the reader are a plain run. -/
theorem plainRun_step (s : σ) (cs : List Call) : R.PlainRun (R.pos s) (runCalls R.step s cs).1 := by
  refine (plainRun_runCalls (R := R) (P := fun s pos => R.pos s = pos) ?_ rfl cs).1
  rintro s pos c rfl
  cases c with
  | read n => exact ⟨R.plainRead_read s n, R.read_pos s n⟩
  | seek offset whence => exact R.plain_seek s offset whence

end ReadSeeker

/-! ## `strings.Reader` -/

/-- The position after a read of a text that is not over. -/
theorem pos_read_lt {content : Bytes} {i : Nat} (hcontent : content.length < 2 ^ 63) (hi : i < content.length)
    (n : Nat) :
    i + ((content.drop i).take n).length < 2 ^ 63 := by
  rw [List.length_take, List.length_drop]
  omega

/-- `strings.NewReader`, whose state is its position. -/
def stringsReader (content : Bytes) (hcontent : content.length < 2 ^ 63) : ReadSeeker (Fin (2 ^ 63)) Bytes where
  content := content
  pos s := s
  Allowed t := 0 ≤ t ∧ t < 2 ^ 63
  read s n :=
    if h : s < content.length then (((content.drop s).take n, none),
      ⟨s + ((content.drop s).take n).length, pos_read_lt hcontent h n⟩)
    else (([], some .eof), s)
  seek s offset whence :=
    match seekTarget content.length s offset whence with
    | none => (.error (.other (ascii "strings.Reader.Seek: invalid whence")), s)
    | some t =>
      if h : 0 ≤ t ∧ t < 2 ^ 63 then (.ok (Int64.ofInt t), ⟨t.toNat, by omega⟩)
      else (.error (.other (ascii "strings.Reader.Seek: negative position")), s)
  pos_lt s := s.isLt
  allowed_fits _ h := h
  read_short s n := by
    split
    · exact List.length_take_le _ _
    · exact Nat.zero_le _
  read_bytes s n := by
    split
    · exact List.take_prefix _ _
    · exact List.nil_prefix
  read_pos s n := by
    split
    · rfl
    · rfl
  read_eof s n := by
    split
    · intro h
      cases h
    · intro _
      dsimp only
      omega
  seek_ok s offset whence t htarget ht := by
    rw [htarget]
    dsimp only
    rw [dif_pos ht]
    exact ⟨⟨_, rfl, Int64.toInt_ofInt_of_le (by omega) ht.2⟩, Int.toNat_of_nonneg ht.1⟩
  seek_error s offset whence hnot := by
    split
    · exact ⟨⟨_, rfl⟩, rfl⟩
    · rename_i t htarget
      rw [dif_neg (hnot t htarget)]
      exact ⟨⟨_, rfl⟩, rfl⟩

/-! ## `bufio.Reader` -/

/-- `bufio.Reader`: what is in its buffer and not read yet, the size of the buffer, and the error that is kept for later. -/
structure BufReader (ε : Type*) where
  buf : Bytes
  size : Nat
  err : Option (IoErr ε)
  size_min : 16 ≤ size

namespace BufReader

variable {σ : Type*} {ε : Type*}

/-- `bufio.NewReaderSize`. -/
def newReaderSize (size : Int) : BufReader ε := ⟨[], max size.toNat 16, none, Nat.le_max_right _ _⟩

/-- `Buffered`. -/
def buffered (br : BufReader ε) : Nat := br.buf.length

/-- `Reset`. -/
def reset (br : BufReader ε) : BufReader ε := { br with buf := [], err := none }

/-- What is in the buffer is copied. -/
def copy (s : σ) (br : BufReader ε) (n : Nat) : (Bytes × Option (IoErr ε)) × σ × BufReader ε :=
  ((br.buf.take n, none), s, { br with buf := br.buf.drop n })

/-- The error is answered, and is kept no longer. -/
def readErr (s : σ) (br : BufReader ε) : (Bytes × Option (IoErr ε)) × σ × BufReader ε :=
  (([], br.err), s, { br with err := none })

/-- `Read` into `n` bytes, from the reader under it in a state. -/
def read (R : ReadSeeker σ ε) (s : σ) (br : BufReader ε) (n : Nat) : (Bytes × Option (IoErr ε)) × σ × BufReader ε :=
  if n = 0 then
    if 0 < br.buffered then (([], none), s, br) else br.readErr s
  else if 0 < br.buffered then br.copy s n
  else if br.err.isSome then br.readErr s
  else if br.size ≤ n then
    -- a large read goes around the buffer
    ((R.read s n).1, (R.read s n).2, br)
  else if (R.read s br.size).1.1 = [] then ((R.read s br.size).1, (R.read s br.size).2, br)
  else copy (R.read s br.size).2 { br with buf := (R.read s br.size).1.1, err := (R.read s br.size).1.2 } n

/-- The buffer holds what comes at a position, up to where the reader under it stands. An error that is kept is one of
the reader's, and is the end of the content only if the reader is there. -/
structure Holds (R : ReadSeeker σ ε) (s : σ) (br : BufReader ε) (pos : Nat) : Prop where
  ahead : R.pos s = pos + br.buffered
  bytes : br.buf <+: R.content.drop pos
  eof : br.err = some .eof → R.content.length ≤ R.pos s
  reports : ∀ e, br.err = some e → R.Reports e

section

variable {R : ReadSeeker σ ε} {s : σ} {br : BufReader ε} {pos : Nat}

/-- The empty buffer. -/
theorem holds_empty (hbuf : br.buf = []) (herr : br.err = none) : Holds R s br (R.pos s) := by
  refine ⟨?_, ?_, ?_, ?_⟩
  · rw [buffered, hbuf]
    rfl
  · rw [hbuf]
    exact List.nil_prefix
  · rw [herr]
    intro heof
    cases heof
  · rw [herr]
    intro e he
    cases he

/-- The reader under an empty buffer stands at the position. -/
theorem Holds.pos_eq (h : Holds R s br pos) (hbuf : ¬0 < br.buffered) : R.pos s = pos := by
  have hahead := h.ahead
  omega

/-- There is nothing in an empty buffer. -/
theorem buf_eq_nil (hbuf : ¬0 < br.buffered) : br.buf = [] := List.length_eq_zero_iff.1 (Nat.eq_zero_of_not_pos hbuf)

/-- A read that answers with the error that is kept. -/
theorem Holds.readErr (h : Holds R s br pos) (hbuf : ¬0 < br.buffered) {n : Nat} (hprogress : br.err = none → n = 0) :
    R.PlainRead pos n [] br.err ∧ Holds R s { br with err := none } pos := by
  obtain rfl := h.pos_eq hbuf
  refine ⟨⟨Nat.zero_le _, List.nil_prefix, h.eof, h.reports, fun _ hnone => .inl (hprogress hnone)⟩,
    holds_empty (buf_eq_nil hbuf) rfl⟩

/-- A read that copies what is in the buffer. -/
theorem Holds.copy (h : Holds R s br pos) (hbuf : 0 < br.buffered) (n : Nat) :
    R.PlainRead pos n (br.buf.take n) none ∧
      Holds R s { br with buf := br.buf.drop n } (pos + (br.buf.take n).length) := by
  have hahead := h.ahead
  rw [buffered] at hbuf hahead
  refine ⟨⟨List.length_take_le _ _, (List.take_prefix _ _).trans h.bytes, ?_, ?_, ?_⟩, ?_, ?_, h.eof, h.reports⟩
  · intro heof
    cases heof
  · intro e he
    cases he
  · intro hout _
    have hlength := congrArg List.length hout
    rw [List.length_take, List.length_nil] at hlength
    exact .inl (by omega)
  · rw [buffered, List.length_take, List.length_drop, hahead]
    omega
  · obtain ⟨rest, hrest⟩ := h.bytes
    refine ⟨rest, ?_⟩
    show br.buf.drop n ++ rest = _
    rw [← List.drop_drop, ← hrest, List.drop_append_of_le_length (List.length_take_le' _ _)]
    congr 1
    rw [List.length_take]
    obtain hlt | hle := Nat.lt_or_ge n br.buf.length
    · rw [Nat.min_eq_left (by omega)]
    · rw [Nat.min_eq_right hle, List.drop_length, List.drop_eq_nil_of_le hle]

/-- A read answers as a plain reader does, and the buffer holds what comes then. -/
theorem Holds.read (h : Holds R s br pos) (n : Nat) :
    R.PlainRead pos n (br.read R s n).1.1 (br.read R s n).1.2 ∧
      Holds R (br.read R s n).2.1 (br.read R s n).2.2 (pos + (br.read R s n).1.1.length) := by
  have hsize := br.size_min
  unfold BufReader.read
  split_ifs with hzero hbuf hbuf herr hlarge hnone
  · refine ⟨⟨Nat.zero_le _, List.nil_prefix, ?_, ?_, fun _ _ => .inl hzero⟩, h⟩
    · intro heof
      cases heof
    · intro e he
      cases he
  · exact h.readErr hbuf fun _ => hzero
  · exact h.copy hbuf n
  · refine h.readErr hbuf fun hnone => ?_
    rw [hnone] at herr
    cases herr
  · obtain rfl := h.pos_eq hbuf
    have hnext := holds_empty (R := R) (s := (R.read s n).2) (buf_eq_nil hbuf) (Option.not_isSome_iff_eq_none.1 herr)
    rw [R.read_pos] at hnext
    exact ⟨R.plainRead_read s n, hnext⟩
  · obtain rfl := h.pos_eq hbuf
    have hread := R.plainRead_read s br.size
    have hnext := holds_empty (R := R) (s := (R.read s br.size).2) (buf_eq_nil hbuf)
      (Option.not_isSome_iff_eq_none.1 herr)
    rw [R.read_pos] at hnext
    refine ⟨⟨?_, hread.bytes, hread.eof, hread.reports, fun hout hquiet => ?_⟩, hnext⟩
    · rw [hnone]
      exact Nat.zero_le _
    · exact (hread.progress hout hquiet).imp_left fun hsize => absurd hsize (by omega)
  · obtain rfl := h.pos_eq hbuf
    have hread := R.plainRead_read s br.size
    have hfilled : Holds R (R.read s br.size).2 { br with
      buf := (R.read s br.size).1.1, err := (R.read s br.size).1.2 } (R.pos s) :=
      ⟨R.read_pos s br.size, hread.bytes, R.read_eof s br.size, hread.reports⟩
    exact hfilled.copy (List.length_pos_iff.2 hnone) n

end

end BufReader

end Ollama.Lib
