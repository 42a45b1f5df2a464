import Ollama.Lib.Bufio
import Ollama.Lib.Int64

/-!
# The buffered seeker

`fs/util/bufioutil/buffer_seeker.go`: a reader that can seek, read through a buffer. What is in the buffer has been
read already, so a seek from the current position counts it off. A seek that succeeds empties the buffer.
-/

namespace Ollama.Bufioutil

open Lib

variable {σ : Type*} {ε : Type*}

/-- `BufferedSeeker`, with the state of the reader under it. -/
structure BufferedSeeker (σ ε : Type*) where
  rs : σ
  br : BufReader ε

/-- `NewBufferedSeeker`. -/
def newBufferedSeeker (rs : σ) (size : Int) : BufferedSeeker σ ε := ⟨rs, .newReaderSize size⟩

namespace BufferedSeeker

/-- `Read`. -/
def read (R : ReadSeeker σ ε) (b : BufferedSeeker σ ε) (n : Nat) : (Bytes × Option (IoErr ε)) × BufferedSeeker σ ε :=
  ((b.br.read R b.rs n).1, ⟨(b.br.read R b.rs n).2.1, (b.br.read R b.rs n).2.2⟩)

/-- The offset that `Seek` asks the reader under it for. -/
def offset (b : BufferedSeeker σ ε) (offset : Int64) (whence : Int) : Int64 :=
  if whence = seekCurrent then offset - Int64.ofNat b.br.buffered else offset

/-- `Seek`. -/
def seek (R : ReadSeeker σ ε) (b : BufferedSeeker σ ε) (offset : Int64) (whence : Int) :
    Except (IoErr ε) Int64 × BufferedSeeker σ ε :=
  match R.seek b.rs (b.offset offset whence) whence with
  | (.error err, rs) => (.error err, { b with rs })
  | (.ok n, rs) => (.ok n, ⟨rs, b.br.reset⟩)

/-- A call. -/
def step (R : ReadSeeker σ ε) (b : BufferedSeeker σ ε) : ReadSeeker.Call → ReadSeeker.Event ε × BufferedSeeker σ ε
  | .read n => (.read n (b.read R n).1.1 (b.read R n).1.2, (b.read R n).2)
  | .seek offset whence => (.seek offset whence (b.seek R offset whence).1, (b.seek R offset whence).2)

/-- The answers of some calls, and the seeker after them. -/
def run (R : ReadSeeker σ ε) (b : BufferedSeeker σ ε) (cs : List ReadSeeker.Call) :
    List (ReadSeeker.Event ε) × BufferedSeeker σ ε :=
  ReadSeeker.runCalls (step R) b cs

end BufferedSeeker

end Ollama.Bufioutil

/-!
## The buffered seeker, theorems

The calls of a buffered seeker are a plain run of the content, from where the reader under it stands at first: each
answer is one that a reader without a buffer can give at its position. The reader under it is ahead of that position
by what is buffered, whatever the calls were. A seek that succeeds leaves nothing buffered, so both are then at one
position. A seek that fails keeps the buffer, and does not bring them together.
-/

namespace Ollama.Bufioutil

open Lib ReadSeeker

variable {σ : Type*} {ε : Type*}

namespace BufferedSeeker

variable {R : ReadSeeker σ ε} {b : BufferedSeeker σ ε} {pos : Nat}

/-- What is buffered comes at a position. -/
def At (R : ReadSeeker σ ε) (b : BufferedSeeker σ ε) (pos : Nat) : Prop := b.br.Holds R b.rs pos

/-- The offset that the reader under a buffer is asked for leads it where the offset leads from the position, if
either is a position. -/
theorem seekTarget_offset (h : At R b pos) (offset : Int64) (whence : Int) {t : Int} (ht : 0 ≤ t ∧ t < 2 ^ 63) :
    seekTarget R.content.length (R.pos b.rs) (b.offset offset whence) whence = some t ↔
      seekTarget R.content.length pos offset whence = some t := by
  have hahead := h.ahead
  have hlt := R.pos_lt b.rs
  by_cases hcurrent : whence = seekCurrent
  · subst hcurrent
    have hcount : (Int64.ofNat b.br.buffered).toInt = b.br.buffered := Int64.toInt_ofNat_of_lt (by omega)
    have hlow := offset.le_toInt
    have hhigh := offset.toInt_lt
    have hnot : seekCurrent ≠ seekStart := by decide
    rw [BufferedSeeker.offset, if_pos rfl, seekTarget, seekTarget, if_neg hnot, if_neg hnot, if_pos rfl, if_pos rfl,
      Option.some.injEq, Option.some.injEq, hahead]
    by_cases hfits : -2 ^ 63 ≤ offset.toInt - b.br.buffered
    · rw [toInt_sub_of_fits (by omega) (by omega), hcount]
      omega
    · -- the difference wraps, and neither leads to a position
      rw [toInt_sub_of_wraps (by omega), hcount]
      omega
  · rw [BufferedSeeker.offset, if_neg hcurrent, seekTarget, seekTarget, if_neg hcurrent, if_neg hcurrent]

/-- A read. -/
theorem At.read (h : At R b pos) (n : Nat) :
    R.PlainRead pos n (b.read R n).1.1 (b.read R n).1.2 ∧ At R (b.read R n).2 (pos + (b.read R n).1.1.length) :=
  BufReader.Holds.read h n

/-- A seek. -/
theorem At.seek (h : At R b pos) (offset : Int64) (whence : Int) :
    R.Plain pos (.seek offset whence (b.seek R offset whence).1) ∧
      At R (b.seek R offset whence).2 ((Event.seek offset whence (b.seek R offset whence).1).after pos) := by
  obtain ⟨hplain, hpos⟩ := R.plain_seek b.rs (b.offset offset whence) whence
  unfold BufferedSeeker.seek
  rcases hseek : R.seek b.rs (b.offset offset whence) whence with ⟨err | n, rs⟩
  · rw [hseek] at hplain hpos
    refine ⟨fun t ht hallowed => hplain t ?_ hallowed, ?_, h.bytes, ?_, h.reports⟩
    · exact (seekTarget_offset h offset whence (R.allowed_fits t hallowed)).2 ht
    · exact hpos.trans h.ahead
    · intro heof
      exact (h.eof heof).trans (Nat.le_of_eq hpos.symm)
  · rw [hseek] at hplain hpos
    refine ⟨⟨(seekTarget_offset h offset whence (R.allowed_fits _ hplain.2)).1 hplain.1, hplain.2⟩, ?_⟩
    have hreset : At R ⟨rs, b.br.reset⟩ (R.pos rs) := BufReader.holds_empty rfl rfl
    rwa [hpos] at hreset

/-- A call. -/
theorem At.step (h : At R b pos) (c : Call) :
    R.Plain pos (b.step R c).1 ∧ At R (b.step R c).2 ((b.step R c).1.after pos) := by
  cases c with
  | read n => exact h.read n
  | seek offset whence => exact h.seek offset whence

/-- The calls, one after the other. -/
theorem At.run (h : At R b pos) (cs : List Call) :
    R.PlainRun pos (b.run R cs).1 ∧ At R (b.run R cs).2 (logical pos (b.run R cs).1) :=
  plainRun_runCalls (fun _ _ c hb => hb.step c) h cs

/-- A seeker is made with nothing buffered. -/
theorem at_new (R : ReadSeeker σ ε) (s : σ) (size : Int) : At R (newBufferedSeeker s size) (R.pos s) :=
  BufReader.holds_empty rfl rfl

/-- A seek that succeeds leaves nothing in the buffer. -/
theorem buffered_of_ok {offset : Int64} {whence : Int} {n : Int64} (hok : (b.seek R offset whence).1 = .ok n) :
    (b.seek R offset whence).2.br.buffered = 0 := by
  unfold BufferedSeeker.seek at hok ⊢
  rcases hseek : R.seek b.rs (b.offset offset whence) whence with ⟨err | m, rs⟩
  · rw [hseek] at hok
    cases hok
  · rfl

/-- A seek that succeeds leaves the reader under the buffer where it says. -/
theorem At.seek_ok (h : At R b pos) {offset : Int64} {whence : Int} {n : Int64}
    (hok : (b.seek R offset whence).1 = .ok n) :
    (R.pos (b.seek R offset whence).2.rs : Int) = n.toInt := by
  obtain ⟨hplain, hat⟩ := h.seek offset whence
  have hahead := hat.ahead
  rw [hok] at hplain hahead
  rw [buffered_of_ok hok, Event.after] at hahead
  have hfits := R.allowed_fits _ hplain.2
  omega

end BufferedSeeker

/-- A buffered seeker answers every call as a reader without a buffer can that stands where the answers before lead
to. The reader under it is ahead of that position by what is buffered, and is at it after a seek that succeeds, which
has answered with it. -/
theorem bufferedSeeker_transparent (R : ReadSeeker σ ε) (size : Int) (s : σ) (cs : List Call) :
    R.PlainRun (R.pos s) ((newBufferedSeeker s size).run R cs).1 ∧
    R.pos ((newBufferedSeeker s size).run R cs).2.rs =
      logical (R.pos s) ((newBufferedSeeker s size).run R cs).1 + ((newBufferedSeeker s size).run R cs).2.br.buffered ∧
    ∀ offset whence n, ((newBufferedSeeker s size).run R cs).1.getLast? = some (.seek offset whence (.ok n)) →
      (R.pos ((newBufferedSeeker s size).run R cs).2.rs : Int) = n.toInt ∧
      R.pos ((newBufferedSeeker s size).run R cs).2.rs = logical (R.pos s) ((newBufferedSeeker s size).run R cs).1 := by
  obtain ⟨hrun, hat⟩ := (BufferedSeeker.at_new R s size).run cs
  refine ⟨hrun, hat.ahead, ?_⟩
  intro offset whence n hlast
  obtain rfl | ⟨before, c, rfl⟩ := List.eq_nil_or_concat' cs
  · cases hlast
  · have hbefore := ((BufferedSeeker.at_new R s size).run before).2
    simp only [BufferedSeeker.run, runCalls_concat] at hlast ⊢
    rw [List.getLast?_concat, Option.some.injEq] at hlast
    cases c with
    | read k => cases hlast
    | seek offset' whence' =>
      have hok : (((newBufferedSeeker s size).run R before).2.seek R offset' whence').1 = .ok n :=
        (Event.seek.inj hlast).2.2
      refine ⟨hbefore.seek_ok hok, ?_⟩
      have hahead := hat.ahead
      simp only [BufferedSeeker.run, runCalls_concat] at hahead
      rw [hahead]
      exact congrArg _ (BufferedSeeker.buffered_of_ok hok)

/-! ## A text -/

/-- The letters. -/
def alphabet : ReadSeeker (Fin (2 ^ 63)) Bytes := stringsReader (ascii "abcdefghijklmnopqrstuvwxyz") (by decide)

/-- The beginning is read twice, a letter is left out, and the end is read. -/
def alphabetCalls : List Call :=
  [.read 5, .seek 0 seekStart, .read 1, .seek 1 seekCurrent, .read 5, .seek 0 seekStart, .read 5, .seek (-5) seekEnd]

/-- The letters, through a buffer. -/
theorem bufferedSeeker_transparent_alphabet :
    alphabet.PlainRun 0 [.read 5 (ascii "abcde") none, .seek 0 seekStart (.ok 0), .read 1 (ascii "a") none,
      .seek 1 seekCurrent (.ok 2),
      .read 5 (ascii "cdefg") none, .seek 0 seekStart (.ok 0), .read 5 (ascii "abcde") none,
        .seek (-5) seekEnd (.ok 21)] ∧
    (alphabet.pos ((newBufferedSeeker 0 0).run alphabet alphabetCalls).2.rs : Int) = 21 := by
  obtain ⟨hrun, -, hlast⟩ := bufferedSeeker_transparent alphabet 0 0 alphabetCalls
  exact ⟨hrun, (hlast (-5) seekEnd 21 rfl).1⟩

/-- One letter is read, and a seek leads before the beginning. -/
def seekBefore : List Call := [.read 1, .seek (-5) seekCurrent]

/-- After a seek that fails the reader under the buffer is not at the position. -/
theorem bufferedSeeker_ahead :
    ¬∀ offset whence result, ((newBufferedSeeker 0 0).run alphabet seekBefore).1.getLast? =
      some (.seek offset whence result) →
      alphabet.pos ((newBufferedSeeker 0 0).run alphabet seekBefore).2.rs =
        logical 0 ((newBufferedSeeker 0 0).run alphabet seekBefore).1 := by
  intro h
  have hpos := h (-5) seekCurrent (.error (.other (ascii "strings.Reader.Seek: negative position"))) rfl
  revert hpos
  decide

end Ollama.Bufioutil
