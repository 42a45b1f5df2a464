import Ollama.Lib.Utf8
import Mathlib.Data.List.Basic

/-!
# JSON, one byte at a time

The scanner of `encoding/json` finds where a value ends in a text: at its last bracket, or before the byte that cannot
belong to it any more. A decoder reads one value with it and converts what it has read. The conversion is a parameter,
of which it is known what the documentation says: an error is found after some of the bytes of the value, and white
space before the value does not matter.

A value that is complete before the text ends is the same value in every longer text (`scan_append_value`), unless it
is a number that the text ends with.
-/

namespace Ollama.Lib.Json

open Utf8

/-! ## The scanner -/

/-- What may come next. -/
inductive Expect where
  /-- a value -/
  | value
  /-- a value, or the end of an array -/
  | valueOrEnd
  /-- a key -/
  | key
  /-- a key, or the end of an object -/
  | keyOrEnd
  /-- what follows a value or a key -/
  | afterValue
  | string
  | escape
  /-- so many hexadecimal digits -/
  | hex (more : Nat)
  | minus
  | zero
  | digits
  | point
  | fraction
  | exponent
  | exponentSign
  | exponentDigits
  /-- the rest of `true`, `false` or `null` -/
  | word (more : Bytes)
  deriving DecidableEq

/-- What the scanner is inside of: an object, before the colon or after it, or an array. -/
inductive Inside where
  | objectKey
  | objectValue
  | array
  deriving DecidableEq

/-- The scanner. -/
structure Scanner where
  expect : Expect
  inside : List Inside
  deriving DecidableEq

/-- Where the scanner starts. -/
def start : Scanner := ⟨.value, []⟩

/-- What a byte does. -/
inductive Op where
  | next (s : Scanner)
  /-- the value has ended before it -/
  | ended
  /-- the value ends with it -/
  | closed
  /-- it is an invalid character -/
  | bad
  deriving DecidableEq

/-- `maxNestingDepth`. -/
def maxNestingDepth : Nat := 10000

def isSpace (c : UInt8) : Bool := c = 0x20 ∨ c = 0x09 ∨ c = 0x0d ∨ c = 0x0a

def isDigit (c : UInt8) : Bool := 0x30 ≤ c ∧ c ≤ 0x39

def isHexDigit (c : UInt8) : Bool := isDigit c ∨ (0x61 ≤ c ∧ c ≤ 0x66) ∨ (0x41 ≤ c ∧ c ≤ 0x46)

/-- The last bracket of an object or an array. -/
def close (inside : List Inside) : Op := if inside = [] then .closed else .next ⟨.afterValue, inside⟩

/-- The byte after a value or a key. -/
def afterValue (inside : List Inside) (c : UInt8) : Op :=
  match inside with
  | [] => .ended
  | top :: rest =>
    if isSpace c then .next ⟨.afterValue, inside⟩
    else
      match top with
      | .objectKey => if c = 0x3a then .next ⟨.value, .objectValue :: rest⟩ else .bad
      | .objectValue => if c = 0x2c then .next ⟨.key, .objectKey :: rest⟩ else if c = 0x7d then close rest else .bad
      | .array => if c = 0x2c then .next ⟨.value, inside⟩ else if c = 0x5d then close rest else .bad

/-- The first bracket of an object or an array. -/
def enter (inside : List Inside) (top : Inside) (expect : Expect) : Op :=
  if inside.length < maxNestingDepth then .next ⟨expect, top :: inside⟩ else .bad

/-- The first byte of a value. -/
def beginValue (inside : List Inside) (c : UInt8) : Op :=
  if isSpace c then .next ⟨.value, inside⟩
  else if c = 0x7b then enter inside .objectKey .keyOrEnd
  else if c = 0x5b then enter inside .array .valueOrEnd
  else if c = 0x22 then .next ⟨.string, inside⟩
  else if c = 0x2d then .next ⟨.minus, inside⟩
  else if c = 0x30 then .next ⟨.zero, inside⟩
  else if isDigit c then .next ⟨.digits, inside⟩
  else if c = 0x74 then .next ⟨.word (ascii "rue"), inside⟩
  else if c = 0x66 then .next ⟨.word (ascii "alse"), inside⟩
  else if c = 0x6e then .next ⟨.word (ascii "ull"), inside⟩
  else .bad

/-- The first byte of a key. -/
def beginKey (inside : List Inside) (c : UInt8) : Op :=
  if isSpace c then .next ⟨.key, inside⟩ else if c = 0x22 then .next ⟨.string, inside⟩ else .bad

/-- A byte after the digits before the point. -/
def afterDigits (inside : List Inside) (c : UInt8) : Op :=
  if c = 0x2e then .next ⟨.point, inside⟩
  else if c = 0x65 ∨ c = 0x45 then .next ⟨.exponent, inside⟩
  else afterValue inside c

/-- A digit that must come. -/
def needDigit (inside : List Inside) (expect : Expect) (c : UInt8) : Op :=
  if isDigit c then .next ⟨expect, inside⟩ else .bad

/-- What a byte does to the scanner. -/
def step (s : Scanner) (c : UInt8) : Op :=
  let inside := s.inside
  match s.expect with
  | .value => beginValue inside c
  | .valueOrEnd =>
    if isSpace c then .next s else if c = 0x5d then afterValue inside c else beginValue inside c
  | .key => beginKey inside c
  | .keyOrEnd =>
    if isSpace c then .next s
    else if c = 0x7d then afterValue (.objectValue :: inside.tail) c
    else beginKey inside c
  | .afterValue => afterValue inside c
  | .string =>
    if c = 0x22 then .next ⟨.afterValue, inside⟩
    else if c = 0x5c then .next ⟨.escape, inside⟩
    else if c < 0x20 then .bad
    else .next s
  | .escape =>
    if c ∈ ascii "bfnrt\\/\"" then .next ⟨.string, inside⟩ else if c = 0x75 then .next ⟨.hex 4, inside⟩ else .bad
  | .hex more =>
    if ¬isHexDigit c then .bad else if more ≤ 1 then .next ⟨.string, inside⟩ else .next ⟨.hex (more - 1), inside⟩
  | .minus => if c = 0x30 then .next ⟨.zero, inside⟩ else needDigit inside .digits c
  | .zero => afterDigits inside c
  | .digits => if isDigit c then .next s else afterDigits inside c
  | .point => needDigit inside .fraction c
  | .fraction =>
    if isDigit c then .next s
    else if c = 0x65 ∨ c = 0x45 then .next ⟨.exponent, inside⟩
    else afterValue inside c
  | .exponent => if c = 0x2b ∨ c = 0x2d then .next ⟨.exponentSign, inside⟩ else needDigit inside .exponentDigits c
  | .exponentSign => needDigit inside .exponentDigits c
  | .exponentDigits => if isDigit c then .next s else afterValue inside c
  | .word [] => afterValue inside c
  | .word (b :: more) =>
    if c ≠ b then .bad else if more = [] then .next ⟨.afterValue, inside⟩ else .next ⟨.word more, inside⟩

/-- What is at the beginning of a text. -/
inductive Scanned where
  /-- a value of so many bytes, with the white space before it -/
  | value (n : Nat)
  /-- a number that the text ends with -/
  | number (n : Nat)
  /-- an invalid character, after so many bytes have been read -/
  | syntaxError (offset : Nat)
  /-- nothing but white space -/
  | eof
  /-- the beginning of a value -/
  | unexpectedEOF
  deriving DecidableEq

/-- What is at the beginning of a text, from where the scanner has read so many bytes. At its end, a value is complete
if it would be before a space. -/
def scanFrom (s : Scanner) (n : Nat) : Bytes → Scanned
  | [] =>
    match step s 0x20 with
    | .ended => if s.expect = .afterValue then .value n else .number n
    | _ => if s = start then .eof else .unexpectedEOF
  | c :: text =>
    match step s c with
    | .next s => scanFrom s (n + 1) text
    | .ended => .value n
    | .closed => .value (n + 1)
    | .bad => .syntaxError (n + 1)

/-- What is at the beginning of a text. -/
def scan (text : Bytes) : Scanned := scanFrom start 0 text

/-! ## The decoder -/

/-- The conversion of a value: what it is converted to, or after how many bytes it was found that it has another type. -/
structure Unmarshal (α : Type*) where
  run : Bytes → Except Nat α
  offset_pos : ∀ v offset, run v = .error offset → 1 ≤ offset
  offset_le : ∀ v offset, run v = .error offset → offset ≤ v.length
  space : ∀ w v, w.all isSpace = true → run (w ++ v) = (run v).mapError (w.length + ·)

/-- A conversion that depends on a value without the space before it. The values that have none are of another type as
a whole. -/
def Unmarshal.ofValue {α : Type*} (f : Bytes → Option α) (hnil : (f []).isSome) : Unmarshal α where
  run v := (f (v.dropWhile isSpace)).elim (.error v.length) .ok
  offset_pos := by
    intro v offset h
    cases hf : f (v.dropWhile isSpace) with
    | some x =>
      rw [hf] at h
      cases h
    | none =>
      rw [hf] at h
      rw [← Except.error.inj h]
      refine List.length_pos_iff.2 fun hv => ?_
      rw [hv, List.dropWhile_nil] at hf
      rw [hf] at hnil
      cases hnil
  offset_le := by
    intro v offset h
    cases hf : f (v.dropWhile isSpace) with
    | some x =>
      rw [hf] at h
      cases h
    | none =>
      rw [hf] at h
      exact (Except.error.inj h).symm.le
  space := by
    intro w v hw
    have hdrop : (w ++ v).dropWhile isSpace = v.dropWhile isSpace :=
      List.dropWhile_append_of_pos (List.all_eq_true.1 hw)
    rw [hdrop, List.length_append]
    cases f (v.dropWhile isSpace) <;> rfl

/-- What a decoder returns. -/
inductive Decoded (α : Type*) where
  /-- the value, and how much of the text has been read -/
  | ok (x : α) (offset : Nat)
  /-- `SyntaxError` -/
  | syntaxError (offset : Nat)
  /-- `UnmarshalTypeError` -/
  | typeError (offset : Nat)
  /-- `io.EOF` -/
  | eof
  /-- `io.ErrUnexpectedEOF` -/
  | unexpectedEOF

/-- The first `Decode` of a decoder that reads a text. -/
def decode {α : Type*} (u : Unmarshal α) (text : Bytes) : Decoded α :=
  let converted := fun n =>
    match u.run (text.take n) with
    | .ok x => .ok x n
    | .error offset => .typeError offset
  match scan text with
  | .value n => converted n
  | .number n => converted n
  | .syntaxError offset => .syntaxError offset
  | .eof => .eof
  | .unexpectedEOF => .unexpectedEOF

/-! ## Longer texts -/

/-- A value has ended before a byte only outside of all brackets. -/
theorem afterValue_ended {inside : List Inside} {c : UInt8} (h : afterValue inside c = .ended) : inside = [] := by
  cases inside with
  | nil => rfl
  | cons top rest =>
    exfalso
    unfold afterValue close at h
    cases top <;> dsimp only at h <;> split_ifs at h

theorem afterValue_ne_start (inside : List Inside) (c : UInt8) : afterValue inside c ≠ .next start := by
  intro h
  cases inside with
  | nil => nomatch h
  | cons top rest =>
    unfold afterValue close at h
    cases top <;> dsimp only at h <;> split_ifs at h <;> cases h

/-- After the byte something else than a value is expected, or it is invalid. -/
def Op.Other (op : Op) : Prop := op = .bad ∨ ∃ expect inside, expect ≠ .value ∧ op = .next ⟨expect, inside⟩

theorem Op.Other.next {expect : Expect} (h : expect ≠ .value) (inside : List Inside) :
    Op.Other (.next ⟨expect, inside⟩) :=
  .inr ⟨expect, inside, h, rfl⟩

theorem Op.Other.ite {p : Prop} [Decidable p] {x y : Op} (hx : x.Other) (hy : y.Other) :
    (if p then x else y).Other := by
  split
  · exact hx
  · exact hy

/-- What the first byte of a value can do: it is white space, it is invalid, or something else than a value is
expected after it. -/
theorem beginValue_cases (inside : List Inside) (c : UInt8) :
    (isSpace c = true ∧ beginValue inside c = .next ⟨.value, inside⟩) ∨ (beginValue inside c).Other := by
  have hbad : Op.bad.Other := .inl rfl
  have henter : ∀ {top expect}, expect ≠ .value → (enter inside top expect).Other := fun hne => .ite (.next hne _) hbad
  have hnext : ∀ {expect}, expect ≠ .value → (Op.next ⟨expect, inside⟩).Other := fun hne => .next hne inside
  unfold beginValue
  by_cases hc : isSpace c = true
  · rw [if_pos hc]
    exact .inl ⟨hc, rfl⟩
  · rw [if_neg hc]
    right
    -- brackets, then a string, then numbers, then words
    refine .ite (henter Expect.noConfusion) (.ite (henter Expect.noConfusion) (.ite (hnext Expect.noConfusion) ?_))
    refine .ite (hnext Expect.noConfusion) (.ite (hnext Expect.noConfusion) (.ite (hnext Expect.noConfusion) ?_))
    exact .ite (hnext Expect.noConfusion) (.ite (hnext Expect.noConfusion) (.ite (hnext Expect.noConfusion) hbad))

theorem beginValue_eq_start {inside : List Inside} {c : UInt8} (h : beginValue inside c = .next start) :
    inside = [] ∧ isSpace c = true := by
  rcases beginValue_cases inside c with ⟨hc, heq⟩ | heq | ⟨expect, inside', hne, heq⟩
  · rw [heq] at h
    exact ⟨congrArg Scanner.inside (Op.next.inj h), hc⟩
  · rw [heq] at h
    nomatch h
  · rw [heq] at h
    exact absurd (congrArg Scanner.expect (Op.next.inj h)) hne

/-- The scanner does not come back to where it starts, but for white space. -/
theorem step_eq_start {s : Scanner} {c : UInt8} (h : step s c = .next start) : s = start ∧ isSpace c = true := by
  obtain ⟨expect, inside⟩ := s
  have hnone := afterValue_ne_start inside c
  have hobject := afterValue_ne_start (.objectValue :: inside.tail) c
  cases expect with
  | value =>
    obtain ⟨rfl, hc⟩ := beginValue_eq_start h
    exact ⟨rfl, hc⟩
  | valueOrEnd =>
    unfold step at h
    dsimp only at h
    split_ifs at h with hspace hend
    · nomatch h
    · exact absurd h hnone
    · exact absurd (beginValue_eq_start h).2 hspace
  | word more =>
    cases more with
    | nil => exact absurd h hnone
    | cons b more =>
      unfold step at h
      dsimp only at h
      split_ifs at h <;> cases h
  | _ =>
    unfold step beginKey afterDigits needDigit at h
    dsimp only at h
    first
    | exact absurd h hnone
    | (split_ifs at h <;> first | exact absurd h hnone | exact absurd h hobject | cases h)

/-- What is scanned is counted from where the scanner is. -/
theorem scanFrom_add (s : Scanner) (n k : Nat) (text : Bytes) :
    scanFrom s (n + k) text =
      match scanFrom s n text with
      | .value m => .value (m + k)
      | .number m => .number (m + k)
      | .syntaxError offset => .syntaxError (offset + k)
      | .eof => .eof
      | .unexpectedEOF => .unexpectedEOF := by
  induction text generalizing s n with
  | nil =>
    unfold scanFrom
    cases step s 0x20 with
    | ended =>
      dsimp only
      split_ifs <;> rfl
    | _ =>
      dsimp only
      split_ifs <;> rfl
  | cons c text ih =>
    rw [scanFrom, scanFrom]
    cases step s c with
    | next s' =>
      dsimp only
      rw [Nat.add_right_comm]
      exact ih s' (n + 1)
    | ended => rfl
    | closed =>
      dsimp only
      rw [Nat.add_right_comm]
    | bad =>
      dsimp only
      rw [Nat.add_right_comm]

/-- White space before a value is read over. -/
theorem scanFrom_space {w : Bytes} (hw : w.all isSpace = true) (n : Nat) (text : Bytes) :
    scanFrom start n (w ++ text) = scanFrom start (n + w.length) text := by
  induction w generalizing n with
  | nil => rfl
  | cons c w ih =>
    rw [List.all_cons, Bool.and_eq_true] at hw
    have hstep : step start c = .next start := if_pos hw.1
    rw [List.cons_append, scanFrom, hstep]
    dsimp only
    rw [ih hw.2, List.length_cons, Nat.add_right_comm, Nat.add_assoc]

/-- A text without a value is white space. -/
theorem space_of_eof {s : Scanner} {n : Nat} {text : Bytes} (h : scanFrom s n text = .eof) :
    s = start ∧ text.all isSpace = true := by
  induction text generalizing s n with
  | nil =>
    unfold scanFrom at h
    refine ⟨?_, rfl⟩
    by_contra hne
    cases hstep : step s 0x20 with
    | ended =>
      rw [hstep] at h
      dsimp only at h
      split_ifs at h
    | _ =>
      rw [hstep] at h
      dsimp only at h
      rw [if_neg hne] at h
      nomatch h
  | cons c text ih =>
    rw [scanFrom] at h
    cases hstep : step s c with
    | next s' =>
      rw [hstep] at h
      obtain ⟨rfl, htext⟩ := ih h
      obtain ⟨rfl, hc⟩ := step_eq_start hstep
      exact ⟨rfl, by rw [List.all_cons, hc, htext, Bool.and_self]⟩
    | _ =>
      rw [hstep] at h
      nomatch h

/-- A value that is complete stays so. -/
theorem scanFrom_append_value {s : Scanner} {n m : Nat} {text : Bytes} (h : scanFrom s n text = .value m)
    (more : Bytes) :
    scanFrom s n (text ++ more) = .value m := by
  induction text generalizing s n with
  | nil =>
    rw [scanFrom] at h
    cases hstep : step s 0x20 with
    | ended =>
      rw [hstep] at h
      dsimp only at h
      split_ifs at h with hafter
      obtain ⟨expect, inside⟩ := s
      obtain rfl : expect = .afterValue := hafter
      obtain rfl := afterValue_ended hstep
      cases more with
      | nil =>
        rw [List.append_nil, scanFrom, hstep]
        exact h
      | cons c more => exact h
    | _ =>
      rw [hstep] at h
      dsimp only at h
      split_ifs at h
  | cons c text ih =>
    rw [scanFrom] at h
    rw [List.cons_append, scanFrom]
    cases hstep : step s c with
    | next s' =>
      rw [hstep] at h
      exact ih h
    | _ =>
      rw [hstep] at h
      exact h

/-- An invalid character stays one. -/
theorem scanFrom_append_syntaxError {s : Scanner} {n m : Nat} {text : Bytes}
    (h : scanFrom s n text = .syntaxError m) (more : Bytes) :
    scanFrom s n (text ++ more) = .syntaxError m := by
  induction text generalizing s n with
  | nil =>
    rw [scanFrom] at h
    cases hstep : step s 0x20 <;> rw [hstep] at h <;> dsimp only at h <;> split_ifs at h
  | cons c text ih =>
    rw [scanFrom] at h
    rw [List.cons_append, scanFrom]
    cases hstep : step s c with
    | next s' =>
      rw [hstep] at h
      exact ih h
    | _ =>
      rw [hstep] at h
      exact h

/-- How much of the text is read. -/
theorem scanFrom_le {s : Scanner} {n m : Nat} {text : Bytes}
    (h : scanFrom s n text = .value m ∨ scanFrom s n text = .number m ∨ scanFrom s n text = .syntaxError m) :
    n ≤ m ∧ m ≤ n + text.length := by
  induction text generalizing s n with
  | nil =>
    rw [scanFrom] at h
    cases hstep : step s 0x20 <;> rw [hstep] at h <;> dsimp only at h <;> split_ifs at h <;> simp at h <;> simp [h]
  | cons c text ih =>
    rw [scanFrom] at h
    rw [List.length_cons]
    cases hstep : step s c with
    | next s' =>
      rw [hstep] at h
      have := ih h
      omega
    | _ =>
      rw [hstep] at h
      simp at h
      omega

/-- Something is read. -/
theorem scan_le {m : Nat} {text : Bytes}
    (h : scan text = .value m ∨ scan text = .number m ∨ scan text = .syntaxError m) :
    1 ≤ m ∧ m ≤ text.length := by
  have hle := scanFrom_le h
  refine ⟨?_, by omega⟩
  cases text with
  | nil => rcases h with h | h | h <;> nomatch h
  | cons c text =>
    unfold scan at h
    rw [scanFrom] at h
    cases hstep : step start c with
    | next s =>
      rw [hstep] at h
      exact (scanFrom_le h).1
    | ended =>
      exfalso
      have hbegin : beginValue [] c = .ended := hstep
      rcases beginValue_cases [] c with ⟨_, heq⟩ | heq | ⟨_, _, _, heq⟩
      · nomatch heq.symm.trans hbegin
      · nomatch heq.symm.trans hbegin
      · nomatch heq.symm.trans hbegin
    | _ =>
      rw [hstep] at h
      simp at h
      omega

/-! ## Longer texts, decoded -/

section

variable {α : Type*}

/-- What a decoder returns for a text that has something before it. -/
def Decoded.shift (k : Nat) : Decoded α → Decoded α
  | .ok x offset => .ok x (k + offset)
  | .syntaxError offset => .syntaxError (k + offset)
  | .typeError offset => .typeError (k + offset)
  | .eof => .eof
  | .unexpectedEOF => .unexpectedEOF

/-- A value that is complete is decoded in the same way in every longer text. -/
theorem decode_append_value (u : Unmarshal α) {text : Bytes} {n : Nat} (h : scan text = .value n) (more : Bytes) :
    decode u (text ++ more) = decode u text := by
  have hmore : scan (text ++ more) = .value n := scanFrom_append_value h more
  have htake : (text ++ more).take n = text.take n := List.take_append_of_le_length (scan_le (.inl h)).2
  unfold decode
  rw [h, hmore]
  dsimp only
  rw [htake]

theorem decode_append_syntaxError (u : Unmarshal α) {text : Bytes} {offset : Nat}
    (h : scan text = .syntaxError offset) (more : Bytes) :
    decode u (text ++ more) = .syntaxError offset := by
  have hmore : scan (text ++ more) = .syntaxError offset := scanFrom_append_syntaxError h more
  unfold decode
  rw [hmore]

/-- White space before a text is read over. -/
theorem decode_space (u : Unmarshal α) {w : Bytes} (hw : w.all isSpace = true) (text : Bytes) :
    decode u (w ++ text) = (decode u text).shift w.length := by
  have hscan : scan (w ++ text) = scanFrom start (0 + w.length) text := scanFrom_space hw 0 text
  rw [scanFrom_add] at hscan
  have htake : ∀ m, (w ++ text).take (m + w.length) = w ++ text.take m := by
    intro m
    rw [Nat.add_comm, List.take_length_add_append]
  have hconverted : ∀ m, (match u.run ((w ++ text).take (m + w.length)) with
      | .ok x => Decoded.ok x (m + w.length)
      | .error offset => .typeError offset) =
      (match u.run (text.take m) with
        | .ok x => Decoded.ok x m
        | .error offset => .typeError offset).shift w.length := by
    intro m
    rw [htake, u.space w _ hw]
    cases u.run (text.take m) with
    | ok x => exact congrArg (Decoded.ok x) (Nat.add_comm ..)
    | error offset => rfl
  unfold decode
  rw [hscan, show scanFrom start 0 text = scan text from rfl]
  cases scan text with
  | value m => exact hconverted m
  | number m => exact hconverted m
  | syntaxError offset => exact congrArg Decoded.syntaxError (Nat.add_comm ..)
  | eof => rfl
  | unexpectedEOF => rfl

/-- How much of the text a decoder has read. -/
def Decoded.offset? : Decoded α → Option Nat
  | .ok _ offset => some offset
  | .syntaxError offset => some offset
  | .typeError offset => some offset
  | _ => none

theorem decode_le (u : Unmarshal α) {text : Bytes} {k : Nat} (h : (decode u text).offset? = some k) :
    1 ≤ k ∧ k ≤ text.length := by
  have hconverted : ∀ m, 1 ≤ m ∧ m ≤ text.length → (match u.run (text.take m) with
      | .ok x => Decoded.ok x m
      | .error offset => .typeError offset).offset? = some k → 1 ≤ k ∧ k ≤ text.length := by
    intro m hm hk
    cases hrun : u.run (text.take m) with
    | ok x =>
      rw [hrun] at hk
      exact Option.some.inj hk ▸ hm
    | error offset =>
      rw [hrun] at hk
      obtain rfl : offset = k := Option.some.inj hk
      have hle := u.offset_le _ _ hrun
      rw [List.length_take] at hle
      exact ⟨u.offset_pos _ _ hrun, by omega⟩
  unfold decode at h
  cases hscan : scan text with
  | value m =>
    rw [hscan] at h
    exact hconverted m (scan_le (.inl hscan)) h
  | number m =>
    rw [hscan] at h
    exact hconverted m (scan_le (.inr (.inl hscan))) h
  | syntaxError offset =>
    rw [hscan] at h
    exact Option.some.inj h ▸ scan_le (.inr (.inr hscan))
  | eof =>
    rw [hscan] at h
    nomatch h
  | unexpectedEOF =>
    rw [hscan] at h
    nomatch h

end

end Ollama.Lib.Json
