import Ollama.Lib.Decimal

/-!
# Numbers of 64 bits

Sums and differences of an `int64` are those of the integers where these fit, and wrap where they do not.
`strconv.ParseInt` in base 10 and `%d`: what is written is read again (`parseInt_formatInt`).
-/

namespace Ollama.Lib

/-- A sum that is an `int64`. -/
theorem toInt_add_of_fits {a b : Int64} (hlow : -2 ^ 63 ≤ a.toInt + b.toInt) (hhigh : a.toInt + b.toInt < 2 ^ 63) :
    (a + b).toInt = a.toInt + b.toInt := by
  rw [Int64.toInt_add]
  exact Int.bmod_eq_of_le (by omega) (by omega)

/-- A difference that is an `int64`. -/
theorem toInt_sub_of_fits {a b : Int64} (hlow : -2 ^ 63 ≤ a.toInt - b.toInt) (hhigh : a.toInt - b.toInt < 2 ^ 63) :
    (a - b).toInt = a.toInt - b.toInt := by
  rw [Int64.toInt_sub]
  exact Int.bmod_eq_of_le (by omega) (by omega)

/-- A difference that is less than every `int64` wraps. -/
theorem toInt_sub_of_wraps {a b : Int64} (h : a.toInt - b.toInt < -2 ^ 63) :
    (a - b).toInt = a.toInt - b.toInt + 2 ^ 64 := by
  have hlow := a.le_toInt
  have hhigh := b.toInt_lt
  rw [Int64.toInt_sub, ← Int.add_bmod_right]
  exact Int.bmod_eq_of_le (by omega) (by omega)

/-! ## Texts -/

/-- Why a text is not read as a number: `strconv.ErrSyntax` or `strconv.ErrRange`. -/
inductive NumErr where
  | invalid
  | range
  deriving DecidableEq, Repr

/-- The digits of `strconv.ParseUint`, after those of a number. -/
def parseDigits : Nat → Bytes → Except NumErr Nat
  | n, [] => .ok n
  | n, c :: s =>
    if c < 0x30 ∨ 0x39 < c then .error .invalid
    else if 2 ^ 64 ≤ 10 * n + (c.toNat - 48) then .error .range
    else parseDigits (10 * n + (c.toNat - 48)) s

/-- `strconv.ParseUint`. -/
def parseUint (s : Bytes) : Except NumErr Nat := if s = [] then .error .invalid else parseDigits 0 s

/-- `strconv.ParseInt`, after the sign. -/
def parseSigned (neg : Bool) (s : Bytes) : Except NumErr Int64 :=
  match parseUint s with
  | .error e => .error e
  | .ok un =>
    if ¬neg ∧ 2 ^ 63 ≤ un then .error .range
    else if neg ∧ 2 ^ 63 < un then .error .range
    else .ok (if neg then -Int64.ofNat un else Int64.ofNat un)

/-- `strconv.ParseInt`. -/
def parseInt : Bytes → Except NumErr Int64
  | [] => .error .invalid
  | c :: s => if c = 0x2B then parseSigned false s else if c = 0x2D then parseSigned true s
      else parseSigned false (c :: s)

/-- An `int64`, as `%d` writes it. -/
def formatInt (n : Int64) : Bytes := if n < 0 then 0x2D :: decimal n.toInt.natAbs else decimal n.toInt.natAbs

/-! ## What is written is read -/

/-- The digits after those of a number. -/
theorem parseDigits_map {cs : List Char} {n : Nat} (hcs : ∀ c ∈ cs, c.isDigit = true)
    (hfits : Nat.ofDigitChars 10 cs n < 2 ^ 64) :
    parseDigits n (cs.map (fun c => UInt8.ofNat c.toNat)) = .ok (Nat.ofDigitChars 10 cs n) := by
  induction cs generalizing n with
  | nil => simp [parseDigits]
  | cons c cs ih =>
    obtain ⟨hlow, hhigh⟩ := toNat_of_isDigit (hcs c List.mem_cons_self)
    have hbyte : (UInt8.ofNat c.toNat).toNat = c.toNat := by
      rw [UInt8.toNat_ofNat']
      omega
    have hdigit : ¬(UInt8.ofNat c.toNat < 0x30 ∨ 0x39 < UInt8.ofNat c.toNat) := by
      rw [UInt8.lt_iff_toNat_lt, UInt8.lt_iff_toNat_lt, hbyte]
      show ¬(c.toNat < 48 ∨ 57 < c.toNat)
      omega
    have hzero : '0'.toNat = 48 := rfl
    rw [Nat.ofDigitChars_cons, hzero] at hfits ⊢
    have hle : 10 * n + (c.toNat - 48) ≤ Nat.ofDigitChars 10 cs (10 * n + (c.toNat - 48)) := by
      rw [Nat.ofDigitChars_eq_ofDigitChars_zero]
      have hpos : 0 < 10 ^ cs.length := Nat.pow_pos (by decide)
      exact (Nat.le_mul_of_pos_left _ hpos).trans (Nat.le_add_right _ _)
    rw [List.map_cons, parseDigits, if_neg hdigit, hbyte, if_neg (by omega)]
    exact ih (fun d hd => hcs d (List.mem_cons_of_mem _ hd)) hfits

/-- What `%d` writes for a number is read as the number. -/
theorem parseUint_decimal {n : Nat} (hfits : n < 2 ^ 64) : parseUint (decimal n) = .ok n := by
  have hdigits : ∀ c ∈ Nat.toDigits 10 n, c.isDigit = true :=
    fun c hc => Nat.isDigit_of_mem_toDigits (by decide) (by decide) hc
  rw [parseUint, if_neg (decimal_ne_nil n), decimal, parseDigits_map hdigits (by rwa [Nat.ofDigitChars_ten_toDigits]),
    Nat.ofDigitChars_ten_toDigits]

/-- A number without a sign. -/
theorem parseInt_decimal (n : Nat) : parseInt (decimal n) = parseSigned false (decimal n) := by
  cases hn : decimal n with
  | nil => exact absurd hn (decimal_ne_nil n)
  | cons c s =>
    have hlow := (digit_of_mem_decimal (n := n) (by rw [hn]; exact List.mem_cons_self)).1
    have hplus : c ≠ 0x2B := fun hc => absurd (hc ▸ hlow) (by decide)
    have hminus : c ≠ 0x2D := fun hc => absurd (hc ▸ hlow) (by decide)
    rw [parseInt, if_neg hplus, if_neg hminus]

/-- What `%d` writes is read as what is written. -/
theorem parseInt_formatInt (n : Int64) : parseInt (formatInt n) = .ok n := by
  have hlow := n.le_toInt
  have hhigh := n.toInt_lt
  unfold formatInt
  split
  · rename_i hneg
    rw [Int64.lt_iff_toInt_lt, Int64.toInt_zero] at hneg
    have hvalue : -Int64.ofNat n.toInt.natAbs = n := by
      apply Int64.toInt.inj
      rw [Int64.toInt_neg_ofNat_of_le (by omega)]
      omega
    simp [parseInt, parseSigned, parseUint_decimal (n := n.toInt.natAbs) (by omega), hvalue]
    omega
  · rename_i hneg
    rw [Int64.lt_iff_toInt_lt, Int64.toInt_zero] at hneg
    have hvalue : Int64.ofNat n.toInt.natAbs = n := by
      apply Int64.toInt.inj
      rw [Int64.toInt_ofNat_of_lt (by omega)]
      omega
    rw [parseInt_decimal]
    simp [parseSigned, parseUint_decimal (n := n.toInt.natAbs) (by omega), hvalue]
    omega

end Ollama.Lib
