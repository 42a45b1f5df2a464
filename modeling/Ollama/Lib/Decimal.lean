import Ollama.Lib.Utf8
import Mathlib.Data.List.Infix

/-!
# Decimal numbers in texts

A number is written with digits only, so a byte below them after it in a text says where it ends: numbers in the same
place of a text are equal (`decimal_eq`), and texts that differ in a number are ordered as its digits are
(`append_lt_append_iff`).
-/

namespace Ollama.Lib

/-- A decimal number, as `%d` writes it. -/
def decimal (n : Nat) : Bytes := (Nat.toDigits 10 n).map (fun c => UInt8.ofNat c.toNat)

theorem decimal_ne_nil (n : Nat) : decimal n ≠ [] := by simp [decimal]

/-- The character of a digit. -/
theorem toNat_of_isDigit {c : Char} (h : c.isDigit = true) : 48 ≤ c.toNat ∧ c.toNat ≤ 57 := by
  simp only [Char.isDigit, Bool.and_eq_true, decide_eq_true_eq, ge_iff_le, UInt32.le_iff_toNat_le] at h
  exact h

theorem digit_of_mem_decimal {n : Nat} {b : UInt8} (h : b ∈ decimal n) : 0x30 ≤ b ∧ b ≤ 0x39 := by
  obtain ⟨c, hc, rfl⟩ := List.mem_map.1 h
  obtain ⟨hlow, hhigh⟩ := toNat_of_isDigit (Nat.isDigit_of_mem_toDigits (by decide) (by decide) hc)
  have h30 : (0x30 : UInt8).toNat = 48 := rfl
  have h39 : (0x39 : UInt8).toNat = 57 := rfl
  simp only [UInt8.le_iff_toNat_le, UInt8.toNat_ofNat', h30, h39]
  omega

/-- The digits as characters. -/
theorem map_decimal (n : Nat) : (decimal n).map (fun b => Char.ofNat b.toNat) = Nat.toDigits 10 n := by
  rw [decimal, List.map_map]
  refine (List.map_congr_left (fun c hc => ?_)).trans (List.map_id _)
  obtain ⟨hlow, hhigh⟩ := toNat_of_isDigit (Nat.isDigit_of_mem_toDigits (by decide) (by decide) hc)
  have hbyte : (UInt8.ofNat c.toNat).toNat = c.toNat := by
    rw [UInt8.toNat_ofNat']
    omega
  rw [Function.comp_apply, hbyte, Char.ofNat_toNat, id]

/-- The digits of a number say which number it is. -/
theorem decimal_injective {m n : Nat} (h : decimal m = decimal n) : m = n := by
  have hdigits : Nat.toDigits 10 m = Nat.toDigits 10 n := by rw [← map_decimal, h, map_decimal]
  rw [← Nat.ofDigitChars_ten_toDigits (n := m), hdigits, Nat.ofDigitChars_ten_toDigits]

/-! ## What follows a number -/

section

variable {α : Type*}

/-- Two lists end where the first entry is that neither has. -/
theorem eq_of_same_end {c : α} {a b x : List α} (ha : c ∉ a) (hb : c ∉ b) (h : a ++ [c] <+: b ++ c :: x) : a = b := by
  induction a generalizing b with
  | nil =>
    cases b with
    | nil => rfl
    | cons y b =>
      have : c = y := (List.cons_prefix_cons.1 h).1
      exact (hb (this ▸ List.mem_cons_self)).elim
  | cons y a ih =>
    cases b with
    | nil =>
      have : y = c := (List.cons_prefix_cons.1 h).1
      exact (ha (this ▸ List.mem_cons_self)).elim
    | cons z b =>
      obtain ⟨hyz, htail⟩ := List.cons_prefix_cons.1 h
      rw [hyz, ih (fun hmem => ha (List.mem_cons_of_mem _ hmem)) (fun hmem => hb (List.mem_cons_of_mem _ hmem)) htail]

end

/-- Different texts of larger bytes, with the same byte after them, are ordered as they are themselves. -/
theorem append_lt_append_iff {c : UInt8} {a b x y : Bytes} (ha : ∀ d ∈ a, c < d) (hb : ∀ d ∈ b, c < d) (hne : a ≠ b) :
    a ++ c :: x < b ++ c :: y ↔ a < b := by
  induction a generalizing b with
  | nil =>
    cases b with
    | nil => exact (hne rfl).elim
    | cons d b =>
      have hd := hb d List.mem_cons_self
      simp [List.cons_lt_cons_iff, hd]
  | cons d a ih =>
    have hd := ha d List.mem_cons_self
    cases b with
    | nil =>
      have hnot : ¬d < c := UInt8.lt_asymm hd
      have hne' : d ≠ c := (UInt8.ne_of_lt hd).symm
      simp [List.cons_lt_cons_iff, hnot, hne']
    | cons e b =>
      rw [List.cons_append, List.cons_append, List.cons_lt_cons_iff, List.cons_lt_cons_iff]
      by_cases hde : d = e
      · subst hde
        rw [ih (fun z hz => ha z (List.mem_cons_of_mem _ hz)) (fun z hz => hb z (List.mem_cons_of_mem _ hz))
          (fun hab => hne (by rw [hab]))]
      · simp [hde]

/-- A number in a text is the one in the same place of another text. -/
theorem decimal_eq {m n : Nat} {x : Bytes} (h : decimal m ++ [0x2E] <+: decimal n ++ 0x2E :: x) : m = n := by
  have hdot : ∀ k : Nat, (0x2E : UInt8) ∉ decimal k := fun k hmem => absurd (digit_of_mem_decimal hmem).1 (by decide)
  exact decimal_injective (eq_of_same_end (hdot m) (hdot n) h)

/-- The order of texts that differ in a number is that of its digits. -/
theorem decimal_lt_iff {m n : Nat} (h : m ≠ n) (w x y : Bytes) :
    w ++ (decimal m ++ 0x2E :: x) < w ++ (decimal n ++ 0x2E :: y) ↔ decimal m < decimal n := by
  have hdot : ∀ k : Nat, ∀ d ∈ decimal k, (0x2E : UInt8) < d := by
    intro k d hd
    have hlow := (digit_of_mem_decimal hd).1
    rw [UInt8.le_iff_toNat_le] at hlow
    rw [UInt8.lt_iff_toNat_lt]
    exact Nat.lt_of_lt_of_le (by decide) hlow
  rw [← append_lt_append_iff (hdot m) (hdot n) (fun hmn => h (decimal_injective hmn))]
  induction w with
  | nil => exact Iff.rfl
  | cons b w ih =>
    rw [List.cons_append, List.cons_append, List.cons_lt_cons_iff]
    simpa using ih

end Ollama.Lib
