import Ollama.Lib.Utf8

/-!
# Runes

The characters of a text as numbers. A byte that begins no character is the replacement character, and takes one byte.
-/

namespace Ollama.Lib.Utf8

/-- The replacement character. -/
def runeError : Nat := 0xFFFD

/-- The continuation bytes that are owed, and the value with their bits. -/
def continued : Nat → State → Nat → Bytes → Option (Nat × Bytes)
  | 0, _, value, s => some (value, s)
  | _ + 1, _, _, [] => none
  | n + 1, st, value, b :: s => (step st b).bind (fun st' => continued n st' (value * 64 + (b.toNat - 0x80)) s)

/-- The bits of a first byte. -/
def leadBits (b : UInt8) (owed : Nat) : Nat :=
  match owed with
  | 0 => b.toNat
  | 1 => b.toNat - 0xC0
  | 2 => b.toNat - 0xE0
  | _ => b.toNat - 0xF0

/-- `utf8.DecodeRune`, with what follows the rune. -/
def decodeRune (b : UInt8) (s : Bytes) : Nat × Bytes :=
  match lead b with
  | none => (runeError, s)
  | some st => (continued st.owed st (leadBits b st.owed) s).getD (runeError, s)

/-- The runes of a text, at most `n`. -/
def runesUpTo : Nat → Bytes → List Nat
  | 0, _ => []
  | _ + 1, [] => []
  | n + 1, b :: s => (decodeRune b s).1 :: runesUpTo n (decodeRune b s).2

/-- `[]rune(s)`. -/
def runes (s : Bytes) : List Nat := runesUpTo s.length s

/-- Whether a number is a character. -/
def validRune (r : Nat) : Prop := r < 0xD800 ∨ (0xE000 ≤ r ∧ r < 0x110000)

instance (r : Nat) : Decidable (validRune r) := inferInstanceAs (Decidable (_ ∨ _))

/-- The bytes of a rune, as `utf8.AppendRune` writes them. -/
def encodeRune (r : Nat) : Bytes :=
  if r < 0x80 then [UInt8.ofNat r]
  else if r < 0x800 then [UInt8.ofNat (0xC0 + r / 64), UInt8.ofNat (0x80 + r % 64)]
  else if ¬validRune r then [0xEF, 0xBF, 0xBD]
  else if r < 0x10000 then
    [UInt8.ofNat (0xE0 + r / 4096), UInt8.ofNat (0x80 + r / 64 % 64), UInt8.ofNat (0x80 + r % 64)]
  else
    [UInt8.ofNat (0xF0 + r / 262144), UInt8.ofNat (0x80 + r / 4096 % 64), UInt8.ofNat (0x80 + r / 64 % 64),
      UInt8.ofNat (0x80 + r % 64)]

/-- `string(rs)`. -/
def ofRunes (rs : List Nat) : Bytes := rs.flatMap encodeRune

theorem toNat_ofNat {n : Nat} (h : n < 256) : (UInt8.ofNat n).toNat = n := by
  rw [UInt8.toNat_ofNat']
  exact Nat.mod_eq_of_lt h

theorem continued_length {n : Nat} {st : State} {value r : Nat} {s rest : Bytes}
    (h : continued n st value s = some (r, rest)) : rest.length ≤ s.length := by
  induction n generalizing st value s with
  | zero =>
    simp only [continued, Option.some.injEq, Prod.mk.injEq] at h
    rw [h.2]
  | succ n ih =>
    cases s with
    | nil => nomatch h
    | cons b s =>
      simp only [continued, Option.bind_eq_some_iff] at h
      obtain ⟨st', _, h⟩ := h
      exact Nat.le_succ_of_le (ih h)

theorem decodeRune_length (b : UInt8) (s : Bytes) : (decodeRune b s).2.length ≤ s.length := by
  unfold decodeRune
  cases lead b with
  | none => exact Nat.le_refl _
  | some st =>
    dsimp only
    rcases hc : continued st.owed st (leadBits b st.owed) s with _ | ⟨r, rest⟩
    · exact Nat.le_refl _
    · exact continued_length hc

/-- More room than the text has bytes changes nothing. -/
theorem runesUpTo_eq {n : Nat} {s : Bytes} (h : s.length ≤ n) : runesUpTo n s = runes s := by
  unfold runes
  induction n using Nat.strong_induction_on generalizing s with
  | _ n ih =>
    cases s with
    | nil => cases n <;> rfl
    | cons b s =>
      cases n with
      | zero => simp at h
      | succ n =>
        have hlen := decodeRune_length b s
        simp only [List.length_cons] at h
        simp only [runesUpTo, List.length_cons]
        rw [ih n (Nat.lt_succ_self n) (by omega)]
        by_cases heq : s.length = n
        · rw [heq, ih n (Nat.lt_succ_self n) (by omega)]
        · rw [ih s.length (by omega) hlen]

@[simp] theorem runes_nil : runes [] = [] := rfl

theorem runes_cons (b : UInt8) (s : Bytes) : runes (b :: s) = (decodeRune b s).1 :: runes (decodeRune b s).2 := by
  show runesUpTo (s.length + 1) (b :: s) = _
  rw [runesUpTo, runesUpTo_eq (decodeRune_length b s)]

/-! ## Round trips -/

/-- The first byte of a character, as a number. -/
theorem lead_ofNat {n : Nat} (h : n < 256) : lead (UInt8.ofNat n) =
    if n < 0x80 then some start
    else if n < 0xC2 then none
    else if n < 0xE0 then some ⟨1, 0x80, 0xBF⟩
    else if n = 0xE0 then some ⟨2, 0xA0, 0xBF⟩
    else if n = 0xED then some ⟨2, 0x80, 0x9F⟩
    else if n < 0xF0 then some ⟨2, 0x80, 0xBF⟩
    else if n = 0xF0 then some ⟨3, 0x90, 0xBF⟩
    else if n < 0xF4 then some ⟨3, 0x80, 0xBF⟩
    else if n = 0xF4 then some ⟨3, 0x80, 0x8F⟩
    else none := by
  simp only [lead, UInt8.lt_iff_toNat_lt, ← UInt8.toNat_inj, toNat_ofNat h]
  rfl

/-- A continuation byte in its bounds. -/
theorem continued_succ {n owed : Nat} {lo hi : UInt8} {value c : Nat} {s : Bytes} (hc : c < 64) (howed : owed ≠ 0)
    (hlo : lo.toNat ≤ 0x80 + c) (hhi : 0x80 + c ≤ hi.toNat) :
    continued (n + 1) ⟨owed, lo, hi⟩ value (UInt8.ofNat (0x80 + c) :: s) =
      continued n ⟨owed - 1, 0x80, 0xBF⟩ (value * 64 + c) s := by
  have hb : lo ≤ UInt8.ofNat (0x80 + c) ∧ UInt8.ofNat (0x80 + c) ≤ hi := by
    rw [UInt8.le_iff_toNat_le, UInt8.le_iff_toNat_le, toNat_ofNat (by omega)]
    exact ⟨hlo, hhi⟩
  rw [continued, step, if_neg howed, if_pos hb, toNat_ofNat (by omega), Nat.add_sub_cancel_left]
  rfl

/-- A continuation byte, where none is ruled out. -/
theorem continued_any {n owed value c : Nat} {s : Bytes} (hc : c < 64) (howed : owed ≠ 0) :
    continued (n + 1) ⟨owed, 0x80, 0xBF⟩ value (UInt8.ofNat (0x80 + c) :: s) =
      continued n ⟨owed - 1, 0x80, 0xBF⟩ (value * 64 + c) s := by
  refine continued_succ hc howed (Nat.le_add_right _ _) ?_
  show 0x80 + c ≤ 0xBF
  omega

theorem decodeRune_of_lead {n owed : Nat} {lo hi : UInt8} {s : Bytes} {out : Nat × Bytes}
    (hl : lead (UInt8.ofNat n) = some ⟨owed, lo, hi⟩)
    (hc : continued owed ⟨owed, lo, hi⟩ (leadBits (UInt8.ofNat n) owed) s = some out) :
    decodeRune (UInt8.ofNat n) s = out := by
  simp only [decodeRune, hl, hc, Option.getD_some]

/-- A character is read back. -/
theorem runes_encodeRune {r : Nat} (h : validRune r) (s : Bytes) : runes (encodeRune r ++ s) = r :: runes s := by
  have hcont : ∀ x, x % 64 < 64 := fun x => Nat.mod_lt x (by decide)
  have hread : ∀ n rest, decodeRune (UInt8.ofNat n) (rest ++ s) = (r, s) →
      runes (UInt8.ofNat n :: rest ++ s) = r :: runes s := by
    intro n rest hd
    rw [List.cons_append, runes_cons, hd]
  by_cases h1 : r < 0x80
  · have hr : r < 256 := by omega
    have hl : lead (UInt8.ofNat r) = some ⟨0, 0x80, 0xBF⟩ := by
      rw [lead_ofNat hr, if_pos h1, start]
    have hd : decodeRune (UInt8.ofNat r) ([] ++ s) = (r, s) := by
      refine decodeRune_of_lead hl ?_
      have hbits : leadBits (UInt8.ofNat r) 0 = r := toNat_ofNat hr
      rw [continued, hbits, List.nil_append]
    have henc : encodeRune r = [UInt8.ofNat r] := if_pos h1
    rw [henc]
    exact hread r [] hd
  · rw [encodeRune, if_neg h1]
    split
    · rename_i h2
      generalize hn : 0xC0 + r / 64 = n
      have hl : lead (UInt8.ofNat n) = some ⟨1, 0x80, 0xBF⟩ := by
        rw [lead_ofNat (by omega), if_neg (by omega), if_neg (by omega), if_pos (by omega)]
      refine hread n [_] (decodeRune_of_lead hl ?_)
      have hbits : leadBits (UInt8.ofNat n) 1 = r / 64 := by
        show (UInt8.ofNat n).toNat - 0xC0 = r / 64
        rw [toNat_ofNat (by omega)]
        omega
      rw [List.singleton_append, continued_any (hcont r) (by decide), continued, hbits, Nat.div_add_mod']
    · rename_i h2
      unfold validRune at h
      split
      · rename_i h3
        generalize hn : 0xE0 + r / 4096 = n
        obtain ⟨lo, hi, hl, hlo, hhi⟩ : ∃ lo hi : UInt8, lead (UInt8.ofNat n) = some ⟨2, lo, hi⟩ ∧
            lo.toNat ≤ 0x80 + r / 64 % 64 ∧ 0x80 + r / 64 % 64 ≤ hi.toNat := by
          rw [lead_ofNat (by omega), if_neg (by omega), if_neg (by omega), if_neg (by omega)]
          split
          · exact ⟨_, _, rfl, by show 160 ≤ _; omega, by show _ ≤ 191; omega⟩
          · split
            · exact ⟨_, _, rfl, by show 128 ≤ _; omega, by show _ ≤ 159; omega⟩
            · rw [if_pos (by omega)]
              exact ⟨_, _, rfl, by show 128 ≤ _; omega, by show _ ≤ 191; omega⟩
        have hbits : leadBits (UInt8.ofNat n) 2 = r / 4096 := by
          show (UInt8.ofNat n).toNat - 0xE0 = r / 4096
          rw [toNat_ofNat (by omega)]
          omega
        have hvalue : (r / 4096 * 64 + r / 64 % 64) * 64 + r % 64 = r := by omega
        refine hread n [_, _] (decodeRune_of_lead hl ?_)
        rw [List.cons_append, List.singleton_append, continued_succ (hcont _) (by decide) hlo hhi,
          continued_any (hcont r) (by decide), continued, hbits, hvalue]
      · rename_i h3
        generalize hn : 0xF0 + r / 262144 = n
        obtain ⟨lo, hi, hl, hlo, hhi⟩ : ∃ lo hi : UInt8, lead (UInt8.ofNat n) = some ⟨3, lo, hi⟩ ∧
            lo.toNat ≤ 0x80 + r / 4096 % 64 ∧ 0x80 + r / 4096 % 64 ≤ hi.toNat := by
          rw [lead_ofNat (by omega), if_neg (by omega), if_neg (by omega), if_neg (by omega), if_neg (by omega),
            if_neg (by omega), if_neg (by omega)]
          split
          · exact ⟨_, _, rfl, by show 144 ≤ _; omega, by show _ ≤ 191; omega⟩
          · split
            · exact ⟨_, _, rfl, by show 128 ≤ _; omega, by show _ ≤ 191; omega⟩
            · rw [if_pos (by omega)]
              exact ⟨_, _, rfl, by show 128 ≤ _; omega, by show _ ≤ 143; omega⟩
        have hbits : leadBits (UInt8.ofNat n) 3 = r / 262144 := by
          show (UInt8.ofNat n).toNat - 0xF0 = r / 262144
          rw [toNat_ofNat (by omega)]
          omega
        have hvalue : ((r / 262144 * 64 + r / 4096 % 64) * 64 + r / 64 % 64) * 64 + r % 64 = r := by omega
        refine hread n [_, _, _] (decodeRune_of_lead hl ?_)
        rw [List.cons_append, List.cons_append, List.singleton_append, continued_succ (hcont _) (by decide) hlo hhi,
          continued_any (hcont _) (by decide), continued_any (hcont r) (by decide), continued, hbits, hvalue]

/-- Characters are read back. -/
theorem runes_ofRunes {rs : List Nat} (h : ∀ r ∈ rs, validRune r) : runes (ofRunes rs) = rs := by
  induction rs with
  | nil => rfl
  | cons r rs ih =>
    rw [ofRunes, List.flatMap_cons, runes_encodeRune (h r (List.mem_cons_self ..))]
    exact congrArg (r :: ·) (ih (fun x hx => h x (List.mem_cons_of_mem r hx)))

end Ollama.Lib.Utf8
