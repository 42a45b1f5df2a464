import Mathlib.Data.List.Infix
import Mathlib.Tactic.Common
import Mathlib.Data.UInt

/-!
# UTF-8

A text is a list of bytes. It is read by a machine that stands between characters or owes continuation bytes; the
first byte of a character says how many follow and, for some, what the second may be. A text is valid when the machine
ends between characters. A text the machine does not refuse is a valid text followed by an incomplete character.
-/

namespace Ollama.Lib

/-- A Go string. -/
abbrev Bytes := List UInt8

/-- Texts are compared byte by byte. -/
instance lawfulBEqBytes : LawfulBEq Bytes := inferInstance

/-- The bytes of a text that is written in ASCII. -/
def ascii (s : String) : Bytes := s.toUTF8.data.toList

namespace Utf8

/-- Where the machine stands: how many continuation bytes are owed, and the least and greatest the next may be. -/
structure State where
  owed : Nat
  lo : UInt8
  hi : UInt8
  deriving DecidableEq, Repr

/-- Between characters. -/
def start : State := ⟨0, 0x80, 0xBF⟩

/-- The first byte of a character. -/
def lead (b : UInt8) : Option State :=
  if b < 0x80 then some start
  else if b < 0xC2 then none
  else if b < 0xE0 then some ⟨1, 0x80, 0xBF⟩
  else if b = 0xE0 then some ⟨2, 0xA0, 0xBF⟩
  else if b = 0xED then some ⟨2, 0x80, 0x9F⟩
  else if b < 0xF0 then some ⟨2, 0x80, 0xBF⟩
  else if b = 0xF0 then some ⟨3, 0x90, 0xBF⟩
  else if b < 0xF4 then some ⟨3, 0x80, 0xBF⟩
  else if b = 0xF4 then some ⟨3, 0x80, 0x8F⟩
  else none

/-- One byte. -/
def step (s : State) (b : UInt8) : Option State :=
  if s.owed = 0 then lead b
  else if s.lo ≤ b ∧ b ≤ s.hi then some ⟨s.owed - 1, 0x80, 0xBF⟩
  else none

/-- The bytes of a text, from a state on. -/
def run (s : State) : Bytes → Option State
  | [] => some s
  | b :: t => (step s b).bind (fun s' => run s' t)

/-- `utf8.ValidString`. -/
def validString (s : Bytes) : Bool := run start s = some start

/-- The longest valid beginning of at most `n` bytes. -/
def trimTo (s : Bytes) : Nat → Bytes
  | 0 => []
  | n + 1 => if validString (s.take (n + 1)) then s.take (n + 1) else trimTo s n

/-- The text without its last bytes, as many as make it valid. -/
def trimValid (s : Bytes) : Bytes := trimTo s s.length

/-! ## Runs -/

/-- A text is read by reading its two parts, one after the other. -/
theorem run_append (s : State) (t u : Bytes) : run s (t ++ u) = (run s t).bind (fun s' => run s' u) := by
  induction t generalizing s with
  | nil => rfl
  | cons b t ih =>
    simp only [List.cons_append, run]
    cases step s b with
    | none => rfl
    | some s' => exact ih s'

/-- A text that is not refused has no beginning that is. -/
theorem run_prefix {s : State} {t u : Bytes} (h : run s (t ++ u) ≠ none) : run s t ≠ none := by
  intro ht
  rw [run_append, ht] at h
  exact h rfl

/-- A first byte that owes nothing leads back to the start. -/
theorem lead_owed {b : UInt8} {s : State} (h : lead b = some s) : s.owed = 0 → s = start := by
  unfold lead at h
  split_ifs at h <;> simp only [Option.some.injEq] at h <;> subst h <;> simp [start]

/-- The machine owes nothing only between characters. -/
theorem step_owed {s s' : State} {b : UInt8} (h : step s b = some s') (h0 : s'.owed = 0) : s' = start := by
  unfold step at h
  split at h
  · exact lead_owed h h0
  · split at h
    · simp only [Option.some.injEq] at h
      subst h
      simp only at h0
      simp [start, h0]
    · nomatch h

/-- Where nothing is owed the reader is at the start. -/
theorem run_owed {t : Bytes} {s s' : State} (hs : s.owed = 0 → s = start) (h : run s t = some s') (h0 : s'.owed = 0) :
    s' = start := by
  induction t generalizing s with
  | nil =>
    simp only [run, Option.some.injEq] at h
    subst h
    exact hs h0
  | cons b t ih =>
    simp only [run, Option.bind_eq_some_iff] at h
    obtain ⟨s₁, hb, ht⟩ := h
    exact ih (step_owed hb) ht

/-- A text that is not refused is valid exactly when nothing is owed at its end. -/
theorem validString_iff {t : Bytes} {s : State} (h : run start t = some s) : validString t = true ↔ s.owed = 0 := by
  simp only [validString, decide_eq_true_eq, h, Option.some.injEq]
  constructor
  · rintro rfl
    rfl
  · exact run_owed (fun _ => rfl) h

@[simp] theorem validString_nil : validString [] = true := rfl

/-- Behind a valid text the reader is at the start. -/
theorem validString_append {s t : Bytes} (hs : validString s) : run start (s ++ t) = run start t := by
  simp only [validString, decide_eq_true_eq] at hs
  rw [run_append, hs]
  rfl

/-- Valid texts join to a valid one. -/
theorem validString_flatten {cs : List Bytes} (h : ∀ c ∈ cs, validString c) : validString cs.flatten := by
  induction cs with
  | nil => rfl
  | cons c cs ih =>
    have hrest := ih (fun x hx => h x (List.mem_cons_of_mem _ hx))
    unfold validString at hrest ⊢
    rw [List.flatten_cons, validString_append (h c (List.mem_cons_self ..))]
    exact hrest

/-- Trimming to within a text does not depend on what follows it. -/
theorem trimTo_append {s : Bytes} (t : Bytes) {n : Nat} (h : n ≤ s.length) : trimTo (s ++ t) n = trimTo s n := by
  induction n with
  | zero => rfl
  | succ n ih => simp only [trimTo, List.take_append_of_le_length h, ih (by omega)]

@[simp] theorem trimValid_nil : trimValid [] = [] := rfl

/-- A valid text is not trimmed. -/
theorem trimValid_of_valid {s : Bytes} (h : validString s) : trimValid s = s := by
  unfold trimValid
  cases hn : s.length with
  | zero =>
    rw [List.length_eq_zero_iff.1 hn]
    rfl
  | succ n =>
    have hall : s.take (n + 1) = s := by rw [← hn, List.take_length]
    rw [trimTo, hall, if_pos h]

/-- A byte that does not complete a character is trimmed. -/
theorem trimValid_concat {s : Bytes} {b : UInt8} (h : ¬validString (s ++ [b])) :
    trimValid (s ++ [b]) = trimValid s := by
  have hall : (s ++ [b]).take (s.length + 1) = s ++ [b] := List.take_of_length_le (by simp)
  have hlen : (s ++ [b]).length = s.length + 1 := by simp
  rw [trimValid, hlen, trimTo, hall, if_neg h]
  exact trimTo_append [b] (Nat.le_refl _)

/-- What is left is a beginning of the text. -/
theorem trimValid_prefix (s : Bytes) : trimValid s <+: s := by
  induction s using List.reverseRecOn with
  | nil => exact List.nil_prefix
  | append_singleton s b ih =>
    by_cases h : validString (s ++ [b])
    · rw [trimValid_of_valid h]
    · rw [trimValid_concat h]
      exact ih.trans (List.prefix_append _ _)

/-- What is left after trimming is valid. -/
theorem validString_trimValid (s : Bytes) : validString (trimValid s) := by
  induction s using List.reverseRecOn with
  | nil => rfl
  | append_singleton s b ih =>
    by_cases h : validString (s ++ [b])
    · rw [trimValid_of_valid h]
      exact h
    · rw [trimValid_concat h]
      exact ih

/-- A valid text stays in front of what is trimmed. -/
theorem trimValid_append {s : Bytes} (hs : validString s) (t : Bytes) : trimValid (s ++ t) = s ++ trimValid t := by
  induction t using List.reverseRecOn with
  | nil => rw [List.append_nil, trimValid_nil, List.append_nil, trimValid_of_valid hs]
  | append_singleton t b ih =>
    have hiff : validString (s ++ (t ++ [b])) = validString (t ++ [b]) := by
      unfold validString
      rw [validString_append hs]
    by_cases h : validString (t ++ [b])
    · rw [trimValid_of_valid h, trimValid_of_valid (hiff.trans h)]
    · rw [trimValid_concat h, ← ih, ← List.append_assoc]
      apply trimValid_concat
      rw [List.append_assoc, hiff]
      exact h

/-! ## How a text ends -/

/-- What a byte has to satisfy it satisfies if all 256 do. -/
theorem forall_byte {P : UInt8 → Prop} (h : ∀ n : Fin 256, P (UInt8.ofNat n)) (b : UInt8) : P b := by
  have := h ⟨b.toNat, b.toNat_lt⟩
  rwa [UInt8.ofNat_toNat] at this

/-- The bounds of a continuation byte. -/
def Bounded (s : State) : Prop := 0x80 ≤ s.lo ∧ s.hi ≤ 0xBF

/-- A first byte leaves bounds for the next. -/
theorem lead_bounded {b : UInt8} {s : State} (h : lead b = some s) : Bounded s := by
  unfold lead at h
  split_ifs at h <;> simp only [Option.some.injEq] at h <;> subst h <;> exact ⟨by decide, by decide⟩

/-- A byte leaves bounds for the next. -/
theorem step_bounded {s s' : State} {b : UInt8} (h : step s b = some s') : Bounded s' := by
  unfold step at h
  split at h
  · exact lead_bounded h
  · split at h
    · simp only [Option.some.injEq] at h
      subst h
      exact ⟨UInt8.le_refl _, UInt8.le_refl _⟩
    · nomatch h

/-- A text is read by reading all but its last byte, and then that. -/
theorem run_concat {s s' : State} {t : Bytes} {b : UInt8} :
    run s (t ++ [b]) = some s' ↔ ∃ s₁, run s t = some s₁ ∧ step s₁ b = some s' := by
  rw [run_append, Option.bind_eq_some_iff]
  refine exists_congr fun s₁ => and_congr_right fun _ => ?_
  simp only [run]
  rw [Option.bind_fun_some]

/-- Reading leaves bounds for the next byte. -/
theorem run_bounded {t : Bytes} {s : State} (h : run start t = some s) : Bounded s := by
  induction t using List.reverseRecOn with
  | nil =>
    simp only [run, Option.some.injEq] at h
    subst h
    exact ⟨UInt8.le_refl _, UInt8.le_refl _⟩
  | append_singleton t b _ =>
    obtain ⟨_, _, hb⟩ := run_concat.1 h
    exact step_bounded hb

/-- The last character of a text that is not refused: its first byte, and as many continuation bytes as are not owed
any more. -/
theorem run_last {t : Bytes} {s : State} (h : run start t = some s) (ht : t ≠ []) :
    ∃ t' a conts s₀, t = t' ++ a :: conts ∧ validString t' ∧ lead a = some s₀ ∧ s₀.owed = conts.length + s.owed ∧
      ∀ c ∈ conts, 0x80 ≤ c ∧ c ≤ 0xBF := by
  induction t using List.reverseRecOn generalizing s with
  | nil => exact absurd rfl ht
  | append_singleton t b ih =>
    obtain ⟨s₁, hs₁, hb⟩ := run_concat.1 h
    by_cases h0 : s₁.owed = 0
    · rw [step, if_pos h0] at hb
      exact ⟨t, b, [], s, rfl, (validString_iff hs₁).2 h0, hb, by simp, by simp⟩
    · rw [step, if_neg h0, Option.ite_none_right_eq_some] at hb
      obtain ⟨⟨hlo, hhi⟩, hs⟩ := hb
      simp only [Option.some.injEq] at hs
      subst hs
      have hne : t ≠ [] := by
        rintro rfl
        simp only [run, Option.some.injEq] at hs₁
        subst hs₁
        exact h0 rfl
      obtain ⟨t', a, conts, s₀, rfl, hvalid, hlead, howed, hconts⟩ := ih hs₁ hne
      obtain ⟨hb1, hb2⟩ := run_bounded hs₁
      refine ⟨t', a, conts ++ [b], s₀, by simp, hvalid, hlead, ?_, ?_⟩
      · simp only [List.length_append, List.length_singleton]
        omega
      · intro c hc
        rcases List.mem_append.1 hc with hc | hc
        · exact hconts c hc
        · rw [List.mem_singleton] at hc
          subst hc
          exact ⟨UInt8.le_trans hb1 hlo, UInt8.le_trans hhi hb2⟩

/-- A first byte owes three more at most. -/
theorem lead_owed_le {b : UInt8} {s : State} (h : lead b = some s) : s.owed ≤ 3 := by
  unfold lead at h
  split_ifs at h <;> simp only [Option.some.injEq] at h <;> subst h <;> decide

end Utf8

end Ollama.Lib
