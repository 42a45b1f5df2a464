import Mathlib.Data.List.TakeWhile
import Ollama.Llama.Grammar
import Ollama.Llama.Lemmas.Reject
import Ollama.Llama.Lemmas.Stacks

/-!
# The language of a grammar

After a text has been accepted, character by character, the stacks of a grammar derive exactly how the text can go on,
and one of them is empty exactly if the text is a sentence (`accept_iff`).
-/

namespace Ollama.Llama

open Lib

section

variable {rules : Rules} {root depth : Nat} {text : List Nat} {stks stks' : List Stack}

/-- The stacks after a text derive how the text can go on, and an empty stack says that it is a sentence. -/
theorem accept_iff (hwf : rules.WellFormed) (hroot : root < rules.length)
    (hinit : initStacks depth rules root = .ok stks) (htext : text.foldlM (accept depth rules) stks = .ok stks') :
    (∀ rest, rules.cfg.Derives [.ref root] (text ++ rest) ↔
      ∃ stack ∈ stks', rules.cfg.Derives (form rules stack) rest) ∧
      ([] ∈ stks' ↔ rules.cfg.Derives [.ref root] text) := by
  have hfirst := (initStacks_spec hwf hroot).of_ok hinit
  have hafter := (hfirst.acceptAll hwf).of_ok htext
  rw [List.nil_append] at hafter
  exact ⟨fun rest => hafter.derives_iff, hafter.nil_mem_iff⟩

/-- Numbers in parentheses. -/
def nested : Rules :=
  [[⟨.char, 0x28⟩, ⟨.ruleRef, 0⟩, ⟨.char, 0x29⟩, ⟨.alt, 0⟩, ⟨.ruleRef, 1⟩, ⟨.end_, 0⟩],
    [⟨.char, 0x30⟩, ⟨.charRngUpper, 0x39⟩, ⟨.ruleRef, 1⟩, ⟨.alt, 0⟩, ⟨.end_, 0⟩]]

theorem nested_wellFormed : nested.WellFormed := by decide

/-- `(7)` is a sentence, and `(7` is none. -/
theorem accept_nested : nested.cfg.Derives [.ref 0] [0x28, 0x37, 0x29] ∧ ¬nested.cfg.Derives [.ref 0] [0x28, 0x37] := by
  have hinit : initStacks 4 nested 0 = .ok [[⟨0, 0⟩], [⟨1, 0⟩], []] := by decide
  constructor
  · have htext : [0x28, 0x37, 0x29].foldlM (accept 4 nested) [[⟨0, 0⟩], [⟨1, 0⟩], []] = .ok [[]] := by decide
    exact (accept_iff nested_wellFormed (by decide) hinit htext).2.1 (by decide)
  · intro h
    have htext : [0x28, 0x37].foldlM (accept 4 nested) [[⟨0, 0⟩], [⟨1, 0⟩], []] =
      .ok [[⟨1, 0⟩, ⟨0, 2⟩], [⟨0, 2⟩]] := by decide
    have hmem := (accept_iff nested_wellFormed (by decide) hinit htext).2.2 h
    exact absurd hmem (by decide)

end

/-!
## Candidates that are rejected

A candidate is rejected exactly if its characters cannot follow the text, or an incomplete character at its end cannot
be completed to one that can (`rejectCandidates_iff`). Of an incomplete character the program only asks whether the
code points that it may become and the ranges of a class have some in common: for a class that is no inverse one this
is what the decoder can make of it, and an inverse one is only satisfied if all that the decoder can make of it are
(`matchPartialChar_iff`).
-/

section

variable {rules : Rules} {elems : List Element} {prev : GreType} {n root depth calls c value : Nat}
  {text : List Nat} {first stks : List Stack}
  {candidates rejects : List Candidate} {p : PartialUtf8} {t : CharClass} {r : CharRange}

/-- After a text, the candidates that are rejected are those that cannot follow it: the first rule cannot be read over
the text and the characters of the candidate, or what is left then begins with no class that the incomplete character
at the end may be completed to. -/
theorem rejectCandidates_iff (hwf : rules.WellFormed) (hroot : root < rules.length)
    (hinit : initStacks depth rules root = .ok first) (htext : text.foldlM (accept depth rules) first = .ok stks)
    (hrejects : rejectCandidates depth rules calls stks candidates = .ok rejects) (tok : Candidate) :
    tok ∈ rejects ↔ tok ∈ candidates ∧ ¬Admits rules [.ref root] (text ++ tok.toRead) tok.partialUtf8 := by
  have hafter := (((initStacks_spec hwf hroot).of_ok hinit).acceptAll hwf).of_ok htext
  rw [List.nil_append] at hafter
  have hne : stks ≠ [] := by
    rintro rfl
    cases calls with
    | zero => nomatch hrejects
    | succ calls => nomatch hrejects
  rw [(rejectCandidates_spec hwf hne hafter.settled).of_ok hrejects, ← hafter.admits_iff]
  simp only [not_exists, not_and]

/-- Numbers in parentheses. -/
def parens : Rules :=
  [[⟨.char, 0x28⟩, ⟨.ruleRef, 0⟩, ⟨.char, 0x29⟩, ⟨.alt, 0⟩, ⟨.char, 0x30⟩, ⟨.charRngUpper, 0x39⟩, ⟨.end_, 0⟩]]

/-- Behind `(`, the candidate `7)` is kept, and `7(` is rejected. -/
theorem rejectCandidates_parens :
    Admits parens [.ref 0] [0x28, 0x37, 0x29] ⟨0, 0⟩ ∧ ¬Admits parens [.ref 0] [0x28, 0x37, 0x28] ⟨0, 0⟩ := by
  have hwf : parens.WellFormed := by decide
  have hinit : initStacks 3 parens 0 = .ok [[⟨0, 0⟩], [⟨0, 4⟩]] := by decide
  have htext : [0x28].foldlM (accept 3 parens) [[⟨0, 0⟩], [⟨0, 4⟩]] = .ok [[⟨0, 0⟩, ⟨0, 2⟩], [⟨0, 4⟩, ⟨0, 2⟩]] := by
    decide
  have hrejects : rejectCandidates 3 parens 4 [[⟨0, 0⟩, ⟨0, 2⟩], [⟨0, 4⟩, ⟨0, 2⟩]]
      [⟨0, [0x37, 0x29, 0], 0, ⟨0x29, 0⟩⟩, ⟨1, [0x37, 0x28, 0], 0, ⟨0x28, 0⟩⟩] =
        .ok [⟨1, [0x37, 0x28, 0], 0, ⟨0x28, 0⟩⟩] := by decide
  have hiff := rejectCandidates_iff hwf (by decide) hinit htext hrejects
  constructor
  · by_contra hnot
    exact absurd ((hiff ⟨0, [0x37, 0x29, 0], 0, ⟨0x29, 0⟩⟩).2 ⟨List.mem_cons_self,
      fun h => hnot ⟨h.choose, h.choose_spec.1, .inl rfl⟩⟩) (by decide)
  · intro h
    exact ((hiff ⟨1, [0x37, 0x28, 0], 0, ⟨0x28, 0⟩⟩).1 List.mem_cons_self).2 ⟨h.choose, h.choose_spec.1, .inl rfl⟩

/-! ## Incomplete characters -/

/-- What the decoder makes of an incomplete sequence and so many continuation bytes, where it is not overlong. -/
def CompletedTo (p : PartialUtf8) (c : Nat) : Prop :=
  (∃ bytes : Bytes, bytes.length = p.nRemain.toNat ∧ continueSequence p.value p.nRemain.toNat bytes = some (c, 0, [])) ∧
    (p.value = 0 → p.nRemain = 2 → 0x800 ≤ c) ∧ (p.value = 0 → p.nRemain = 3 → 0x10000 ≤ c)

/-- Continuation bytes add the lower bits. -/
theorem continueSequence_iff (value n c : Nat) :
    (∃ bytes : Bytes, bytes.length = n ∧ continueSequence value n bytes = some (c, 0, [])) ↔ c / 64 ^ n = value := by
  induction n generalizing value with
  | zero =>
    rw [Nat.pow_zero, Nat.div_one]
    constructor
    · rintro ⟨bytes, hlength, h⟩
      obtain rfl := List.length_eq_zero_iff.1 hlength
      exact (Prod.mk.inj (Option.some.inj h)).1.symm
    · rintro rfl
      exact ⟨[], rfl, rfl⟩
  | succ n ih =>
    rw [Nat.pow_succ, ← Nat.div_div_eq_div_mul]
    constructor
    · rintro ⟨bytes, hlength, h⟩
      cases bytes with
      | nil => nomatch hlength
      | cons b bytes =>
        rw [continueSequence] at h
        split at h
        · nomatch h
        have hc := (ih _).1 ⟨bytes, Nat.succ.inj hlength, h⟩
        have hbits : b.toNat &&& 0x3F = b.toNat % 64 := Nat.and_two_pow_sub_one_eq_mod b.toNat 6
        rw [hbits, Nat.shiftLeft_eq] at hc
        omega
    · intro hc
      have hlt : c / 64 ^ n % 64 < 64 := Nat.mod_lt _ (by decide)
      have hsplit : c / 64 ^ n = value * 64 + c / 64 ^ n % 64 := by omega
      obtain ⟨bytes, hlength, hbytes⟩ := (ih _).2 hsplit
      generalize c / 64 ^ n % 64 = x at hlt hbytes
      have hbyte : (UInt8.ofNat (128 + x)).toNat = 128 + x := UInt8.toNat_ofNat_of_lt' (by
        change 128 + x < 256
        omega)
      have hbits : (128 + x) &&& 0x3F = x := by
        rw [show (0x3F : Nat) = 2 ^ 6 - 1 by decide, Nat.and_two_pow_sub_one_eq_mod]
        omega
      have hmark : (128 + x) >>> 6 = 2 := by
        rw [Nat.shiftRight_eq_div_pow]
        omega
      refine ⟨UInt8.ofNat (128 + x) :: bytes, by rw [List.length_cons, hlength], ?_⟩
      rw [continueSequence, hbyte, hbits, hmark, if_neg (by decide), Nat.shiftLeft_eq]
      exact hbytes

theorem highOf_eq (p : PartialUtf8) : highOf p = p.value * 64 ^ p.nRemain.toNat + 64 ^ p.nRemain.toNat - 1 := by
  rw [highOf, Nat.one_shiftLeft, ← Nat.shiftLeft_add_eq_or_of_lt (Nat.sub_lt (Nat.two_pow_pos _) Nat.one_pos),
    Nat.shiftLeft_eq, Nat.mul_comm _ 6, Nat.pow_mul]
  exact (Nat.add_sub_assoc (Nat.pow_pos (by decide)) _).symm

/-- The least code point, with the bits that come first as a factor. -/
theorem lowOf_eq (p : PartialUtf8) :
    lowOf p = if p.value = 0 ∧ p.nRemain = 2 then 0x800 else if p.value = 0 ∧ p.nRemain = 3 then 0x10000
      else p.value * 64 ^ p.nRemain.toNat := by
  have hpos : 64 ^ p.nRemain.toNat ≠ 0 := (Nat.pow_pos (by decide)).ne'
  rw [lowOf, Nat.shiftLeft_eq, Nat.mul_comm _ 6, Nat.pow_mul]
  by_cases hvalue : p.value = 0
  · simp [hvalue]
  · simp [hvalue]

/-- The code points that an incomplete sequence is completed to lie between the two that the program computes. -/
theorem completedTo_iff (p : PartialUtf8) (c : Nat) : CompletedTo p c ↔ lowOf p ≤ c ∧ c ≤ highOf p := by
  rw [CompletedTo, continueSequence_iff, highOf_eq, lowOf_eq]
  have hk : 0 < 64 ^ p.nRemain.toNat := Nat.pow_pos (by decide)
  rw [Nat.div_eq_iff hk]
  generalize 64 ^ p.nRemain.toNat = k at hk
  have hzero : p.value = 0 → p.value * k = 0 := fun h => by rw [h, Nat.zero_mul]
  generalize p.value * k = m at hzero
  split
  · omega
  · split <;> omega

theorem lowOf_le_highOf (p : PartialUtf8) : lowOf p ≤ highOf p := by
  rw [highOf_eq, lowOf_eq]
  split
  · rename_i h
    rw [h.1, h.2]
    decide
  · split
    · rename_i h
      rw [h.1, h.2]
      decide
    · exact Nat.le_sub_one_of_lt (Nat.lt_add_of_pos_right (Nat.pow_pos (by decide)))

/-- A range in order. -/
def CharRange.Ordered : CharRange → Prop
  | .any => True
  | .upto lo hi => lo ≤ hi

/-- A range in order meets the code points between two exactly if it holds one of them. -/
theorem meets_iff {low high : Nat} (hle : low ≤ high) (hr : r.Ordered) :
    r.Meets low high ↔ ∃ c, (low ≤ c ∧ c ≤ high) ∧ r.Holds c := by
  cases r with
  | any => exact ⟨fun _ => ⟨low, ⟨Nat.le_refl _, hle⟩, trivial⟩, fun _ => trivial⟩
  | upto lo hi =>
    change lo ≤ high ∧ low ≤ hi ↔ ∃ c, (low ≤ c ∧ c ≤ high) ∧ lo ≤ c ∧ c ≤ hi
    change lo ≤ hi at hr
    constructor
    · exact fun h => ⟨max low lo, by omega, by omega⟩
    · rintro ⟨c, h⟩
      omega

/-- An incomplete character satisfies a class that is no inverse one exactly if it can be completed to a character of
it, and an inverse one exactly if it can only be completed to characters of it. -/
theorem matchPartialChar_iff {ok : Bool} (hopens : Opens elems) (hranges : ∀ r ∈ rangesAt elems, r.Ordered)
    (hremain : 0 ≤ p.nRemain) (h : matchPartialChar elems p = .ok ok) :
    ok = true ↔ ¬(p.nRemain = 1 ∧ p.value < 2) ∧
      if (classAt elems).inverse then ∀ c, CompletedTo p c → (classAt elems).Holds c
        else ∃ c, CompletedTo p c ∧ (classAt elems).Holds c := by
  obtain ⟨ok', h', hok⟩ := matchPartialChar_spec hopens p
  obtain rfl := Except.ok.inj (h.symm.trans h')
  rw [hok, CharClass.MayHold]
  have hmeets : (∃ r ∈ rangesAt elems, r.Meets (lowOf p) (highOf p)) ↔
      ∃ c, (lowOf p ≤ c ∧ c ≤ highOf p) ∧ ∃ r ∈ rangesAt elems, r.Holds c := by
    constructor
    · rintro ⟨r, hr, h⟩
      obtain ⟨c, hc, h⟩ := (meets_iff (lowOf_le_highOf p) (hranges r hr)).1 h
      exact ⟨c, hc, r, hr, h⟩
    · rintro ⟨c, hc, r, hr, h⟩
      exact ⟨r, hr, (meets_iff (lowOf_le_highOf p) (hranges r hr)).2 ⟨c, hc, h⟩⟩
  constructor
  · rintro ⟨_, hlong, h⟩
    refine ⟨hlong, ?_⟩
    simp only [completedTo_iff, CharClass.Holds]
    cases hinverse : (classAt elems).inverse with
    | true =>
      rw [if_pos rfl]
      intro c hc
      have hnone := mt h.1 (by rw [hinverse]; decide)
      exact iff_of_false (fun hholds => hnone (hmeets.2 ⟨c, hc, hholds⟩)) (by decide)
    | false =>
      rw [if_neg Bool.false_ne_true]
      obtain ⟨c, hc, hholds⟩ := hmeets.1 (h.2 hinverse)
      exact ⟨c, hc, iff_of_true hholds rfl⟩
  · rintro ⟨hlong, h⟩
    refine ⟨hremain, hlong, ?_⟩
    simp only [completedTo_iff, CharClass.Holds] at h
    cases hinverse : (classAt elems).inverse with
    | true =>
      rw [hinverse, if_pos rfl] at h
      refine iff_of_false (fun hmeet => ?_) (by decide)
      obtain ⟨c, hc, hholds⟩ := hmeets.1 hmeet
      exact Bool.true_eq_false.mp ((h c hc).1 hholds)
    | false =>
      rw [hinverse, if_neg Bool.false_ne_true] at h
      obtain ⟨c, hc, hholds⟩ := h
      exact iff_of_true (hmeets.2 ⟨c, hc, hholds.2 rfl⟩) rfl

/-- The first byte of `é` satisfies `[à-ü]`, and does not satisfy `[^é]`, although it may be that of `è`. -/
theorem matchPartialChar_latin :
    (∃ c, CompletedTo ⟨3, 1⟩ c ∧ (classAt [⟨.char, 0xE0⟩, ⟨.charRngUpper, 0xFC⟩, ⟨.end_, 0⟩]).Holds c) ∧
    ¬∀ c, CompletedTo ⟨3, 1⟩ c → (classAt [⟨.charNot, 0xE9⟩, ⟨.end_, 0⟩]).Holds c := by
  constructor
  · have hmatch : matchPartialChar [⟨.char, 0xE0⟩, ⟨.charRngUpper, 0xFC⟩, ⟨.end_, 0⟩] ⟨3, 1⟩ = .ok true := by decide
    refine ((matchPartialChar_iff ⟨_, _, rfl, .inl rfl⟩ ?_ (by decide) hmatch).1 rfl).2
    intro r hr
    obtain rfl := List.mem_singleton.1 hr
    exact (by decide : 0xE0 ≤ 0xFC)
  · intro h
    have hmatch : matchPartialChar [⟨.charNot, 0xE9⟩, ⟨.end_, 0⟩] ⟨3, 1⟩ = .ok false := by decide
    have hiff := matchPartialChar_iff ⟨_, _, rfl, .inr (.inl rfl)⟩ (fun r hr => by
      obtain rfl := List.mem_singleton.1 hr
      exact Nat.le_refl _) (by decide) hmatch
    exact Bool.false_ne_true (hiff.2 ⟨by decide, h⟩)

end

/-!
## What is generated under a grammar

In a generation whose tokens are sampled from those that the grammar leaves, the text can always go on to a sentence
as far as the grammar knows, no token is refused when it is accepted, and a token that ends the generation is only
sampled behind a sentence (`generation_sentence`).
-/

section

variable {vocab : Vocab} {rules parsed : Rules} {g first : Grammar} {s s' : Generation}
  {root depth calls value value' n n' : Nat} {token : Nat}
  {a b src rest : Bytes} {p q : PartialUtf8} {cs cs' : List Nat} {left : Nat × Nat}

/-! ## Text in pieces -/

/-- Sequences are decoded piece by piece. -/
theorem decodeSequences_append (ha : decodeSequences value n a = .ok (cs, value', n'))
    (hb : decodeSequences value' n' b = .ok (cs', left)) :
    decodeSequences value n (a ++ b) = .ok (cs ++ cs', left) := by
  fun_induction decodeSequences value n a generalizing cs with
  | case1 value n =>
    obtain ⟨rfl, rfl, rfl⟩ : [] = cs ∧ value = value' ∧ n = n' := by simpa using ha
    exact hb
  | case2 => nomatch ha
  | case3 => nomatch ha
  | case4 =>
    rename_i value b src hremaining nRemain value codePoints left hrest ih
    obtain ⟨rfl, rfl⟩ := Prod.mk.inj (Except.ok.inj ha)
    have hall := ih hrest
    simp only [value, nRemain] at hall
    rw [List.cons_append, decodeSequences, if_neg hremaining]
    simp only [hall, nRemain]
    split <;> rfl
  | case5 => nomatch ha
  | case6 =>
    rename_i value n b src value codePoints left hrest ih
    obtain ⟨rfl, rfl⟩ := Prod.mk.inj (Except.ok.inj ha)
    have hall := ih hrest
    simp only [value] at hall
    rw [List.cons_append, decodeSequences]
    simp only [hall]
    split <;> rfl

/-- The loop that continues a sequence stops at its end, or at that of the text. -/
theorem continueSequence_le (h : continueSequence value n src = some (value', n', rest)) : n' ≤ n := by
  fun_induction continueSequence value n src with
  | case1 => nomatch h
  | case2 value n b src hcont ih => exact Nat.le_succ_of_le (ih h)
  | case3 value n src hcons =>
    obtain ⟨_, rfl, _⟩ : value = value' ∧ n = n' ∧ src = rest := by simpa using h
    exact Nat.le_refl n

/-- A sequence that is continued is decoded with what follows it. -/
theorem decodeSequences_continue (h : continueSequence value n src = some (value', n', rest))
    (hrest : decodeSequences value' n' rest = .ok (cs, left)) :
    decodeSequences value n src = .ok ((if 0 < n ∧ n' = 0 then [value'] else []) ++ cs, left) := by
  fun_induction continueSequence value n src with
  | case1 => nomatch h
  | case2 value n b src hcont ih =>
    rw [decodeSequences]
    simp only [ih h]
    cases n with
    | zero =>
      obtain ⟨rfl, rfl, rfl⟩ : (value <<< 6) + (b.toNat &&& 0x3F) = value' ∧ 0 = n' ∧ src = rest := by
        simpa [continueSequence] using h
      simp
    | succ n => simp
  | case3 value n src hcons =>
    obtain ⟨rfl, rfl, rfl⟩ : value = value' ∧ n = n' ∧ src = rest := by simpa using h
    rw [hrest, if_neg (by omega)]
    rfl

/-- Only a first byte that is none ends the decoding. -/
theorem decodeSequences_error {e : Int} (h : decodeSequences value n src = .error e) : e < 0 := by
  fun_induction decodeSequences value n src with
  | case1 => nomatch h
  | case2 value b src hremaining =>
    obtain rfl := Except.error.inj h
    exact hremaining
  | case3 =>
    rename_i hrest ih
    obtain rfl := Except.error.inj h
    exact ih hrest
  | case4 => nomatch h
  | case5 =>
    rename_i hrest ih
    obtain rfl := Except.error.inj h
    exact ih hrest
  | case6 => nomatch h

/-- A text that is decoded without an invalid sequence. -/
theorem decodeUtf8_sequences (hp : 0 ≤ p.nRemain) (hq : 0 ≤ (decodeUtf8 src p).2.nRemain) :
    ∃ cs', (decodeUtf8 src p).1 = cs' ++ [0] ∧ decodeSequences p.value p.nRemain.toNat (cStr src) =
      .ok (cs', (decodeUtf8 src p).2.value, (decodeUtf8 src p).2.nRemain.toNat) := by
  generalize h : decodeUtf8 src p = out at hq ⊢
  obtain ⟨cs, q⟩ := out
  change 0 ≤ q.nRemain at hq
  rw [decodeUtf8] at h
  split at h
  · obtain ⟨_, rfl⟩ := Prod.mk.inj h
    exact absurd hq (by decide)
  rename_i value nRemain rest hcontinue
  have hle := continueSequence_le hcontinue
  have hiff : (p.nRemain > 0 ∧ nRemain = 0) ↔ (0 < p.nRemain.toNat ∧ nRemain = 0) := and_congr_left' (by omega)
  simp only [hiff] at h
  split at h
  · rename_i hnil
    subst hnil
    obtain ⟨rfl, rfl⟩ := Prod.mk.inj h
    refine ⟨_, rfl, ?_⟩
    rw [decodeSequences_continue hcontinue rfl, List.append_nil]
    split <;> simp <;> omega
  · split at h
    · rename_i e herror
      obtain ⟨_, rfl⟩ := Prod.mk.inj h
      exact absurd hq (Int.not_le.2 (decodeSequences_error herror))
    · rename_i codePoints value nRemain' hrest
      obtain ⟨rfl, rfl⟩ := Prod.mk.inj h
      exact ⟨_, rfl, decodeSequences_continue hcontinue hrest⟩

/-- A text without zeros is decoded at once. -/
theorem decodeUtf8_of_sequences (hzero : cStr src = src) (h : decodeSequences 0 0 src = .ok (cs, value, n)) :
    decodeUtf8 src ⟨0, 0⟩ = (cs ++ [0], ⟨value, n⟩) := by
  rw [decodeUtf8, hzero]
  cases src with
  | nil =>
    obtain ⟨rfl, rfl, rfl⟩ : [] = cs ∧ 0 = value ∧ 0 = n := by simpa [decodeSequences] using h
    rfl
  | cons b src => simp [continueSequence, h]

/-! ## Candidates -/

/-- A token whose logit is left alone before the candidates are checked ends the generation behind a sentence, or is a
candidate. -/
theorem candidatesOf_of_not_mem {ids : List Nat} {i j id : Nat} (hid : ids[j]? = some id)
    (hmasked : i + j ∉ (candidatesOf vocab g i ids).1) :
    if vocab.isEog id then [] ∈ g.stacks_ else
      ⟨i + j, (decodeUtf8 (vocab.tokenToPiece id) g.partialUtf8).1, 0,
        (decodeUtf8 (vocab.tokenToPiece id) g.partialUtf8).2⟩ ∈
        (candidatesOf vocab g i ids).2 := by
  induction ids generalizing i j with
  | nil => nomatch hid
  | cons id' ids ih =>
    rw [candidatesOf] at hmasked ⊢
    cases j with
    | zero =>
      obtain rfl : id' = id := Option.some.inj hid
      by_cases heog : vocab.isEog id' = true
      · rw [if_pos heog]
        by_contra hnone
        simp [heog, hnone] at hmasked
      · by_cases hempty : (vocab.tokenToPiece id').head?.all (· = 0) = true
        · simp only [heog, hempty, if_true, if_false, Bool.false_eq_true, Nat.add_zero] at hmasked
          exact absurd List.mem_cons_self hmasked
        · simp only [heog, hempty, if_false, Bool.false_eq_true, Nat.add_zero]
          exact List.mem_cons_self
    | succ j =>
      have hlater := ih (i := i + 1) (j := j) hid
      rw [show i + 1 + j = i + (j + 1) by omega] at hlater
      split at hmasked <;> rename_i heog'
      · split at hmasked <;> rename_i hnil
        · simpa only [heog', hnil, if_true] using hlater hmasked
        · simpa only [heog', hnil, if_true, if_false] using hlater (fun h => hmasked (List.mem_cons_of_mem _ h))
      · split at hmasked <;> rename_i hempty
        · simpa only [heog', hempty, if_true, if_false,
            Bool.false_eq_true] using hlater (fun h => hmasked (List.mem_cons_of_mem _ h))
        · have h := hlater hmasked
          simp only [heog', hempty]
          split at h <;> rename_i heog
          · rwa [if_pos heog]
          · rw [if_neg heog]
            exact List.mem_cons_of_mem _ h

/-- The characters of a fresh candidate. -/
theorem toRead_of_fresh {i : Nat} (h : 0 ∉ cs) : (Candidate.mk i (cs ++ [0]) 0 p).toRead = cs := by
  rw [Candidate.toRead, List.drop_zero, List.takeWhile_append_of_pos, List.takeWhile_cons_of_neg, List.append_nil]
  · simp
  · intro c hc
    exact decide_eq_true (fun hzero : c = 0 => h (hzero ▸ hc))

/-! ## Generations -/

/-- What holds while text is generated. -/
structure Generated (rules : Rules) (root : Nat) (vocab : Vocab) (s : Generation) (text : List Nat) : Prop where
  same : s.grammar.rules = rules
  active : s.grammar.awaitingTrigger = false
  remains : 0 ≤ s.grammar.partialUtf8.nRemain
  decoded : decodeSequences 0 0 (s.bytes vocab) =
    .ok (text, s.grammar.partialUtf8.value, s.grammar.partialUtf8.nRemain.toNat)
  after : After rules root text s.grammar.stacks_
  admits : Admits rules [.ref root] text s.grammar.partialUtf8

theorem Generated.stacks_ne_nil {text : List Nat} (h : Generated rules root vocab s text) : s.grammar.stacks_ ≠ [] := by
  intro hnil
  obtain ⟨l, hreads, _⟩ := h.admits
  have hmem := (h.after.forms l).2 hreads
  rw [hnil] at hmem
  nomatch hmem

/-- What is known of a token that can be sampled. -/
theorem Generated.sampled {text : List Nat} (hwf : rules.WellFormed) (h : Generated rules root vocab s text)
    (hsampled : Sampled calls depth vocab s token) :
    if vocab.isEog token then [] ∈ s.grammar.stacks_ else
      ∃ cs q, decodeUtf8 (vocab.tokenToPiece token) s.grammar.partialUtf8 = (cs ++ [0], q) ∧ 0 ≤ q.nRemain ∧
        decodeSequences s.grammar.partialUtf8.value s.grammar.partialUtf8.nRemain.toNat
          (cStr (vocab.tokenToPiece token)) =
          .ok (cs, q.value, q.nRemain.toNat) ∧ Admits rules [.ref root] (text ++ cs) q := by
  obtain ⟨⟨ids, i, masked, hid, hmask, hi⟩, hzero⟩ := hsampled
  rw [applyImpl, h.active, if_neg Bool.false_ne_true] at hmask
  obtain ⟨rejects, hrejects, hmasked⟩ := except_bind_eq_ok.1 hmask
  obtain rfl := Except.ok.inj hmasked
  rw [List.mem_append, not_or] at hi
  have hcandidate := candidatesOf_of_not_mem (g := s.grammar) (i := 0) hid (by rw [Nat.zero_add]; exact hi.1)
  rw [Nat.zero_add] at hcandidate
  split at hcandidate <;> rename_i heog
  · rwa [if_pos heog]
  rw [if_neg heog]
  rw [h.same] at hrejects
  have hspec := (rejectCandidates_spec hwf h.stacks_ne_nil h.after.settled).of_ok hrejects
  have hadmits : Admits rules [.ref root]
    (text ++ (Candidate.mk i (decodeUtf8 (vocab.tokenToPiece token) s.grammar.partialUtf8).1 0
      (decodeUtf8 (vocab.tokenToPiece token) s.grammar.partialUtf8).2).toRead)
      (decodeUtf8 (vocab.tokenToPiece token) s.grammar.partialUtf8).2 := by
    rw [← h.after.admits_iff]
    by_contra hnone
    refine hi.2 (List.mem_map.2 ⟨_, (hspec _).2 ⟨hcandidate,
      fun stack hstack hstackAdmits => hnone ⟨stack, hstack, hstackAdmits⟩⟩, rfl⟩)
  have hremain : 0 ≤ (decodeUtf8 (vocab.tokenToPiece token) s.grammar.partialUtf8).2.nRemain := by
    obtain ⟨_, _, hend⟩ := hadmits
    rcases hend with hend | ⟨_, _, _, hmay⟩
    · exact hend.ge
    · exact hmay.1
  obtain ⟨cs, hcs, hdecode⟩ := decodeUtf8_sequences h.remains hremain
  rw [hcs, List.dropLast_concat] at hzero
  rw [hcs, toRead_of_fresh hzero] at hadmits
  exact ⟨cs, _, Prod.ext hcs rfl, hremain, hdecode, hadmits⟩

/-- A token that can be sampled is accepted, unless the recursion is too deep. -/
theorem Generated.accept {text : List Nat} (hwf : rules.WellFormed) (h : Generated rules root vocab s text)
    (hsampled : Sampled calls depth vocab s token) :
    Yields isOverflow (fun g => ∃ text', Generated rules root vocab ⟨g, s.tokens ++ [token]⟩ text')
      (acceptImpl depth vocab s.grammar token) := by
  have htoken := h.sampled hwf hsampled
  rw [acceptImpl, h.active]
  simp only [if_neg Bool.false_ne_true]
  by_cases heog : vocab.isEog token = true
  · rw [if_pos heog] at htoken
    rw [if_pos heog, if_pos htoken]
    refine ⟨text, ⟨h.same, h.active, h.remains, ?_, h.after, h.admits⟩⟩
    rw [← h.decoded]
    simp [Generation.bytes, heog]
  · rw [if_neg heog] at htoken ⊢
    obtain ⟨cs, q, hpiece, hq, hdecode, hadmits⟩ := htoken
    rw [acceptStr, hpiece, h.same]
    simp only [List.dropLast_concat]
    refine (h.after.acceptAll hwf (u := cs)).bind (fun stks hstks => ?_)
    have hne : stks ≠ [] := by
      rintro rfl
      obtain ⟨l, hreads, _⟩ := hadmits
      exact absurd ((hstks.forms l).2 hreads) List.not_mem_nil
    rw [if_neg hne]
    refine ⟨text ++ cs, ⟨rfl, h.active, hq, ?_, hstks, hadmits⟩⟩
    have happend := decodeSequences_append h.decoded hdecode
    rw [← happend]
    simp [Generation.bytes, heog]

/-- What holds before the first token. -/
theorem generated_first {words : List Bytes} {tokens : List Nat} (hwf : Rules.WellFormed (parsed.map copyRule))
    (hroot : root < parsed.length) (hinit : initImpl calls depth parsed root false words tokens = .ok (some g)) :
    Generated (parsed.map copyRule) root vocab ⟨g, []⟩ [] := by
  rw [initImpl] at hinit
  obtain ⟨recursive, _, hinit⟩ := except_bind_eq_ok.1 hinit
  cases recursive with
  | true => nomatch hinit
  | false =>
    obtain ⟨stks, hstks, hinit⟩ := except_bind_eq_ok.1 hinit
    obtain rfl := Option.some.inj (Except.ok.inj hinit)
    have hafter := (initStacks_spec hwf (by rwa [List.length_map])).of_ok hstks
    refine ⟨rfl, rfl, Int.le_refl 0, rfl, hafter, ?_⟩
    obtain ⟨stack, hstack⟩ := List.exists_mem_of_ne_nil stks (initStacks_ne_nil hstks)
    exact ⟨form (parsed.map copyRule) stack, (hafter.forms _).1 (List.mem_map_of_mem hstack), .inl rfl⟩

/-- What is generated, in every run. -/
theorem generated_of_reachable {words : List Bytes} {tokens : List Nat}
    (hwf : Rules.WellFormed (parsed.map copyRule)) (hroot : root < parsed.length)
    (hinit : initImpl calls depth parsed root false words tokens = .ok (some g))
    (h : ((generation depth vocab g).guarded (Sampled calls depth vocab)).Reachable s) :
    ∃ text, Generated (parsed.map copyRule) root vocab s text := by
  induction h with
  | init hs =>
    obtain rfl := hs
    exact ⟨[], generated_first hwf hroot hinit⟩
  | step _ hstep ih =>
    obtain ⟨text, ih⟩ := ih
    obtain ⟨token, hsampled, hact⟩ := hstep
    obtain ⟨g', haccept, rfl⟩ := Option.map_eq_some_iff.1 hact
    refine (ih.accept hwf hsampled).of_ok ?_
    cases hcall : acceptImpl depth vocab _ token with
    | error e => simp [hcall, Except.toOption] at haccept
    | ok out => simpa [hcall, Except.toOption] using haccept

/-- The characters of what is generated. -/
theorem Generated.decodeUtf8_bytes {text : List Nat} (h : Generated rules root vocab s text) :
    decodeUtf8 (s.bytes vocab) ⟨0, 0⟩ = (text ++ [0], s.grammar.partialUtf8) := by
  have hzero : cStr (s.bytes vocab) = s.bytes vocab := by
    refine List.takeWhile_eq_self_iff.2 (fun b hb => ?_)
    obtain ⟨id, _, hb⟩ := List.mem_flatMap.1 hb
    split at hb
    · nomatch hb
    · rw [cStr] at hb
      exact (List.mem_takeWhile_imp hb :)
  rw [decodeUtf8_of_sequences hzero h.decoded, Int.toNat_of_nonneg h.remains]

/-- The end is only sampled behind a sentence. -/
theorem Generated.derives_of_eog {text : List Nat} (hwf : rules.WellFormed) (h : Generated rules root vocab s text)
    (hsampled : Sampled calls depth vocab s token) (heog : vocab.isEog token = true) :
    rules.cfg.Derives [.ref root] text := by
  have htoken := h.sampled hwf hsampled
  rw [if_pos heog] at htoken
  exact h.after.nil_mem_iff.1 htoken

/-- What is generated is the beginning of a sentence, as far as its characters are complete. The next token that is
sampled is never refused, and one that ends the generation is only sampled behind a sentence. -/
theorem generation_sentence {words : List Bytes} {tokens : List Nat} (hwf : Rules.WellFormed (parsed.map copyRule))
    (hroot : root < parsed.length) (hproductive : (Rules.cfg (parsed.map copyRule)).Productive)
    (hinit : initImpl calls depth parsed root false words tokens = .ok (some g))
    (h : ((generation depth vocab g).guarded (Sampled calls depth vocab)).Reachable s) :
    ∃ text, decodeUtf8 (s.bytes vocab) ⟨0, 0⟩ = (text ++ [0], s.grammar.partialUtf8) ∧
      (∃ rest, (Rules.cfg (parsed.map copyRule)).Derives [.ref root] (text ++ rest)) ∧
      ∀ token, Sampled calls depth vocab s token →
        Yields isOverflow (fun _ => True) (acceptImpl depth vocab s.grammar token) ∧
        (vocab.isEog token = true → (Rules.cfg (parsed.map copyRule)).Derives [.ref root] text) := by
  obtain ⟨text, hgenerated⟩ := generated_of_reachable hwf hroot hinit h
  refine ⟨text, hgenerated.decodeUtf8_bytes, ?_, fun token hsampled => ⟨?_, hgenerated.derives_of_eog hwf hsampled⟩⟩
  · obtain ⟨l, hreads, _⟩ := hgenerated.admits
    exact hproductive.exists_derives_append hreads
  · exact (hgenerated.accept hwf hsampled).mono (fun _ _ => trivial) (fun _ h => h)

/-- Tokens of one character, and one that ends the generation. -/
def parensVocab : Vocab where
  tokenToPiece id := ([[0x28], [0x29], [0x37]] : List Bytes).getD id []
  isEog id := id == 3

/-- The grammar of parentheses with so many stacks behind a character. -/
def parensGrammar (stacks_ : List Stack) (chr : Nat) : Grammar := ⟨parens, stacks_, ⟨chr, 0⟩, false, false, [], [], []⟩

theorem parens_productive : parens.cfg.Productive := by
  have hrange : ∀ lo hi c, lo ≤ c ∧ c ≤ hi → ∃ w, parens.cfg.Derives [.term ⟨false, [.upto lo hi]⟩] w := by
    intro lo hi c hc
    refine ⟨[c], .term ?_ .nil⟩
    simpa [Rules.cfg, CharClass.Holds, CharRange.Holds] using hc
  have hrules : parens.cfg.rules 0 =
      [[.term ⟨false, [.upto 0x28 0x28]⟩, .ref 0, .term ⟨false, [.upto 0x29 0x29]⟩],
      [.term ⟨false, [.upto 0x30 0x39]⟩]] := by decide
  obtain ⟨digit, hdigit⟩ := hrange 0x30 0x39 0x37 (by decide)
  intro n alt halt s hs
  cases n with
  | zero =>
    rw [hrules] at halt
    rcases List.mem_cons.1 halt with rfl | halt
    · simp only [List.mem_cons, List.not_mem_nil, or_false] at hs
      rcases hs with rfl | rfl | rfl
      · exact hrange 0x28 0x28 0x28 (by decide)
      · have halt : [.term ⟨false, [.upto 0x30 0x39]⟩] ∈ parens.cfg.rules 0 := by
          rw [hrules]
          exact List.mem_cons_of_mem _ List.mem_cons_self
        exact ⟨digit, .ref halt (by rwa [List.append_nil])⟩
      · exact hrange 0x29 0x29 0x29 (by decide)
    · obtain rfl := List.mem_singleton.1 halt
      obtain rfl := List.mem_singleton.1 hs
      exact ⟨digit, hdigit⟩
  | succ n => cases halt

/-- A run that generates `(7)`. -/
theorem parens_run :
    ((generation 8 parensVocab (parensGrammar [[⟨0, 0⟩], [⟨0, 4⟩]] 0)).guarded (Sampled 8 8 parensVocab)).Reachable
      ⟨parensGrammar [[]] 0x29, [0, 2, 1]⟩ := by
  have hfirst : ((generation 8 parensVocab (parensGrammar [[⟨0, 0⟩], [⟨0, 4⟩]] 0)).guarded
    (Sampled 8 8 parensVocab)).Reachable
      ⟨parensGrammar [[⟨0, 0⟩], [⟨0, 4⟩]] 0, []⟩ := .init rfl
  have hopened := hfirst.step ⟨0, ⟨⟨[0, 1, 2, 3], 0, [3, 1], rfl, by decide, by decide⟩, by decide⟩, rfl⟩
  have hnumber := hopened.step ⟨2, ⟨⟨[0, 1, 2, 3], 2, [3, 1], rfl, by decide, by decide⟩, by decide⟩, rfl⟩
  exact hnumber.step ⟨1, ⟨⟨[0, 1, 2, 3], 1, [3, 0, 2], rfl, by decide, by decide⟩, by decide⟩, rfl⟩

/-- Behind it, the end can be sampled. -/
theorem parens_end : Sampled 8 8 parensVocab ⟨parensGrammar [[]] 0x29, [0, 2, 1]⟩ 3 :=
  ⟨⟨[0, 1, 2, 3], 3, [0, 1, 2], rfl, by decide, by decide⟩, by decide⟩

/-- `(7)` is generated, and the end behind it. -/
theorem generation_parens : parens.cfg.Derives [.ref 0] [0x28, 0x37, 0x29] := by
  have hinit : initImpl 8 8 parens 0 false [] [] = .ok (some (parensGrammar [[⟨0, 0⟩], [⟨0, 4⟩]] 0)) := rfl
  have hwf : Rules.WellFormed (parens.map copyRule) := by decide
  obtain ⟨text, htext, _, hend⟩ := generation_sentence hwf (by decide) parens_productive hinit parens_run
  obtain ⟨_, hsentence⟩ := hend 3 parens_end
  have hbytes : decodeUtf8 [0x28, 0x37, 0x29] ⟨0, 0⟩ = ([0x28, 0x37, 0x29] ++ [0], ⟨0x29, 0⟩) := by decide
  obtain rfl := List.append_cancel_right (Prod.mk.inj (htext.symm.trans hbytes)).1
  exact hsentence rfl

end

end Ollama.Llama
