import Ollama.Lib.Utf8
import Mathlib.Data.List.Infix

/-!
# Replacing texts

`strings.NewReplacer` of pairs of an old text and a new one, no old text empty: from the front on, the first pair in
the list whose old text is there is replaced, and what is replaced is not looked at again. Where each old text differs
from what is there, a text is kept (`replace_append_of_inert`), and a text that no new text can be a part of is not
made by replacing (`infix_of_infix_replace`).
-/

namespace Ollama.Lib

/-- The replacer of a list of old and new texts. -/
abbrev Replacer := List (Bytes × Bytes)

namespace Replacer

/-- The first pair whose old text is at the front. -/
def lookup (oldnew : Replacer) (s : Bytes) : Option (Bytes × Bytes) :=
  oldnew.find? (fun e => e.1 ≠ [] && e.1.isPrefixOf s)

/-- `Replace`, from where so many bytes have been replaced already. -/
def replaceFrom (oldnew : Replacer) : (skip : Nat) → Bytes → Bytes
  | _, [] => []
  | skip + 1, _ :: s => replaceFrom oldnew skip s
  | 0, b :: s =>
    match oldnew.lookup (b :: s) with
    | some (old, new) => new ++ replaceFrom oldnew (old.length - 1) s
    | none => b :: replaceFrom oldnew 0 s

/-- `Replace`. -/
def replace (oldnew : Replacer) (s : Bytes) : Bytes := replaceFrom oldnew 0 s

variable {oldnew oldnew' : Replacer} {s t : Bytes}

/-! ## Single steps -/

/-- Replacing behind so many bytes is replacing what is left. -/
theorem replaceFrom_eq (oldnew : Replacer) (skip : Nat) (s : Bytes) :
    oldnew.replaceFrom skip s = oldnew.replace (s.drop skip) := by
  induction s generalizing skip with
  | nil =>
    rw [List.drop_nil, replace, replaceFrom, replaceFrom]
  | cons b s ih =>
    cases skip with
    | zero => rfl
    | succ skip => rw [replaceFrom, ih, List.drop_succ_cons]

@[simp] theorem replace_nil (oldnew : Replacer) : oldnew.replace [] = [] := by rw [replace, replaceFrom]

/-- The pair that is found is in the list, and its old text is at the front. -/
theorem lookup_spec {e : Bytes × Bytes} (h : oldnew.lookup s = some e) : e ∈ oldnew ∧ e.1 ≠ [] ∧ e.1 <+: s := by
  refine ⟨List.mem_of_find?_eq_some h, ?_⟩
  have := List.find?_some h
  simpa using this

/-- Nothing is replaced where no old text begins. -/
theorem lookup_eq_none_iff : oldnew.lookup s = none ↔ ∀ e ∈ oldnew, e.1 ≠ [] → ¬e.1 <+: s := by
  rw [lookup, List.find?_eq_none]
  simp

/-- Of two lists of replacements the first is looked through first. -/
theorem lookup_append : lookup (oldnew ++ oldnew') s = (oldnew.lookup s).or (lookup oldnew' s) := List.find?_append

/-- An old text that is at the front is found, if those before it in the list are not there. -/
theorem lookup_of_before (before after : Replacer) {old new : Bytes} (hbefore : lookup before s = none) (hne : old ≠ [])
    (hold : old <+: s) : lookup (before ++ (old, new) :: after) s = some (old, new) := by
  have hfirst : lookup ((old, new) :: after) s = some (old, new) := by
    rw [lookup, List.find?_cons_of_pos]
    simpa using ⟨hne, hold⟩
  rw [lookup_append, hbefore, Option.none_or, hfirst]

/-- An old text that is at the front is found, if no other one is there. -/
theorem lookup_of_unique {e : Bytes × Bytes} (he : e ∈ oldnew) (hne : e.1 ≠ []) (hold : e.1 <+: s)
    (hunique : ∀ e' ∈ oldnew, e'.1 <+: s → e' = e) : oldnew.lookup s = some e := by
  cases h : oldnew.lookup s with
  | none => exact (lookup_eq_none_iff.1 h e he hne hold).elim
  | some e' =>
    obtain ⟨he', _, hold'⟩ := lookup_spec h
    rw [hunique e' he' hold']

/-- A byte is kept where no old text is. -/
theorem replace_cons_of_none {b : UInt8} (h : oldnew.lookup (b :: s) = none) :
    oldnew.replace (b :: s) = b :: oldnew.replace s := by
  rw [replace, replaceFrom, h]
  rfl

/-- An old text is replaced. -/
theorem replace_append_of_some {old new : Bytes} (h : oldnew.lookup (old ++ s) = some (old, new)) :
    oldnew.replace (old ++ s) = new ++ oldnew.replace s := by
  have hne := (lookup_spec h).2.1
  cases old with
  | nil => exact (hne rfl).elim
  | cons b old =>
    rw [List.cons_append] at h ⊢
    rw [replace, replaceFrom, h]
    simp only [replaceFrom_eq, List.length_cons, Nat.add_sub_cancel]
    rw [List.drop_left]

/-- The steps of `replace`. -/
theorem replace_cases (oldnew : Replacer) (b : UInt8) (s : Bytes) :
    (oldnew.replace (b :: s) = b :: oldnew.replace s) ∨
      ∃ e ∈ oldnew, ∃ s', b :: s = e.1 ++ s' ∧ e.1 ≠ [] ∧ oldnew.replace (b :: s) = e.2 ++ oldnew.replace s' := by
  cases h : oldnew.lookup (b :: s) with
  | none => exact Or.inl (replace_cons_of_none h)
  | some e =>
    obtain ⟨he, hne, s', hs⟩ := lookup_spec h
    refine Or.inr ⟨e, he, s', hs.symm, hne, ?_⟩
    rw [← hs] at h ⊢
    exact replace_append_of_some h

/-! ## What is kept -/

/-- Two texts differ in a byte that both have. -/
def clash : Bytes → Bytes → Bool
  | a :: old, b :: s => a ≠ b || clash old s
  | _, _ => false

/-- Texts that clash do not begin with one another, whatever follows. -/
theorem not_prefix_of_clash {old : Bytes} (h : clash old s = true) (t : Bytes) : ¬old <+: s ++ t := by
  induction old generalizing s with
  | nil => nomatch h
  | cons a old ih =>
    cases s with
    | nil => nomatch h
    | cons b s =>
      rw [clash, Bool.or_eq_true, decide_eq_true_eq] at h
      rw [List.cons_append, List.cons_prefix_cons]
      rintro ⟨hab, hold⟩
      exact h.elim (fun hne => hne hab) (fun hclash => ih hclash hold)

/-- Texts that clash do so when the first is longer. -/
theorem clash_append {old : Bytes} (h : clash old s = true) (u : Bytes) : clash (old ++ u) s = true := by
  induction old generalizing s with
  | nil => nomatch h
  | cons a old ih =>
    cases s with
    | nil => nomatch h
    | cons b s =>
      rw [clash, Bool.or_eq_true] at h
      rw [List.cons_append, clash, Bool.or_eq_true]
      exact h.imp_right ih

/-- Texts that clash do so when the second is longer. -/
theorem clash_append_right {old : Bytes} (h : clash old s = true) (t : Bytes) : clash old (s ++ t) = true := by
  induction old generalizing s with
  | nil => nomatch h
  | cons a old ih =>
    cases s with
    | nil => nomatch h
    | cons b s =>
      rw [clash, Bool.or_eq_true] at h
      rw [List.cons_append, clash, Bool.or_eq_true]
      exact h.imp_right ih

/-- Wherever a text is cut, every old text differs from the rest of it. -/
def inert (oldnew : Replacer) : Bytes → Bool
  | [] => true
  | b :: s => oldnew.all (fun e => clash e.1 (b :: s)) && inert oldnew s

/-- Where all old texts clash nothing is replaced. -/
theorem lookup_eq_none_of_clash (h : oldnew.all (fun e => clash e.1 s) = true) (t : Bytes) :
    oldnew.lookup (s ++ t) = none :=
  lookup_eq_none_iff.2 (fun e he _ => not_prefix_of_clash (List.all_eq_true.1 h e he) t)

/-- What every old text differs from is kept, whatever follows it. -/
theorem replace_append_of_inert (h : inert oldnew s = true) (t : Bytes) :
    oldnew.replace (s ++ t) = s ++ oldnew.replace t := by
  induction s with
  | nil => rfl
  | cons b s ih =>
    rw [inert, Bool.and_eq_true] at h
    have hnone := lookup_eq_none_of_clash h.1 t
    rw [List.cons_append] at hnone ⊢
    rw [replace_cons_of_none hnone, ih h.2, List.cons_append]

/-- Two texts that are left alone are so one behind the other. -/
theorem inert_append (hs : inert oldnew s = true) (ht : inert oldnew t = true) : inert oldnew (s ++ t) = true := by
  induction s with
  | nil => exact ht
  | cons b s ih =>
    rw [inert, Bool.and_eq_true, List.all_eq_true] at hs
    rw [List.cons_append, inert, Bool.and_eq_true, List.all_eq_true]
    exact ⟨fun e he => clash_append_right (hs.1 e he) t, ih hs.2⟩

/-- A text that is left alone is itself. -/
theorem replace_of_inert (h : inert oldnew s = true) : oldnew.replace s = s := by
  have := replace_append_of_inert h []
  simpa using this

/-- A text is left alone by two lists of replacements if it is so by each. -/
theorem inert_oldnew_append : inert (oldnew ++ oldnew') s = (inert oldnew s && inert oldnew' s) := by
  induction s with
  | nil => rfl
  | cons b s ih => rw [inert, inert, inert, List.all_append, ih]; ac_rfl

/-- No old text begins with one of the bytes. -/
theorem inert_of_heads (h : ∀ e ∈ oldnew, e.1.head?.any (fun a => a ∉ s) = true) : inert oldnew s = true := by
  induction s with
  | nil => rfl
  | cons b s ih =>
    rw [inert, Bool.and_eq_true, List.all_eq_true]
    have hheads : ∀ e ∈ oldnew, ∃ a old, e.1 = a :: old ∧ a ≠ b ∧ a ∉ s := by
      intro e he
      have hany := h e he
      rcases hold : e.1 with _ | ⟨a, old⟩
      · rw [hold] at hany
        nomatch hany
      · exact ⟨a, old, rfl, by simpa [hold] using hany⟩
    refine ⟨fun e he => ?_, ih (fun e he => ?_)⟩
    · obtain ⟨a, old, heq, hne, _⟩ := hheads e he
      rw [heq, clash, Bool.or_eq_true, decide_eq_true_eq]
      exact Or.inl hne
    · obtain ⟨a, old, heq, _, hmem⟩ := hheads e he
      simp [heq, hmem]

/-! ## What is not made -/

section

variable {m : Bytes} {c : UInt8}

/-- The end of a text with no new text in it is at the front only if it was there. -/
theorem prefix_of_prefix_replace (hnew : ∀ e ∈ oldnew, ¬e.2 <:+: m) (hc : ∀ e ∈ oldnew, c ∉ e.2)
    (hlast : m.getLast? = some c) {m' : Bytes} (hsuffix : m' <:+ m) (h : m' <+: oldnew.replace s) : m' <+: s := by
  induction m' generalizing s with
  | nil => exact List.nil_prefix
  | cons d m' ih =>
    cases s with
    | nil => rwa [replace_nil] at h
    | cons b s =>
      rcases replace_cases oldnew b s with hkeep | ⟨e, he, s', hs, _, hreplace⟩
      · rw [hkeep] at h
        obtain ⟨hdb, htail⟩ := List.cons_prefix_cons.1 h
        exact List.cons_prefix_cons.2 ⟨hdb, ih ((List.suffix_cons d m').trans hsuffix) htail⟩
      · rw [hreplace] at h
        rcases List.prefix_or_prefix_of_prefix h (List.prefix_append e.2 _) with hin | hin
        · -- The end of the text would be in the new text.
          have hend : (d :: m').getLast? = some c := by
            obtain ⟨u, rfl⟩ := hsuffix
            rwa [List.getLast?_append_cons] at hlast
          exact (hc e he (hin.subset (List.mem_of_getLast? hend))).elim
        · exact (hnew e he (hin.isInfix.trans hsuffix.isInfix)).elim

/-- A text that begins and ends with a byte no new text has, and that no new text is in, is there only if it was. -/
theorem infix_of_infix_replace (hnew : ∀ e ∈ oldnew, ¬e.2 <:+: m) (hc : ∀ e ∈ oldnew, c ∉ e.2)
    (hhead : m.head? = some c) (hlast : m.getLast? = some c) (h : m <:+: oldnew.replace s) : m <:+: s := by
  induction hn : s.length using Nat.strong_induction_on generalizing s with
  | _ n ih =>
    subst hn
    cases s with
    | nil => rwa [replace_nil] at h
    | cons b s =>
      rcases replace_cases oldnew b s with hkeep | ⟨e, he, s', hs, hne, hreplace⟩
      · rw [hkeep] at h
        rcases List.infix_cons_iff.1 h with hprefix | hinfix
        · rw [← hkeep] at hprefix
          exact (prefix_of_prefix_replace hnew hc hlast (List.suffix_refl m) hprefix).isInfix
        · exact (ih _ (Nat.lt_succ_self _) hinfix rfl).trans (List.suffix_cons b s).isInfix
      · rw [hreplace] at h
        have hlength : s'.length < (b :: s).length := by
          rw [hs, List.length_append]
          have := List.length_pos_iff.2 hne
          omega
        obtain ⟨u, v, huv⟩ := h
        rw [List.append_assoc] at huv
        -- The text does not begin in the new one, which lacks its first byte.
        obtain ⟨w, hu, hw⟩ | ⟨w, hu, hw⟩ := List.append_eq_append_iff.1 huv
        · cases w with
          | nil =>
            rw [List.nil_append] at hw
            rw [hs]
            exact (ih _ hlength ⟨[], v, hw.symm ▸ rfl⟩ rfl).trans (List.suffix_append e.1 s').isInfix
          | cons d w =>
            have hdc : d = c := by
              cases m with
              | nil => nomatch hhead
              | cons a m =>
                rw [List.head?_cons, Option.some.injEq] at hhead
                rw [List.cons_append, List.cons_append] at hw
                exact (List.cons.inj hw).1.symm.trans hhead
            exact (hc e he (by rw [hu, hdc]; simp)).elim
        · rw [hs]
          exact (ih _ hlength ⟨w, v, by rw [hw, List.append_assoc]⟩ rfl).trans (List.suffix_append e.1 s').isInfix

end

end Replacer

end Ollama.Lib
