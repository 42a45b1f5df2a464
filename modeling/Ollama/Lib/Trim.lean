import Mathlib.Data.List.DropRight

/-!
# Trimmed texts

A text without the characters at its ends that a predicate holds of. It is the only part of the text that neither
begins nor ends with such a character and has nothing else around it.
-/

namespace Ollama.Lib

variable {α : Type*} {p : α → Bool}

/-- A text without the characters at its ends that `p` holds of. -/
def trim (p : α → Bool) (s : List α) : List α := (s.dropWhile p).rdropWhile p

/-- Neither end of a text is a character that `p` holds of. -/
def Tight (p : α → Bool) (s : List α) : Prop :=
  (∀ c, s.head? = some c → p c = false) ∧ ∀ c, s.getLast? = some c → p c = false

/-- The empty text is tight. -/
theorem tight_nil : Tight p [] := ⟨nofun, nofun⟩

/-- What trimming takes away is on both sides of what it leaves. -/
theorem exists_trim (p : α → Bool) (s : List α) :
    ∃ l r, s = l ++ (trim p s ++ r) ∧ (∀ c ∈ l, p c = true) ∧ ∀ c ∈ r, p c = true := by
  refine ⟨s.takeWhile p, (s.dropWhile p).rtakeWhile p, ?_, ?_, ?_⟩
  · rw [trim, List.rdropWhile_append_rtakeWhile, List.takeWhile_append_dropWhile]
  · intro c hc
    exact List.mem_takeWhile_imp hc
  · intro c hc
    exact List.mem_rtakeWhile_imp hc

/-- The characters of a trimmed text are characters of the text. -/
theorem mem_of_mem_trim {s : List α} {c : α} (h : c ∈ trim p s) : c ∈ s := by
  obtain ⟨l, r, hs, -, -⟩ := exists_trim p s
  rw [hs]
  exact List.mem_append_right l (List.mem_append_left r h)

/-- Trimming leaves a tight text. -/
theorem tight_trim (p : α → Bool) (s : List α) : Tight p (trim p s) := by
  constructor
  · intro c hc
    have hpre : trim p s <+: s.dropWhile p := List.rdropWhile_prefix p _
    obtain ⟨t, ht⟩ := hpre
    have hhead : (s.dropWhile p).head? = some c := by
      rw [← ht, List.head?_append, hc, Option.some_or]
    have hnot := List.head?_dropWhile_not p s
    rw [hhead] at hnot
    exact hnot
  · intro c hc
    have hne : trim p s ≠ [] := fun hnil => by rw [hnil] at hc; exact Option.some_ne_none c hc.symm
    rw [List.getLast?_eq_some_getLast hne] at hc
    have hnot := List.rdropWhile_last_not p (s.dropWhile p) hne
    rw [Bool.not_eq_true] at hnot
    exact Option.some.inj hc ▸ hnot

/-- A tight text with nothing around it but characters that `p` holds of is what trimming leaves. -/
theorem trim_eq {s l t r : List α} (hs : s = l ++ (t ++ r)) (hl : ∀ c ∈ l, p c = true) (hr : ∀ c ∈ r, p c = true)
    (ht : Tight p t) : trim p s = t := by
  rcases List.eq_nil_or_concat t with hnil | ⟨init, last, hconcat⟩
  · have hall : ∀ c ∈ s, p c = true := by
      intro c hc
      rw [hs, hnil, List.nil_append, List.mem_append] at hc
      rcases hc with hc | hc
      · exact hl c hc
      · exact hr c hc
    rw [trim, List.dropWhile_eq_nil_iff.2 hall, hnil]
    rfl
  · have hlast : p last = false := ht.2 last (by rw [hconcat, List.concat_eq_append, List.getLast?_concat])
    have hdrop : (t ++ r).dropWhile p = t ++ r := by
      cases hcase : t with
      | nil => rw [hcase, List.concat_eq_append] at hconcat; exact absurd hconcat.symm (by simp)
      | cons c t' =>
        rw [List.cons_append]
        exact List.dropWhile_cons_of_neg (by rw [ht.1 c (by rw [hcase]; rfl)]; exact Bool.false_ne_true)
    have hright : ∀ r' : List α, (∀ c ∈ r', p c = true) → (t ++ r').rdropWhile p = t := by
      intro r' hr'
      induction r' using List.reverseRecOn with
      | nil =>
        rw [List.append_nil, hconcat, List.concat_eq_append]
        exact List.rdropWhile_concat_neg p init last (by rw [hlast]; exact Bool.false_ne_true)
      | append_singleton r' c ih =>
        rw [← List.append_assoc, List.rdropWhile_concat_pos p _ c (hr' c (by simp))]
        exact ih (fun d hd => hr' d (List.mem_append_left [c] hd))
    rw [trim, hs, List.dropWhile_append_of_pos hl, hdrop]
    exact hright r hr

/-- A tight text is left as it is. -/
theorem trim_of_tight {s : List α} (h : Tight p s) : trim p s = s :=
  trim_eq (l := []) (r := []) (by simp) nofun nofun h

/-- A trimmed text begins with the first character that `p` does not hold of. -/
theorem head?_trim (p : α → Bool) (s : List α) : (trim p s).head? = (s.dropWhile p).head? := by
  rcases hdrop : s.dropWhile p with _ | ⟨c, rest⟩
  · rw [trim, hdrop]
    rfl
  · have hc : p c = false := by
      have hnot := List.head?_dropWhile_not p s
      rw [hdrop] at hnot
      exact hnot
    obtain ⟨t, ht⟩ : trim p s <+: c :: rest := hdrop ▸ List.rdropWhile_prefix p (s.dropWhile p)
    rcases htrim : trim p s with _ | ⟨d, rest'⟩
    · have hall := List.rdropWhile_eq_nil_iff.1 htrim
      rw [hdrop] at hall
      exact absurd (hall c (List.mem_cons_self ..)) (by rw [hc]; exact Bool.false_ne_true)
    · rw [htrim, List.cons_append] at ht
      rw [(List.cons.inj ht).1]
      rfl

/-- What trimming leaves of a beginning of a text begins what it leaves of the text. -/
theorem head?_trim_append {s t : List α} {c : α} (h : (trim p s).head? = some c) :
    (trim p (s ++ t)).head? = some c := by
  rw [head?_trim] at h ⊢
  obtain ⟨rest, hrest⟩ := List.head?_eq_some_iff.1 h
  rw [List.dropWhile_append, hrest]
  rfl

end Ollama.Lib
