import Mathlib.Data.List.Infix
import Mathlib.Data.UInt

/-!
# Searching in lists

`index` is the first place where a list occurs in another, as `strings.Index` finds it. The lemmas at the end say
where an entry lies in a list that is written in two parts.
-/

namespace Ollama.Lib

variable {α : Type*}

section Index

variable [DecidableEq α]

/-- The first place where `p` occurs in a list. -/
def index (p : List α) : List α → Option Nat
  | [] => if p = [] then some 0 else none
  | x :: s => if p.isPrefixOf (x :: s) then some 0 else (index p s).map (· + 1)

/-- What `index` finds: the first place that is followed by `p`. -/
theorem index_eq_some_iff {p s : List α} {i : Nat} :
    index p s = some i ↔ i ≤ s.length ∧ p <+: s.drop i ∧ ∀ j < i, ¬p <+: s.drop j := by
  induction s generalizing i with
  | nil =>
    by_cases hp : p = []
    · subst hp
      simp only [index, if_true, Option.some.injEq, List.length_nil, List.drop_nil, List.nil_prefix, true_and,
        not_true_eq_false]
      constructor
      · rintro rfl
        exact ⟨Nat.le_refl _, fun j hj => by omega⟩
      · rintro ⟨h, _⟩
        omega
    · simp only [index, if_neg hp, List.drop_nil, List.prefix_nil]
      simp [hp]
  | cons x s ih =>
    simp only [index]
    split
    · rename_i hpre
      have hpre' := List.isPrefixOf_iff_prefix.1 hpre
      simp only [Option.some.injEq]
      constructor
      · rintro rfl
        exact ⟨Nat.zero_le _, hpre', fun j hj => by omega⟩
      · rintro ⟨_, _, h⟩
        by_contra hne
        exact h 0 (by omega) hpre'
    · rename_i hpre
      have hpre' : ¬p <+: x :: s := fun h => hpre (List.isPrefixOf_iff_prefix.2 h)
      simp only [Option.map_eq_some_iff, ih]
      constructor
      · rintro ⟨j, ⟨h1, h2, h3⟩, rfl⟩
        refine ⟨Nat.succ_le_succ h1, h2, fun k hk => ?_⟩
        cases k with
        | zero => exact hpre'
        | succ k => exact h3 k (by omega)
      · rintro ⟨h1, h2, h3⟩
        cases i with
        | zero => exact absurd h2 hpre'
        | succ i => exact ⟨i, ⟨Nat.le_of_succ_le_succ h1, h2, fun j hj => h3 (j + 1) (by omega)⟩, rfl⟩

theorem index_eq_none_iff {p s : List α} : index p s = none ↔ ¬p <:+: s := by
  induction s with
  | nil => simp [index, List.infix_nil]
  | cons x s ih =>
    simp only [index, List.infix_cons_iff]
    split
    · rename_i hpre
      simp [List.isPrefixOf_iff_prefix.1 hpre]
    · rename_i hpre
      have hpre' : ¬p <+: x :: s := fun h => hpre (List.isPrefixOf_iff_prefix.2 h)
      simp [ih, hpre']

theorem index_isSome_iff {p s : List α} : (index p s).isSome ↔ p <:+: s := by
  rw [← not_iff_not, Option.not_isSome_iff_eq_none, index_eq_none_iff]

/-- The list around the first place of a list that is not empty, which does not occur before it. -/
theorem index_split {p s : List α} {i : Nat} (hp : p ≠ []) (h : index p s = some i) :
    s = s.take i ++ p ++ s.drop (i + p.length) ∧ ¬p <:+: s.take i := by
  obtain ⟨hi, ⟨w, hw⟩, hfirst⟩ := index_eq_some_iff.1 h
  constructor
  · have hdrop : s.drop (i + p.length) = w := by rw [← List.drop_drop, ← hw, List.drop_left]
    rw [hdrop, List.append_assoc, hw, List.take_append_drop]
  · rintro ⟨a, b, hab⟩
    have hlen := congrArg List.length hab
    have hpos := List.length_pos_iff.2 hp
    simp only [List.length_append, List.length_take] at hlen
    refine hfirst a.length (by omega) ⟨b ++ s.drop i, ?_⟩
    have hs : s = a ++ (p ++ (b ++ s.drop i)) := by
      rw [← List.append_assoc, ← List.append_assoc, hab, List.take_append_drop]
    conv_rhs => rw [hs, List.drop_left]

/-- A list that occurs neither in the first part nor across its end is looked for in the second. -/
theorem index_append {p s t : List α} (hs : ¬p <:+: s) (h : ∀ u v, p = u ++ v → u ≠ [] → ¬u <:+ s) :
    index p (s ++ t) = (index p t).map (s.length + ·) := by
  induction s with
  | nil => simp
  | cons x s ih =>
    have hnot : ¬p <+: x :: (s ++ t) := by
      rintro ⟨b, hb⟩
      rw [← List.cons_append, List.append_eq_append_iff] at hb
      rcases hb with ⟨a', ha, _⟩ | ⟨v, hp, _⟩
      · exact hs ⟨[], a', by rw [List.nil_append, ha]⟩
      · exact h (x :: s) v hp (by simp) (List.suffix_refl _)
    have hpre : ¬p.isPrefixOf (x :: (s ++ t)) = true := fun hp => hnot (List.isPrefixOf_iff_prefix.1 hp)
    rw [List.cons_append, index, if_neg hpre, ih (fun hi => hs (List.infix_cons hi))
      (fun u v huv hu hsuf => h u v huv hu (hsuf.trans (List.suffix_cons x s))), Option.map_map]
    congr 1
    funext i
    simp only [Function.comp, List.length_cons]
    omega

omit [DecidableEq α] in
/-- A list that starts another one does so before an entry that it does not have. -/
theorem prefix_of_notMem {p s t : List α} {c : α} (hc : c ∉ p) (h : p <+: s ++ c :: t) : p <+: s := by
  obtain ⟨r, hr⟩ := h
  rcases List.append_eq_append_iff.1 hr with ⟨u, hs, _⟩ | ⟨u, hp, hu⟩
  · exact ⟨u, hs.symm⟩
  · cases u with
    | nil => exact ⟨[], by rw [hp, List.append_nil, List.append_nil]⟩
    | cons d u =>
      obtain ⟨rfl, _⟩ := List.cons.inj hu
      exact (hc (by rw [hp]; simp)).elim

/-- A list without an entry is looked for before the entry, and then after it. -/
theorem index_append_cons {p s t : List α} {c : α} (hp : p ≠ []) (hc : c ∉ p) :
    index p (s ++ c :: t) = (index p s).or ((index p t).map (s.length + 1 + ·)) := by
  induction s with
  | nil =>
    have hpre : ¬p.isPrefixOf (c :: t) = true := by
      intro h
      exact hp (List.prefix_nil.1 (prefix_of_notMem (s := []) hc (List.isPrefixOf_iff_prefix.1 h)))
    rw [List.nil_append, index.eq_2, if_neg hpre, index, if_neg hp, Option.none_or]
    congr 1
    funext i
    simp only [List.length_nil]
    omega
  | cons x s ih =>
    rw [List.cons_append, index, index, ih]
    have hiff : p.isPrefixOf (x :: (s ++ c :: t)) = true ↔ p.isPrefixOf (x :: s) = true := by
      rw [List.isPrefixOf_iff_prefix, List.isPrefixOf_iff_prefix]
      exact ⟨fun h => prefix_of_notMem (s := x :: s) hc h, fun h => h.trans (List.prefix_append (x :: s) (c :: t))⟩
    by_cases hpre : p.isPrefixOf (x :: s) = true
    · rw [if_pos hpre, if_pos (hiff.2 hpre), Option.some_or]
    · rw [if_neg hpre, if_neg (mt hiff.1 hpre)]
      cases index p s with
      | some i => rfl
      | none =>
        rw [Option.map_none, Option.none_or, Option.none_or, Option.map_map]
        congr 1
        funext i
        simp only [Function.comp, List.length_cons]
        omega

end Index

/-- An entry that is not in the first part of a list is in the second. -/
theorem split_right {q s u w : List α} {c : α} (h : q ++ s = u ++ c :: w) (hc : c ∉ q) :
    ∃ u', u = q ++ u' ∧ s = u' ++ c :: w := by
  rcases List.append_eq_append_iff.1 h with ⟨u', hu, hs⟩ | ⟨v, hq, hv⟩
  · exact ⟨u', hu, hs⟩
  · rcases v with _ | ⟨d, v⟩
    · rw [List.append_nil] at hq
      exact ⟨[], by rw [hq, List.append_nil], hv.symm⟩
    · obtain ⟨rfl, -⟩ := List.cons.inj hv
      exact absurd (hq ▸ List.mem_append_right u (List.mem_cons_self ..)) hc

/-- An entry that is not in the second part of a list is in the first. -/
theorem split_left {q s u w : List α} {c : α} (h : s ++ q = u ++ c :: w) (hc : c ∉ q) : ∃ w', s = u ++ c :: w' := by
  rcases List.append_eq_append_iff.1 h with ⟨v, hu, hq⟩ | ⟨v, hs, hv⟩
  · exact absurd (hq ▸ List.mem_append_right v (List.mem_cons_self ..)) hc
  · rcases v with _ | ⟨d, v⟩
    · rw [List.nil_append] at hv
      exact absurd (hv ▸ List.mem_cons_self ..) hc
    · obtain ⟨rfl, -⟩ := List.cons.inj hv
      exact ⟨v, hs⟩

/-- Where a list is followed by an entry, and moved by `a` it is there again, the entry is one of `a`: so are all
entries before it, `a` after `a`. -/
theorem mem_of_shifted {s a x y : List α} {c : α} (ha : a ≠ []) (h : s ++ c :: x = a ++ (s ++ y)) : c ∈ a := by
  induction hn : s.length using Nat.strong_induction_on generalizing s with
  | _ n ih =>
    rcases List.append_eq_append_iff.1 h with ⟨v, hv, hx⟩ | ⟨v, hs, hy⟩
    · rcases v with _ | ⟨d, v⟩
      · rw [List.append_nil] at hv
        rw [List.nil_append, ← hv] at hx
        rcases a with _ | ⟨d, a⟩
        · exact absurd rfl ha
        · rw [(List.cons.inj hx).1]
          exact List.mem_cons_self ..
      · rw [(List.cons.inj hx).1, hv]
        exact List.mem_append_right s (List.mem_cons_self ..)
    · have hlt : v.length < n := by
        have hlen := congrArg List.length hs
        have hpos := List.length_pos_iff.2 ha
        rw [List.length_append] at hlen
        omega
      refine ih v.length hlt ?_ rfl
      rw [← hy, hs, List.append_assoc]

end Ollama.Lib
