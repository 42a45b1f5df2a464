import Ollama.Runner.InputCache
import Ollama.Lib.Search

/-!
# The search for the best slot

Both runners have a `findBestCacheSlot`, which differ in what they compare inputs by and in how the KV cache copies a
prefix. The search is one function of what differs (`Policy`), and what it returns is settled for that one: a slot for
the prompt whenever one is free exactly when it is `Selectable`.
-/

namespace Ollama.Runner

open Lib

/-- What the search of a cache `γ` for a slot `δ` depends on. `count` is the length of the prefix that a slot has in
common with the prompt, and `agree` says of a slot that so many of its inputs are those of the prompt. -/
structure Policy (γ δ : Type) where
  slots : γ → List δ
  blank : δ
  inUse : δ → Bool
  lastUsed : δ → Nat
  length : δ → Nat
  count : δ → Nat
  fork : (src dst n : Nat) → γ → γ
  agree : δ → Nat → Prop
  agree_of_le : ∀ (s : δ) (n : Nat), n ≤ count s → agree s n
  fork_agree : ∀ (c : γ) (src dst : Nat) (s t : δ), (slots c)[src]? = some s → (slots c)[dst]? = some t →
    ∃ t', (slots (fork src dst (count s) c))[dst]? = some t' ∧ agree t' (count s)

namespace Policy

variable {γ δ : Type} (P : Policy γ δ)

/-- The loop from slot `i` on. -/
def bestFrom : List δ → Nat → Option (Nat × Nat) → Option Nat → Nat → Option (Nat × Nat) × Option Nat
  | [], _, best, oldestSlot, _ => (best, oldestSlot)
  | s :: rest, i, best, oldestSlot, oldest =>
    let best := if longer (P.count s) best then some (i, P.count s) else best
    if P.lastUsed s < oldest ∧ ¬P.inUse s then
      bestFrom rest (i + 1) best (some i) (P.lastUsed s)
    else
      bestFrom rest (i + 1) best oldestSlot oldest

/-- The slot at a place. -/
def slot (c : γ) (i : Nat) : δ := ((P.slots c)[i]?).getD P.blank

/-- The search. A panic has no outcome, and an error is one without a slot. -/
def findBestCacheSlot (now : Nat) (c : γ) : Option (γ × Option (Nat × Nat)) :=
  match P.bestFrom (P.slots c) 0 none none now with
  | (some (longestSlot, longest), oldestSlot) =>
    if longest = P.length (P.slot c longestSlot) ∧ ¬P.inUse (P.slot c longestSlot) then
      some (c, some (longestSlot, longest))
    else
      match oldestSlot with
      | none => none
      | some oldestSlot =>
        if P.inUse (P.slot c oldestSlot) then
          some (c, none)
        else if longest > 0 ∧ longestSlot ≠ oldestSlot then
          some (P.fork longestSlot oldestSlot longest c, some (oldestSlot, longest))
        else
          some (c, some (oldestSlot, longest))
  | (none, _) => none

/-- The search is total: it finds a free slot for the prompt if there is one, fails if there is none, and does not panic. -/
structure Selected (c : γ) (out : Option (γ × Option (Nat × Nat))) : Prop where
  found : (∃ s ∈ P.slots c, P.inUse s = false) → ∃ (c' : γ) (i n : Nat) (s s' : δ), out = some (c', some (i, n)) ∧
    (P.slots c)[i]? = some s ∧ P.inUse s = false ∧ (P.slots c')[i]? = some s' ∧ P.agree s' n
  error : (∀ s ∈ P.slots c, P.inUse s = true) → out = some (c, none)
  returns : out ≠ none

/-- A free slot was used before now; or the first slot with the longest prefix is free, and has no other inputs. -/
def Selectable (now : Nat) (c : γ) : Prop :=
  (∃ s ∈ P.slots c, P.inUse s = false ∧ P.lastUsed s < now) ∨
    ∃ (i : Nat) (s : δ), (P.slots c)[i]? = some s ∧ P.inUse s = false ∧ P.count s = P.length s ∧
      ∀ (j : Nat) (t : δ), (P.slots c)[j]? = some t → P.count t ≤ P.count s ∧ (j < i → P.count t < P.count s)

variable {P}

/-- What the loop has found at its end. -/
theorem bestFrom_spec {now : Nat} (passed rest : List δ) {best : Option (Nat × Nat)} {oldestSlot : Option Nat}
    {oldest : Nat} (hbest : FirstMax P.count passed best)
    (holdest : LeastBelow P.lastUsed (fun s => P.inUse s = false) now passed oldestSlot oldest) :
    ∃ oldest', FirstMax P.count (passed ++ rest) (P.bestFrom rest passed.length best oldestSlot oldest).1 ∧
      LeastBelow P.lastUsed (fun s => P.inUse s = false) now (passed ++ rest)
        (P.bestFrom rest passed.length best oldestSlot oldest).2 oldest' := by
  induction rest generalizing passed best oldestSlot oldest with
  | nil =>
    rw [List.append_nil]
    exact ⟨oldest, hbest, holdest⟩
  | cons s rest ih =>
    have hbest' : FirstMax P.count (passed ++ [s])
      (if longer (P.count s) best then some (passed.length, P.count s) else best) := by
      rcases best with _ | ⟨i, n⟩
      · exact hbest.replace (fun _ _ h => nomatch h)
      · simp only [longer, decide_eq_true_eq]
        split
        · rename_i hlonger
          refine hbest.replace (fun _ _ h => ?_)
          simp only [Option.some.injEq, Prod.mk.injEq] at h
          omega
        · exact hbest.keep (by omega)
    have happend : passed ++ s :: rest = passed ++ [s] ++ rest := by simp
    have hlength : passed.length + 1 = (passed ++ [s]).length := by simp
    rw [happend]
    simp only [Policy.bestFrom, hlength]
    split
    · rename_i hlt
      exact ih _ hbest' (holdest.replace (by simpa using hlt.2) hlt.1)
    · rename_i hnot
      exact ih _ hbest' (holdest.keep (by simpa using hnot))

theorem slot_eq {c : γ} {i : Nat} {s : δ} (h : (P.slots c)[i]? = some s) : P.slot c i = s := by
  rw [Policy.slot, h, Option.getD_some]

/-- What the search makes of what the loop has found, case by case. -/
theorem findBestCacheSlot_cases (now : Nat) (c : γ) :
    (P.slots c = [] ∧ P.findBestCacheSlot now c = none) ∨
    ∃ (i : Nat) (s : δ), FirstMax P.count (P.slots c) (some (i, P.count s)) ∧ (P.slots c)[i]? = some s ∧
      ((P.count s = P.length s ∧ P.inUse s = false ∧ P.findBestCacheSlot now c = some (c, some (i, P.count s))) ∨
        (¬(P.count s = P.length s ∧ P.inUse s = false) ∧ (∀ t ∈ P.slots c, P.inUse t = false → now ≤ P.lastUsed t) ∧
          P.findBestCacheSlot now c = none) ∨
        ∃ (j : Nat) (t : δ), (P.slots c)[j]? = some t ∧ P.inUse t = false ∧ P.lastUsed t < now ∧
          ∃ (c' : γ) (t' : δ), P.findBestCacheSlot now c = some (c', some (j, P.count s)) ∧ (P.slots c')[j]? = some t' ∧
            P.agree t' (P.count s)) := by
  have hfirst : FirstMax P.count [] none := rfl
  have hleast : LeastBelow P.lastUsed (fun s => P.inUse s = false) now [] none now :=
    ⟨rfl, fun _ h => (List.not_mem_nil h).elim⟩
  obtain ⟨oldest, hbest, holdest⟩ := bestFrom_spec [] (P.slots c) hfirst hleast
  rw [List.nil_append, List.length_nil] at hbest holdest
  rcases hfound : P.bestFrom (P.slots c) 0 none none now with ⟨_ | ⟨i, n⟩, oldestSlot⟩ <;> rw [hfound] at hbest holdest
  · refine Or.inl ⟨hbest, ?_⟩
    simp only [Policy.findBestCacheSlot, hfound]
  · obtain ⟨s, hs, rfl, hmax⟩ := hbest
    refine Or.inr ⟨i, s, ⟨s, hs, rfl, hmax⟩, hs, ?_⟩
    simp only [Policy.findBestCacheSlot, hfound, slot_eq hs]
    by_cases hfull : P.count s = P.length s ∧ P.inUse s = false
    · exact Or.inl ⟨hfull.1, hfull.2, by simp [hfull]⟩
    · rw [if_neg (by simpa using hfull)]
      rcases oldestSlot with _ | j
      · exact Or.inr (Or.inl ⟨hfull, holdest.2, rfl⟩)
      · obtain ⟨t, ht, hfree, hused, hlt⟩ := holdest
        refine Or.inr (Or.inr ⟨j, t, ht, hfree, by omega, ?_⟩)
        simp only [slot_eq ht, hfree, Bool.false_eq_true, if_false]
        split
        · obtain ⟨t', ht', hagree⟩ := P.fork_agree c i j s t hs ht
          exact ⟨_, t', rfl, ht', hagree⟩
        · rename_i hno
          refine ⟨c, t, rfl, ht, P.agree_of_le t _ ?_⟩
          -- Without a fork the prefix is empty or the slot's own.
          by_cases h0 : P.count s = 0
          · omega
          · have hsame : i = j := by
              by_contra hne
              exact hno ⟨by omega, hne⟩
            subst hsame
            rw [hs, Option.some.injEq] at ht
            rw [ht]

/-- The search is total exactly where it is `Selectable`. -/
theorem selected_iff (now : Nat) (c : γ) : P.Selected c (P.findBestCacheSlot now c) ↔ P.Selectable now c := by
  have hmem : ∀ {i : Nat} {s : δ}, (P.slots c)[i]? = some s → s ∈ P.slots c := fun h => List.mem_of_getElem? h
  rcases findBestCacheSlot_cases (P := P) now c with ⟨hnil, hout⟩ | ⟨i, s, hmax, hs, hcases⟩
  · refine ⟨fun h => (h.returns hout).elim, ?_⟩
    rintro (⟨s, hmem, _⟩ | ⟨i, s, hget, _⟩) <;> simp [hnil] at *
  · rcases hcases with ⟨hfull, hfree, hout⟩ | ⟨hnot, hlate, hout⟩ | ⟨j, t, ht, hfree, hlt, c', t', hout, ht', hagree⟩
    · obtain ⟨_, _, _, hmax⟩ := hmax
      refine iff_of_true ⟨fun _ => ?_, fun h => ?_, by simp [hout]⟩ (Or.inr ⟨i, s, hs, hfree, hfull, hmax⟩)
      · exact ⟨c, i, P.count s, s, s, hout, hs, hfree, hs, P.agree_of_le s _ (Nat.le_refl _)⟩
      · simp [h s (hmem hs)] at hfree
    · refine iff_of_false (fun h => h.returns hout) ?_
      rintro (⟨t, ht, hfree, hlt⟩ | ⟨i', s', hs', hfree, hfull, hmax'⟩)
      · have := hlate t ht hfree
        omega
      · -- The first slot with the longest prefix is the one the loop has found.
        obtain ⟨rfl, _⟩ := hmax.unique ⟨s', hs', rfl, hmax'⟩
        rw [hs, Option.some.injEq] at hs'
        subst hs'
        exact hnot ⟨hfull, hfree⟩
    · refine iff_of_true ⟨fun _ => ?_, fun h => ?_, by simp [hout]⟩ (Or.inl ⟨t, hmem ht, hfree, hlt⟩)
      · exact ⟨c', j, P.count s, t, t', hout, ht, hfree, ht', hagree⟩
      · simp [h t (hmem ht)] at hfree

end Policy

end Ollama.Runner
