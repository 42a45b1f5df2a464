import Ollama.Model.Lemmas.Queue

/-!
# Ties between pairs

The queue gives no order to pairs of one rank, so the loop merges any neighbours of the least rank. What is left is
what merging from the left leaves for every such queue exactly when it does not matter which of them are merged
(`merges_canonical_iff`): for every run of merges there is a queue that takes it. A word of one letter that has a
merge with itself is one where it matters (`merges_repeated`).
-/

namespace Ollama.Model

open Lib Utf8

namespace CanonicalAux

variable {v : Vocabulary}

/-! ## A queue that follows a script -/

/-- Whether a pair is in the queue and has the least rank. -/
def IsLeast (items : List Pair) (p : Pair) : Prop := p ∈ items ∧ ∀ p' ∈ items, p.rank ≤ p'.rank

instance (items : List Pair) (p : Pair) : Decidable (IsLeast items p) := inferInstanceAs (Decidable (_ ∧ _))

/-- The first pair of the least rank. -/
def popFirst (q : List Pair × List Pair) : Option (Pair × List Pair × List Pair) :=
  (q.1.find? (fun p => IsLeast q.1 p)).map (fun p => (p, q.1.erase p, q.2))

/-- The next pair of the script, if it has the least rank, or the first pair of the least rank. -/
def popScript (q : List Pair × List Pair) : Option (Pair × List Pair × List Pair) :=
  match q.2 with
  | [] => popFirst q
  | p :: script => if IsLeast q.1 p then some (p, q.1.erase p, script) else popFirst q

/-- There is a pair of the least rank unless there is no pair. -/
theorem find?_isLeast_eq_none_iff (items : List Pair) : items.find? (fun p => IsLeast items p) = none ↔ items = [] := by
  constructor
  · intro h
    rw [List.find?_eq_none] at h
    cases hmin : items.argmin Pair.rank with
    | none => exact List.argmin_eq_none.1 hmin
    | some p =>
      have hp := List.argmin_mem hmin
      exact (h p hp (decide_eq_true ⟨hp, fun _ hp' => List.le_of_mem_argmin hp' hmin⟩)).elim
  · rintro rfl
    rfl

/-- What is popped: a pair of the least rank, which is that of the script if it can be. -/
theorem popScript_cases {q q' : List Pair × List Pair} {p : Pair} (h : popScript q = some (p, q')) :
    IsLeast q.1 p ∧ q'.1 = q.1.erase p ∧
      (q.2 = p :: q'.2 ∨ (q'.2 = q.2 ∧ ∀ p₀ script, q.2 = p₀ :: script → ¬IsLeast q.1 p₀)) := by
  have hfirst : popFirst q = some (p, q') → IsLeast q.1 p ∧ q'.1 = q.1.erase p ∧ q'.2 = q.2 := by
    intro hpop
    obtain ⟨p', hmin, heq⟩ := Option.map_eq_some_iff.1 hpop
    rw [Prod.mk.injEq] at heq
    obtain ⟨rfl, rfl⟩ := heq
    have hleast := List.find?_some hmin
    exact ⟨of_decide_eq_true hleast, rfl, rfl⟩
  unfold popScript at h
  cases hscript : q.2 with
  | nil =>
    rw [hscript] at h
    obtain ⟨hleast, hitems, hrest⟩ := hfirst h
    exact ⟨hleast, hitems, Or.inr ⟨hrest.trans hscript, nofun⟩⟩
  | cons p₀ script =>
    rw [hscript] at h
    dsimp only at h
    by_cases hp₀ : IsLeast q.1 p₀
    · rw [if_pos hp₀, Option.some.injEq, Prod.mk.injEq] at h
      obtain ⟨rfl, rfl⟩ := h
      exact ⟨hp₀, rfl, Or.inl rfl⟩
    · rw [if_neg hp₀] at h
      obtain ⟨hleast, hitems, hrest⟩ := hfirst h
      refine ⟨hleast, hitems, Or.inr ⟨hrest.trans hscript, fun p₁ script' heq => ?_⟩⟩
      rw [List.cons.injEq] at heq
      exact heq.1 ▸ hp₀

theorem popScript_eq_none_iff (q : List Pair × List Pair) : popScript q = none ↔ q.1 = [] := by
  have hfirst : popFirst q = none ↔ q.1 = [] := by
    rw [popFirst, Option.map_eq_none_iff, find?_isLeast_eq_none_iff]
  unfold popScript
  cases hscript : q.2 with
  | nil => exact hfirst
  | cons p script =>
    dsimp only
    by_cases hp : IsLeast q.1 p
    · rw [if_pos hp]
      exact ⟨nofun, fun hnil => (List.ne_nil_of_mem hp.1 hnil).elim⟩
    · rw [if_neg hp]
      exact hfirst

/-- The queue that follows a script. -/
def scripted (script : List Pair) : Queue (List Pair × List Pair) where
  empty := ([], script)
  push p q := (p :: q.1, q.2)
  pop := popScript
  items q := q.1
  items_empty := rfl
  items_push _ _ := rfl
  pop_none q := by
    rw [popScript_eq_none_iff, Multiset.coe_eq_zero]
  pop_some q p q' h := by
    obtain ⟨hleast, hitems, _⟩ := popScript_cases h
    rw [hitems, Multiset.cons_coe]
    exact Multiset.coe_eq_coe.2 (List.perm_cons_erase hleast.1)

theorem scripted_least (script : List Pair) : (scripted script).Least :=
  fun _ _ _ hpop p' hp' => (popScript_cases hpop).1.2 p' (Multiset.mem_coe.1 hp')

theorem script_pushSome (script : List Pair) (o : Option Pair) (q : List Pair × List Pair) :
    ((scripted script).pushSome o q).2 = q.2 := by
  cases o with
  | none => rfl
  | some p => rfl

/-! ## The scripts of runs -/

/-- The pairs that are joined one after another, each of the least rank. -/
inductive Script (v : Vocabulary) : List Merge → List Pair → List Merge → Prop
  | done (merges : List Merge) : Script v merges [] merges
  | step {merges merges' : List Merge} {p : Pair} {script : List Pair} (neighbours : Neighbours merges p.a p.b)
      (pair : pairwise v merges p.a p.b = some p) (least : ∀ k ∈ ranks v.rank (segments merges), p.rank ≤ (k : Int))
      (rest : Script v (join merges p.a p.b) script merges') : Script v merges (p :: script) merges'

/-- Every run of merges has a script. -/
theorem exists_script {merges : List Merge} {parts parts' : List (List Nat)} (hlinked : Linked merges)
    (hparts : segments merges = parts) (hrun : Relation.ReflTransGen (MergeStep v.rank) parts parts') :
    ∃ script merges', Script v merges script merges' ∧ segments merges' = parts' := by
  induction hrun using Relation.ReflTransGen.head_induction_on generalizing merges with
  | refl => exact ⟨[], merges, Script.done merges, hparts⟩
  | head hstep _ ih =>
    obtain ⟨l, x, y, r, k, hsplit, hrank, hleast, rfl⟩ := hstep
    obtain ⟨i, j, hij, rfl, rfl, rfl⟩ := exists_neighbours (hparts.trans hsplit)
    obtain ⟨p, hp, hpk⟩ := (pairwise_eq_some_iff (live_lt hij.right)).2 hrank
    obtain ⟨rfl, rfl, _⟩ := hij.current hp
    have hrest : r = segmentsFrom merges (p.b + 1) := by
      have := hij.segments_eq.symm.trans (hparts.trans hsplit)
      rw [List.append_cancel_left_eq, List.cons.injEq, List.cons.injEq] at this
      exact this.2.2.symm
    obtain ⟨script, merges', hscript, hparts'⟩ := ih (hlinked.join hij) (by rw [hlinked.segments_join hij, hrest])
    refine ⟨p :: script, merges', Script.step hij hp (fun k' hk' => ?_) hscript, hparts'⟩
    have := hleast k' (hparts ▸ hk')
    omega

/-- A pair that is popped and not joined is not that of the script. -/
theorem Script.drop {script₀ : List Pair} {merges merges' : List Merge} {q q' : List Pair × List Pair} {p : Pair}
    (h : Script v merges q.2 merges') (hpop : (scripted script₀).pop q = some (p, q')) (hcur : ¬p.current merges) :
    Script v merges q'.2 merges' := by
  obtain ⟨_, _, hscript | ⟨hsame, _⟩⟩ := popScript_cases hpop
  · rw [hscript] at h
    cases h with
    | step neighbours pair _ _ => exact (hcur (neighbours.current pair).2.2).elim
  · rw [hsame]
    exact h

/-- A pair that is popped and joined is that of the script, if there are no ranks left at its end. -/
theorem Script.join {script₀ : List Pair} {merges merges' : List Merge} {q q' : List Pair × List Pair} {p : Pair}
    (h : Script v merges q.2 merges') (hlast : ranks v.rank (segments merges') = [])
    (hinv : QueueInv v merges ((scripted script₀).items q)) (hpop : (scripted script₀).pop q = some (p, q'))
    (hcur : p.current merges) :
    Script v (Model.join merges p.a p.b) q'.2 merges' := by
  obtain ⟨hab, hpair⟩ := (hinv.queued p (mem_items_of_pop hpop)).current hcur
  obtain ⟨hmem, hcast, _⟩ := hab.rank_mem hpair
  obtain ⟨hleast, _, hcases⟩ := popScript_cases hpop
  cases hq : q.2 with
  | nil =>
    rw [hq] at h
    cases h
    rw [hlast] at hmem
    exact (List.not_mem_nil hmem).elim
  | cons p₀ script =>
    rw [hq] at h hcases
    cases h with
    | step neighbours pair least rest =>
      rcases hcases with heq | ⟨_, hother⟩
      · rw [List.cons.injEq] at heq
        rw [← heq.1, ← heq.2]
        exact rest
      · -- the pair of the script is in the queue, and no pair has a lower rank than that of the two neighbours
        have hp₀ : p₀ ∈ q.1 := Multiset.mem_coe.1 (hinv.complete _ _ p₀ neighbours pair)
        refine (hother p₀ script rfl ⟨hp₀, fun p' hp' => ?_⟩).elim
        have h1 := least _ hmem
        have h2 := hleast.2 p' hp'
        omega

/-- The loop follows a script to its end. -/
theorem mergeLoop_script {word : List Nat} {script : List Pair} {merges : List Merge}
    (hscript : Script v (singles word) script merges) (hlast : ranks v.rank (segments merges) = []) :
    mergeLoop (scripted script) v (3 * word.length) (singles word) (firstPairs (scripted script) v (singles word)) =
      some merges := by
  have hfirst : (firstPairs (scripted script) v (singles word)).2 = script := by
    have hall : ∀ (l : List Nat) (q : List Pair × List Pair),
        (l.foldl (fun q (i : Nat) => (scripted script).pushSome (pairwise v (singles word) i (i + 1)) q) q).2 =
        q.2 := by
      intro l
      induction l with
      | nil => exact fun _ => rfl
      | cons i l ih =>
        intro q
        rw [List.foldl_cons, ih, script_pushSome]
    exact hall _ _
  obtain ⟨merges', q, hloop, hinv, hrest, hitems⟩ := mergeLoop_word (Q := scripted script) (v := v) word
    (fun merges' q => Script v merges' q.2 merges)
    (fun _ _ _ _ _ h hpop hcur => h.drop hpop hcur)
    (fun _ _ _ _ hinv h hpop hcur => by
      rw [script_pushSome, script_pushSome]
      exact h.join hlast hinv hpop hcur)
    (hfirst.symm ▸ hscript)
  -- the queue is empty, so there is nothing left of the script
  cases hq : q.2 with
  | nil =>
    rw [hq] at hrest
    cases hrest
    exact hloop
  | cons p rest =>
    rw [hq] at hrest
    cases hrest with
    | step neighbours pair _ _ => exact (Multiset.notMem_zero p (hinv.complete _ _ p neighbours pair)).elim

end CanonicalAux

open CanonicalAux in
/-- For every queue that pops pairs of the least rank the loop leaves what merging from the left leaves, if and only
if this is what is left whichever neighbours of the least rank are merged. -/
theorem merges_canonical_iff (v : Vocabulary) (word : List Nat) :
    (∀ (σ : Type) (Q : Queue σ), Q.Least → ∃ merges,
      mergeLoop Q v (3 * word.length) (singles word) (firstPairs Q v (singles word)) = some merges ∧
        segments merges = mergeAll v.rank (word.map (fun r => [r]))) ↔
      Canonical v.rank (word.map (fun r => [r])) := by
  constructor
  · intro h parts' hrun hlast
    obtain ⟨script, merges, hscript, rfl⟩ := exists_script (linked_singles word) (segments_singles word) hrun
    obtain ⟨merges', hloop, hmerges'⟩ := h _ (scripted script) (scripted_least script)
    rw [mergeLoop_script hscript hlast, Option.some.injEq] at hloop
    rw [hloop, hmerges']
  · intro h σ Q hQ
    obtain ⟨merges, hloop, hrun, hlast⟩ := mergeLoop_run hQ v word
    exact ⟨merges, hloop, h _ hrun hlast⟩

/-- The vocabulary of a letter and a merge of it with itself. -/
def repeated : Vocabulary where
  values := [[0x61], [0x61, 0x61]]
  types := [1, 1]
  merges := [[0x61, 0x20, 0x61]]
  values_le := by decide
  merges_le := by decide

open CanonicalAux in
/-- Of five letters the first two and then the last two are merged, which a binary heap does that fills the place of
what it has popped with the last pair; from the left it is the first four. -/
theorem merges_repeated : ¬∀ (v : Vocabulary) (word : List Nat) (σ : Type) (Q : Queue σ), Q.Least → ∃ merges,
    mergeLoop Q v (3 * word.length) (singles word) (firstPairs Q v (singles word)) = some merges ∧
      segments merges = mergeAll v.rank (word.map (fun r => [r])) := by
  intro h
  obtain ⟨merges, hloop, hmerges⟩ := h repeated [0x61, 0x61, 0x61, 0x61, 0x61] _
    (scripted [⟨0, 1, 0, [0x61, 0x61]⟩, ⟨3, 4, 0, [0x61, 0x61]⟩]) (scripted_least _)
  have hleft : mergeAll repeated.rank ([0x61, 0x61, 0x61, 0x61, 0x61].map (fun r => [r])) =
    [[0x61, 0x61], [0x61, 0x61], [0x61]] := by decide
  have hscript : (mergeLoop (scripted [⟨0, 1, 0, [0x61, 0x61]⟩, ⟨3, 4, 0, [0x61, 0x61]⟩]) repeated 15
    (singles [0x61, 0x61, 0x61, 0x61, 0x61])
      (firstPairs (scripted [⟨0, 1, 0, [0x61, 0x61]⟩, ⟨3, 4, 0, [0x61, 0x61]⟩]) repeated
        (singles [0x61, 0x61, 0x61, 0x61, 0x61]))).map
        segments = some [[0x61, 0x61], [0x61], [0x61, 0x61]] := by decide
  have hloop' := congrArg (Option.map segments) hloop
  rw [Option.map_some, hmerges, hleft] at hloop'
  have := hscript.symm.trans hloop'
  revert this
  decide

end Ollama.Model
