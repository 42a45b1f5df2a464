import Ollama.Model.ProcessText

/-!
# The merge loop

What the loop over the queue of pairs keeps: the parts that are left spell the word, each of them is in the
vocabulary, and a queued pair has nothing between its two parts, so that joining them does not change the order of
runes. The text a pair was queued with says whether its parts are still what they were, not whether they are still
neighbours; that they are follows from `Gap`, which no later step undoes.
-/

namespace Ollama.Model

open Lib Utf8

variable {σ : Type} {Q : Queue σ} {v : Vocabulary}

/-- There is nothing between two indices. -/
def Gap (merges : List Merge) (a : Int) (b : Nat) : Prop := ∀ k : Nat, a < k → k < b → (entry merges k).runes = []

/-- What the loop keeps, with the pairs that are in the queue. -/
structure MergeInv (v : Vocabulary) (word : List Nat) (merges : List Merge) (pairs : Multiset Pair) : Prop where
  text : (merges.map Merge.runes).flatten = word
  next : ∀ i, i < merges.length → (entry merges i).runes ≠ [] → i < (entry merges i).n ∧ Gap merges i (entry merges i).n
  prev : ∀ i, i < merges.length → (entry merges i).runes ≠ [] → (entry merges i).p < i ∧ Gap merges (entry merges i).p i
  known : ∀ i, i < merges.length → (entry merges i).runes ≠ [] → ofRunes (entry merges i).runes ∈ v.values
  queued : ∀ p ∈ pairs, p.a < p.b ∧ p.b < merges.length ∧ Gap merges p.a p.b ∧ p.value ∈ v.values

/-! ## Joining two parts -/

/-- The part before which there is nothing comes first. -/
theorem append_flatten_set {α : Type} {R : List (List α)} {b : Nat} (hb : b < R.length)
    (hgap : ∀ k, k < b → R[k]? = some []) : R[b] ++ (R.set b []).flatten = R.flatten := by
  induction R generalizing b with
  | nil => simp at hb
  | cons x R ih =>
    cases b with
    | zero => simp
    | succ b =>
      have hx : x = [] := by simpa using hgap 0 (Nat.succ_pos b)
      subst hx
      simp only [List.set_cons_succ, List.flatten_cons, List.nil_append, List.getElem_cons_succ]
      exact ih (Nat.lt_of_succ_lt_succ hb) (fun k hk => by simpa using hgap (k + 1) (Nat.succ_lt_succ hk))

/-- A part that is added to another with nothing between them. -/
theorem flatten_set_set {α : Type} {R : List (List α)} {a b : Nat} (hab : a < b) (hb : b < R.length)
    (hgap : ∀ k, a < k → k < b → R[k]? = some []) :
    ((R.set a (R[a] ++ R[b])).set b []).flatten = R.flatten := by
  induction R generalizing a b with
  | nil => simp at hb
  | cons x R ih =>
    cases b with
    | zero => omega
    | succ b =>
      cases a with
      | zero =>
        simp only [List.set_cons_zero, List.set_cons_succ, List.flatten_cons, List.getElem_cons_zero,
          List.getElem_cons_succ, List.append_assoc]
        rw [append_flatten_set (Nat.lt_of_succ_lt_succ hb) (fun k hk => by
          simpa using hgap (k + 1) (Nat.succ_pos k) (Nat.succ_lt_succ hk))]
      | succ a =>
        simp only [List.set_cons_succ, List.flatten_cons, List.getElem_cons_succ]
        rw [ih (Nat.lt_of_succ_lt_succ hab) (Nat.lt_of_succ_lt_succ hb) (fun k h1 h2 => by
          simpa using hgap (k + 1) (Nat.succ_lt_succ h1) (Nat.succ_lt_succ h2))]

theorem entry_set (merges : List Merge) {i : Nat} (hi : i < merges.length) (m : Merge) (j : Nat) :
    entry (merges.set i m) j = if j = i then m else entry merges j := by
  unfold entry
  by_cases hj : j = i
  · subst hj
    simp [hi]
  · simp [hj, List.getElem?_set_ne (Ne.symm hj)]

theorem length_join (merges : List Merge) (a b : Nat) : (join merges a b).length = merges.length := by
  unfold join
  dsimp only
  split <;> simp

/-- The entries after a join. -/
theorem entry_join {merges : List Merge} {a b : Nat} (hab : a < b) (hb : b < merges.length)
    (hn : b < (entry merges b).n) (i : Nat) :
    (entry (join merges a b) i).runes =
      (if i = a then (entry merges a).runes ++ (entry merges b).runes else if i =
        b then [] else (entry merges i).runes) ∧
    (entry (join merges a b) i).n = (if i = a then (entry merges b).n else (entry merges i).n) ∧
    (entry (join merges a b) i).p =
      (if i = (entry merges b).n ∧ (entry merges b).n < merges.length then (a : Int) else (entry merges i).p) := by
  have ha : a < merges.length := Nat.lt_trans hab hb
  have hne : b ≠ a := Nat.ne_of_gt hab
  have hna : ¬(entry merges b).n = a := by omega
  have hnb : ¬(entry merges b).n = b := by omega
  unfold join
  dsimp only
  rw [entry_set merges ha, if_neg hne, List.length_set, List.length_set]
  -- the two parts, before the link of the next one is set
  have htwo : ∀ j, entry ((merges.set a
      ⟨(entry merges a).p, (entry merges b).n, (entry merges a).runes ++ (entry merges b).runes⟩).set b
        ⟨(entry merges b).p, (entry merges b).n, []⟩) j =
      if j = b then ⟨(entry merges b).p, (entry merges b).n, []⟩
      else if j = a then ⟨(entry merges a).p, (entry merges b).n, (entry merges a).runes ++ (entry merges b).runes⟩
      else entry merges j := by
    intro j
    rw [entry_set _ (by rwa [List.length_set]), entry_set merges ha]
  have hpair : (if i = b then (⟨(entry merges b).p, (entry merges b).n, []⟩ : Merge)
      else if i = a then ⟨(entry merges a).p, (entry merges b).n, (entry merges a).runes ++ (entry merges b).runes⟩
      else entry merges i) =
      ⟨(entry merges i).p, if i = a then (entry merges b).n else (entry merges i).n,
        if i = a then (entry merges a).runes ++ (entry merges b).runes else if i = b then []
        else (entry merges i).runes⟩ := by
    by_cases hib : i = b
    · subst hib
      simp [hne]
    · by_cases hia : i = a
      · subst hia
        simp [hib]
      · simp [hib, hia]
  by_cases hlt : (entry merges b).n < merges.length
  · rw [if_pos hlt, entry_set _ (by rwa [List.length_set, List.length_set]), htwo, if_neg hnb, if_neg hna, htwo, hpair]
    by_cases hi : i = (entry merges b).n
    · subst hi
      simp [hna, hnb, hlt]
    · simp [hi]
  · rw [if_neg hlt, htwo, hpair]
    simp [hlt]

theorem getElem?_eq_entry {merges : List Merge} {i : Nat} (hi : i < merges.length) :
    merges[i]? = some (entry merges i) := by
  unfold entry
  rw [List.getElem?_eq_getElem hi]
  rfl

/-- The runes of the entries after a join. -/
theorem runes_join {merges : List Merge} {a b : Nat} (hab : a < b) (hb : b < merges.length)
    (hn : b < (entry merges b).n) :
    (join merges a b).map Merge.runes =
      ((merges.map Merge.runes).set a ((entry merges a).runes ++ (entry merges b).runes)).set b [] := by
  apply List.ext_getElem?
  intro i
  by_cases hi : i < merges.length
  · have hj : (join merges a b)[i]? = some (entry (join merges a b) i) := getElem?_eq_entry (by rwa [length_join])
    rw [List.getElem?_map, hj, Option.map_some, (entry_join hab hb hn i).1, List.getElem?_set, List.getElem?_set,
      List.getElem?_map, getElem?_eq_entry hi]
    simp only [List.length_set, List.length_map, hb, Nat.lt_trans hab hb, if_true, Option.map_some]
    by_cases hib : b = i
    · rw [if_pos hib, if_neg (by omega), if_pos hib.symm]
    · rw [if_neg hib, if_neg (Ne.symm hib)]
      by_cases hia : a = i
      · rw [if_pos hia, if_pos hia.symm]
      · rw [if_neg hia, if_neg (Ne.symm hia)]
  · rw [List.getElem?_eq_none (by rw [List.length_map, length_join]; omega),
      List.getElem?_eq_none (by simp only [List.length_set, List.length_map]; omega)]

/-! ## One pair -/

/-- The merges give strings of the vocabulary. -/
def MergesKnown (v : Vocabulary) : Prop := ∀ l r, l ++ [0x20] ++ r ∈ v.merges → l ++ r ∈ v.values

theorem lastIndex_eq_some {s : Bytes} {vs : List Bytes} {i j : Nat} (h : lastIndex s vs i = some j) :
    i ≤ j ∧ vs[j - i]? = some s := by
  induction vs generalizing i with
  | nil => nomatch h
  | cons v vs ih =>
    rw [lastIndex, Option.or_eq_some_iff] at h
    rcases h with h | ⟨_, h⟩
    · obtain ⟨h1, h2⟩ := ih h
      refine ⟨by omega, ?_⟩
      have hsub : j - i = j - (i + 1) + 1 := by omega
      rw [hsub, List.getElem?_cons_succ]
      exact h2
    · split at h
      · rename_i hv
        rw [← Option.some.inj h, Nat.sub_self, hv]
        exact ⟨Nat.le_refl _, rfl⟩
      · nomatch h

theorem lastIndex_isSome {s : Bytes} {vs : List Bytes} (h : s ∈ vs) (i : Nat) : (lastIndex s vs i).isSome := by
  induction vs generalizing i with
  | nil => nomatch h
  | cons v vs ih =>
    rw [lastIndex, Option.isSome_or, Bool.or_eq_true]
    rcases List.mem_cons.1 h with rfl | hmem
    · exact Or.inr (by simp)
    · exact Or.inl (ih hmem (i + 1))

/-- A pair that is queued is of two indices, and its text is in the vocabulary. -/
theorem pairwise_eq_some (hv : MergesKnown v) {merges : List Merge} {a : Int} {b : Nat} {p : Pair}
    (h : pairwise v merges a b = some p) :
    0 ≤ a ∧ b < merges.length ∧ p.a = a.toNat ∧ p.b = b ∧ p.value ∈ v.values := by
  unfold pairwise at h
  split at h
  · nomatch h
  · rename_i hlt
    dsimp only at h
    split at h
    · nomatch h
    · rename_i hrank
      rw [← Option.some.inj h]
      refine ⟨by omega, by omega, rfl, rfl, ?_⟩
      unfold Vocabulary.merge at hrank
      split at hrank
      · rename_i id hid
        exact hv _ _ (List.mem_of_getElem? (lastIndex_eq_some hid).2)
      · exact absurd (by decide) hrank

theorem items_pushSome (p : Option Pair) (q : σ) : Q.items (Q.pushSome p q) = p.elim (Q.items q) (· ::ₘ Q.items q) := by
  cases p with
  | none => rfl
  | some p => exact Q.items_push p q

theorem card_pushSome (p : Option Pair) (q : σ) : (Q.items (Q.pushSome p q)).card ≤ (Q.items q).card + 1 := by
  rw [items_pushSome]
  cases p with
  | none => exact Nat.le_succ _
  | some p => exact (Multiset.card_cons p _).le

/-- Nothing comes between two indices when parts are joined. -/
theorem Gap.join {merges : List Merge} {a b : Nat} (hab : a < b) (hb : b < merges.length) (hn : b < (entry merges b).n)
    (ha : (entry merges a).runes ≠ []) {x : Int} {y : Nat} (h : Gap merges x y) : Gap (join merges a b) x y := by
  intro k h1 h2
  rw [(entry_join hab hb hn k).1]
  have hk := h k h1 h2
  by_cases hka : k = a
  · exact absurd (hka ▸ hk) ha
  · rw [if_neg hka]
    split
    · rfl
    · exact hk

/-- Joining the parts of a pair that is as it was queued. -/
theorem MergeInv.join {word : List Nat} {merges : List Merge} {pairs : Multiset Pair} {p : Pair}
    (h : MergeInv v word merges (p ::ₘ pairs)) (hp : p.current merges) :
    MergeInv v word (join merges p.a p.b) pairs := by
  obtain ⟨hab, hb, hgap, hvalue⟩ := h.queued p (Multiset.mem_cons_self p pairs)
  obtain ⟨hleft, hright, htext⟩ := hp
  rw [ne_eq, List.length_eq_zero_iff] at hleft hright
  obtain ⟨hn, hnext⟩ := h.next p.b hb hright
  have hentry := entry_join hab hb hn
  have hkeep : ∀ {x : Int} {y : Nat}, Gap merges x y → Gap (Model.join merges p.a p.b) x y := Gap.join hab hb hn hleft
  -- from the joined part to what followed the right one
  have hover : Gap (Model.join merges p.a p.b) p.a (entry merges p.b).n := by
    intro k h1 h2
    by_cases hk : k = p.b
    · rw [(hentry k).1, if_neg (by omega), if_pos hk]
    · rcases Nat.lt_or_gt_of_ne hk with hlt | hgt
      · exact hkeep hgap k h1 hlt
      · exact hkeep hnext k (by omega) h2
  have hold : ∀ i, i ≠ p.a → (entry (Model.join merges p.a p.b) i).runes ≠ [] → (entry merges i).runes ≠ [] := by
    intro i hi hne
    rw [(hentry i).1, if_neg hi] at hne
    split at hne
    · exact absurd rfl hne
    · exact hne
  refine ⟨?_, fun i hi hne => ?_, fun i hi hne => ?_, fun i hi hne => ?_, fun p' hp' => ?_⟩
  · rw [runes_join hab hb hn, ← h.text]
    have ha : p.a < (merges.map Merge.runes).length := by
      rw [List.length_map]
      omega
    have hb' : p.b < (merges.map Merge.runes).length := by
      rw [List.length_map]
      omega
    have hget : ∀ i (hi : i < (merges.map Merge.runes).length), (merges.map Merge.runes)[i] =
      (entry merges i).runes := by
      intro i hi
      rw [List.length_map] at hi
      rw [List.getElem_map]
      simp [entry, hi]
    rw [← hget p.a ha, ← hget p.b hb']
    refine flatten_set_set hab hb' (fun k h1 h2 => ?_)
    rw [List.getElem?_map, getElem?_eq_entry (by omega), Option.map_some, hgap k (by omega) h2]
  · rw [(hentry i).2.1]
    by_cases hia : i = p.a
    · rw [if_pos hia, hia]
      exact ⟨by omega, hover⟩
    · rw [if_neg hia]
      obtain ⟨h1, h2⟩ := h.next i (length_join merges p.a p.b ▸ hi) (hold i hia hne)
      exact ⟨h1, hkeep h2⟩
  · rw [(hentry i).2.2]
    by_cases hin : i = (entry merges p.b).n ∧ (entry merges p.b).n < merges.length
    · rw [if_pos hin, hin.1]
      exact ⟨by omega, hover⟩
    · rw [if_neg hin]
      have hne' : (entry merges i).runes ≠ [] := by
        by_cases hia : i = p.a
        · exact hia ▸ hleft
        · exact hold i hia hne
      obtain ⟨h1, h2⟩ := h.prev i (length_join merges p.a p.b ▸ hi) hne'
      exact ⟨h1, hkeep h2⟩
  · by_cases hia : i = p.a
    · rw [(hentry i).1, if_pos hia, ofRunes, List.flatMap_append]
      exact htext ▸ hvalue
    · have hne' := hold i hia hne
      have hib : i ≠ p.b := by
        intro hib
        rw [(hentry i).1, if_neg hia, if_pos hib] at hne
        exact hne rfl
      rw [(hentry i).1, if_neg hia, if_neg hib]
      exact h.known i (length_join merges p.a p.b ▸ hi) hne'
  · obtain ⟨h1, h2, h3, h4⟩ := h.queued p' (Multiset.mem_cons_of_mem hp')
    exact ⟨h1, (length_join merges p.a p.b).symm ▸ h2, hkeep h3, h4⟩

/-- A pair that is popped and not joined. -/
theorem MergeInv.drop {word : List Nat} {merges : List Merge} {pairs : Multiset Pair} {p : Pair}
    (h : MergeInv v word merges (p ::ₘ pairs)) : MergeInv v word merges pairs :=
  ⟨h.text, h.next, h.prev, h.known, fun p' hp' => h.queued p' (Multiset.mem_cons_of_mem hp')⟩

/-- A pair of two parts with nothing between them is queued. -/
theorem MergeInv.push (hv : MergesKnown v) {word : List Nat} {merges : List Merge} {q : σ} {a : Int} {b : Nat}
    (h : MergeInv v word merges (Q.items q)) (hab : a < b) (hgap : Gap merges a b) :
    MergeInv v word merges (Q.items (Q.pushSome (pairwise v merges a b) q)) := by
  rw [items_pushSome]
  rcases hp : pairwise v merges a b with _ | p
  · exact h
  · refine ⟨h.text, h.next, h.prev, h.known, fun p' hp' => ?_⟩
    rcases Multiset.mem_cons.1 hp' with rfl | hmem
    · obtain ⟨ha, hb, hpa, hpb, hvalue⟩ := pairwise_eq_some hv hp
      rw [hpa, hpb, Int.toNat_of_nonneg ha]
      exact ⟨by omega, hb, hgap, hvalue⟩
    · exact h.queued p' hmem

/-! ## The whole loop -/

/-- The number of parts. -/
def parts (merges : List Merge) : Nat := (merges.map Merge.runes).countP (fun r => decide (r ≠ []))

theorem parts_join {merges : List Merge} {a b : Nat} (hab : a < b) (hb : b < merges.length)
    (hn : b < (entry merges b).n) (hleft : (entry merges a).runes ≠ []) (hright : (entry merges b).runes ≠ []) :
    parts (join merges a b) + 1 = parts merges := by
  have ha : a < (merges.map Merge.runes).length := by
    rw [List.length_map]
    omega
  have hb' : b < (merges.map Merge.runes).length := by
    rw [List.length_map]
    omega
  have hget : ∀ i (hi : i < (merges.map Merge.runes).length), (merges.map Merge.runes)[i] = (entry merges i).runes := by
    intro i hi
    rw [List.length_map] at hi
    rw [List.getElem_map]
    simp [entry, hi]
  have hpos : 0 < (merges.map Merge.runes).countP (fun r => decide (r ≠ [])) := by
    rw [List.countP_pos_iff]
    exact ⟨(entry merges b).runes, hget b hb' ▸ List.getElem_mem hb', by simpa using hright⟩
  unfold parts
  rw [runes_join hab hb hn, List.countP_set (by rwa [List.length_set]), List.countP_set ha,
    List.getElem_set_ne (by omega),
    hget a ha, hget b hb', if_pos (by simpa using hleft), if_pos (by simpa using Or.inl hleft),
      if_pos (by simpa using hright),
    if_neg (by simp)]
  omega

/-- The loop returns, and what is left spells the word in strings of the vocabulary. -/
theorem mergeLoop_spec (hv : MergesKnown v) {word : List Nat} {fuel : Nat} {merges : List Merge} {q : σ}
    (h : MergeInv v word merges (Q.items q)) (hfuel : (Q.items q).card + 2 * parts merges ≤ fuel) :
    ∃ merges', mergeLoop Q v fuel merges q = some merges' ∧ MergeInv v word merges' 0 := by
  induction fuel generalizing merges q with
  | zero =>
    have hnone : Q.items q = 0 := Multiset.card_eq_zero.1 (by omega)
    refine ⟨merges, ?_, hnone ▸ h⟩
    rw [mergeLoop, (Q.pop_none q).2 hnone]
    rfl
  | succ fuel ih =>
    rcases hpop : Q.pop q with _ | ⟨p, q'⟩
    · refine ⟨merges, ?_, (Q.pop_none q).1 hpop ▸ h⟩
      rw [mergeLoop, hpop]
    · have hitems := Q.pop_some q p q' hpop
      rw [hitems] at h hfuel
      rw [Multiset.card_cons] at hfuel
      simp only [mergeLoop, hpop]
      by_cases hcur : p.current merges
      · rw [if_pos hcur]
        obtain ⟨hab, hb, _, _⟩ := h.queued p (Multiset.mem_cons_self p _)
        obtain ⟨hleft, hright, _⟩ := id hcur
        rw [ne_eq, List.length_eq_zero_iff] at hleft hright
        have hn := (h.next p.b hb hright).1
        have hjoin := h.join hcur
        have hparts := parts_join hab hb hn hleft hright
        -- the joined part is not empty, so its links are right
        have hne : (entry (join merges p.a p.b) p.a).runes ≠ [] := by
          rw [(entry_join hab hb hn p.a).1, if_pos rfl]
          exact fun h0 => hleft (List.append_eq_nil_iff.1 h0).1
        have hlt : p.a < (join merges p.a p.b).length := by
          rw [length_join]
          omega
        obtain ⟨hp1, hp2⟩ := hjoin.prev p.a hlt hne
        obtain ⟨hn1, hn2⟩ := hjoin.next p.a hlt hne
        have hpush := (hjoin.push hv hp1 hp2).push hv (by omega) hn2
        refine ih hpush ?_
        have h1 := card_pushSome (Q := Q) (pairwise v (join merges p.a p.b) (entry (join merges p.a p.b) p.a).p p.a) q'
        have h2 := card_pushSome (Q := Q) (pairwise v (join merges p.a p.b) p.a (entry (join merges p.a p.b) p.a).n)
          (Q.pushSome (pairwise v (join merges p.a p.b) (entry (join merges p.a p.b) p.a).p p.a) q')
        omega
      · rw [if_neg hcur]
        exact ih h.drop (by omega)

end Ollama.Model
