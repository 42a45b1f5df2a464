import Ollama.Lib.PairMerging
import Ollama.Model.Lemmas.Segments

/-!
# The merge loop as merging of neighbours

The loop over the queue merges neighbours of the least rank among the segments. The parts of a queued pair can only
have grown or gone since, so that a pair whose text is still that of its parts is of these parts (`Queued.current`);
and every two neighbours that have a rank are in the queue. What a queue is asked for is a pair of the least rank
(`Queue.Least`); one that also takes the leftmost of these is `Queue.Leftmost`.
-/

namespace Ollama.Model

open Lib Utf8

variable {σ : Type} {Q : Queue σ} {v : Vocabulary}

/-- The rank of two parts. -/
def Vocabulary.rank (v : Vocabulary) (left right : List Nat) : Option Nat :=
  if v.merge (ofRunes left) (ofRunes right) < 0 then none else some (v.merge (ofRunes left) (ofRunes right)).toNat

/-- Each pair that is popped has the least rank. -/
def Queue.Least (Q : Queue σ) : Prop := ∀ q p q', Q.pop q = some (p, q') → ∀ p' ∈ Q.items q, p.rank ≤ p'.rank

/-- Each pair that is popped is the leftmost one of the least rank. -/
def Queue.Leftmost (Q : Queue σ) : Prop :=
  ∀ q p q', Q.pop q = some (p, q') → ∀ p' ∈ Q.items q, p'.rank = p.rank → p.a ≤ p'.a

/-- The parts of a queued pair are what they were, or have grown or gone. -/
structure Queued (v : Vocabulary) (merges : List Merge) (p : Pair) : Prop where
  lt : p.a < p.b
  lt_length : p.b < merges.length
  gap : Gap merges p.a p.b
  parts : ∃ l r : List Nat, v.merge (ofRunes l) (ofRunes r) = p.rank ∧ 0 ≤ p.rank ∧ p.value = ofRunes l ++ ofRunes r ∧
    (Live merges p.a → l <+: (entry merges p.a).runes) ∧ (Live merges p.b → r <+: (entry merges p.b).runes)

/-- What the loop keeps, with the pairs that are in the queue. -/
structure QueueInv (v : Vocabulary) (merges : List Merge) (pairs : Multiset Pair) : Prop where
  linked : Linked merges
  queued : ∀ p ∈ pairs, Queued v merges p
  complete : ∀ i j p, Neighbours merges i j → pairwise v merges i j = some p → p ∈ pairs

/-! ## Pairs -/

theorem pairwise_spec {merges : List Merge} {i : Int} {j : Nat} {p : Pair} (h : pairwise v merges i j = some p) :
    0 ≤ i ∧ j < merges.length ∧ p.a = i.toNat ∧ p.b = j ∧
      v.merge (ofRunes (entry merges i.toNat).runes) (ofRunes (entry merges j).runes) = p.rank ∧ 0 ≤ p.rank ∧
      p.value = ofRunes (entry merges i.toNat).runes ++ ofRunes (entry merges j).runes := by
  unfold pairwise at h
  split at h
  · nomatch h
  · dsimp only at h
    split at h
    · nomatch h
    · rename_i hrank
      rw [← Option.some.inj h]
      exact ⟨by omega, by omega, rfl, rfl, rfl, Int.not_lt.1 hrank, rfl⟩

/-- The pair of two parts is queued with their rank. -/
theorem pairwise_eq_some_iff {merges : List Merge} {i j k : Nat} (hj : j < merges.length) :
    (∃ p, pairwise v merges i j = some p ∧ p.rank = k) ↔ v.rank (entry merges i).runes (entry merges j).runes =
      some k := by
  unfold pairwise Vocabulary.rank
  rw [if_neg (by omega), Int.toNat_natCast]
  dsimp only
  split
  · constructor
    · rintro ⟨p, h, _⟩
      nomatch h
    · exact nofun
  · constructor
    · rintro ⟨p, h, hrank⟩
      rw [← Option.some.inj h] at hrank
      exact congrArg some (by dsimp only at hrank; omega)
    · intro h
      exact ⟨_, rfl, by have := Option.some.inj h; dsimp only; omega⟩

theorem length_encodeRune_pos (r : Nat) : 0 < (encodeRune r).length := by
  unfold encodeRune
  split_ifs <;> exact Nat.succ_pos _

theorem length_ofRunes_pos {l : List Nat} (h : l ≠ []) : 0 < (ofRunes l).length := by
  cases l with
  | nil => exact (h rfl).elim
  | cons r l =>
    have hr := length_encodeRune_pos r
    rw [ofRunes, List.flatMap_cons, List.length_append]
    omega

/-- Runes that are in no more bytes than some they begin with are these. -/
theorem eq_of_prefix_of_length {l l' : List Nat} (h : l <+: l')
    (hlength : (ofRunes l').length ≤ (ofRunes l).length) : l = l' := by
  obtain ⟨rest, rfl⟩ := h
  rw [ofRunes, List.flatMap_append, List.length_append] at hlength
  by_cases hrest : rest = []
  · rw [hrest, List.append_nil]
  · have hpos := length_ofRunes_pos hrest
    rw [ofRunes] at hpos hlength
    omega

/-- A queued pair whose text is that of its parts is of these parts, which are neighbours. -/
theorem Queued.current {merges : List Merge} {p : Pair} (h : Queued v merges p) (hcur : p.current merges) :
    Neighbours merges p.a p.b ∧ pairwise v merges p.a p.b = some p := by
  obtain ⟨hleft, hright, htext⟩ := hcur
  rw [ne_eq, List.length_eq_zero_iff] at hleft hright
  obtain ⟨l, r, hrank, hnonneg, hvalue, hl, hr⟩ := h.parts
  have hlen := congrArg List.length (htext.trans hvalue)
  rw [List.length_append, List.length_append] at hlen
  have hle : ∀ {x y : List Nat}, x <+: y → (ofRunes x).length ≤ (ofRunes y).length := by
    rintro x _ ⟨rest, rfl⟩
    rw [ofRunes, ofRunes, List.flatMap_append, List.length_append]
    exact Nat.le_add_right _ _
  have h1 := hle (hl hleft)
  have h2 := hle (hr hright)
  have hleq := eq_of_prefix_of_length (hl hleft) (by omega)
  have hreq := eq_of_prefix_of_length (hr hright) (by omega)
  subst hleq hreq
  refine ⟨⟨hleft, hright, h.lt, h.gap⟩, ?_⟩
  have hlt := h.lt_length
  unfold pairwise
  rw [if_neg (by omega), Int.toNat_natCast]
  dsimp only
  rw [hrank, if_neg (by omega), ← hvalue]

/-- The pair of neighbours is as it is queued. -/
theorem Neighbours.current {merges : List Merge} {i j : Nat} {p : Pair} (h : Neighbours merges i j)
    (hp : pairwise v merges i j = some p) :
    p.a = i ∧ p.b = j ∧ p.current merges := by
  obtain ⟨_, _, ha, hb, _, _, hvalue⟩ := pairwise_spec hp
  rw [Int.toNat_natCast] at ha hvalue
  refine ⟨ha, hb, ?_⟩
  unfold Pair.current
  rw [ha, hb, ne_eq, ne_eq, List.length_eq_zero_iff, List.length_eq_zero_iff]
  exact ⟨h.left, h.right, hvalue.symm⟩

theorem Neighbours.queued {merges : List Merge} {i j : Nat} {p : Pair} (h : Neighbours merges i j)
    (hp : pairwise v merges i j = some p) :
    Queued v merges p := by
  obtain ⟨_, hlt, ha, hb, hrank, hnonneg, hvalue⟩ := pairwise_spec hp
  rw [Int.toNat_natCast] at ha hrank hvalue
  refine ⟨by rw [ha, hb]; exact h.lt, hb ▸ hlt, by rw [ha, hb]; exact h.gap, _, _, hrank, hnonneg, hvalue,
    fun _ => ?_, fun _ => ?_⟩
  · rw [ha]
  · rw [hb]

/-! ## What the loop keeps -/

theorem mem_items_pushSome {o : Option Pair} {q : σ} {p : Pair} :
    p ∈ Q.items (Q.pushSome o q) ↔ o = some p ∨ p ∈ Q.items q := by
  rw [items_pushSome]
  cases o with
  | none => exact ⟨Or.inr, fun h => h.resolve_left nofun⟩
  | some p' => rw [Option.elim_some, Multiset.mem_cons, Option.some.injEq, eq_comm]

theorem QueueInv.drop {merges : List Merge} {pairs : Multiset Pair} {p : Pair} (h : QueueInv v merges (p ::ₘ pairs))
    (hcur : ¬p.current merges) : QueueInv v merges pairs := by
  refine ⟨h.linked, fun p' hp' => h.queued p' (Multiset.mem_cons_of_mem hp'), fun i j p' hij hp' => ?_⟩
  rcases Multiset.mem_cons.1 (h.complete i j p' hij hp') with rfl | hmem
  · exact (hcur (hij.current hp').2.2).elim
  · exact hmem

/-- A queued pair after two neighbours are joined. -/
theorem Queued.join {merges : List Merge} {a b : Nat} {p : Pair} (h : Queued v merges p) (hlinked : Linked merges)
    (hab : Neighbours merges a b) :
    Queued v (join merges a b) p := by
  have hgrow : ∀ i (l : List Nat), (Live merges i → l <+: (entry merges i).runes) → Live (Model.join merges a b) i →
      l <+: (entry (Model.join merges a b) i).runes := by
    intro i l hl hlive
    obtain ⟨hib, hlive⟩ := (hlinked.live_join hab i).1 hlive
    rw [(hlinked.entry_join hab i).1]
    by_cases hia : i = a
    · rw [if_pos hia, ← hia]
      exact (hl hlive).trans (List.prefix_append _ _)
    · rw [if_neg hia, if_neg hib]
      exact hl hlive
  obtain ⟨l, r, hrank, hnonneg, hvalue, hl, hr⟩ := h.parts
  exact ⟨h.lt, (length_join merges a b).symm ▸ h.lt_length, hlinked.gap_join hab h.gap, l, r, hrank, hnonneg,
    hvalue, hgrow _ _ hl, hgrow _ _ hr⟩

/-- The pair of two neighbours after a join: of the joined part, or one from before. -/
theorem Neighbours.of_join {merges : List Merge} {a b i j : Nat} (hlinked : Linked merges) (hab : Neighbours merges a b)
    (h : Neighbours (join merges a b) i j) :
    ((entry (join merges a b) a).p = i ∧ j = a) ∨ (i = a ∧ (entry (join merges a b) a).n = j) ∨
      (i ≠ a ∧ Neighbours merges i j ∧ pairwise v (join merges a b) i j = pairwise v merges i j) := by
  have hlinked' := hlinked.join hab
  by_cases hia : i = a
  · exact Or.inr (Or.inl ⟨hia, hia ▸ hlinked'.next_eq h⟩)
  · by_cases hja : j = a
    · exact Or.inl ⟨hja ▸ hlinked'.prev_eq h, hja⟩
    · obtain ⟨hib, hi⟩ := (hlinked.live_join hab i).1 h.left
      obtain ⟨hjb, hj⟩ := (hlinked.live_join hab j).1 h.right
      have hlt := h.lt
      refine Or.inr (Or.inr ⟨hia, ⟨hi, hj, h.lt, fun k h1 h2 => ?_⟩, ?_⟩)
      · by_contra hk
        by_cases hkb : k = b
        · -- the joined part is between the two, or the left one is between the parts that were joined
          have ha := (hlinked.live_join hab a).2 ⟨Nat.ne_of_lt hab.lt, hab.left⟩
          by_cases hai : i < a
          · exact ha (h.gap a (by omega) (by have := hab.lt; omega))
          · exact hi (hab.gap i (by omega) (by omega))
        · exact (hlinked.live_join hab k).2 ⟨hkb, hk⟩ (h.gap k h1 h2)
      · unfold pairwise
        rw [length_join, Int.toNat_natCast, (hlinked.entry_join hab i).1, (hlinked.entry_join hab j).1, if_neg hia,
          if_neg hib, if_neg hja, if_neg hjb]

/-- The queue after a pair has been joined and the pairs of the joined part have been queued. -/
theorem QueueInv.join {merges : List Merge} {q : σ} {p : Pair} (h : QueueInv v merges (p ::ₘ Q.items q))
    (hcur : p.current merges) :
    QueueInv v (join merges p.a p.b)
      (Q.items (Q.pushSome (pairwise v (join merges p.a p.b) p.a (entry (join merges p.a p.b) p.a).n)
        (Q.pushSome (pairwise v (join merges p.a p.b) (entry (join merges p.a p.b) p.a).p p.a) q))) := by
  obtain ⟨hab, _⟩ := (h.queued p (Multiset.mem_cons_self p _)).current hcur
  have hlinked := h.linked.join hab
  have hlive := (h.linked.live_join hab p.a).2 ⟨Nat.ne_of_lt hab.lt, hab.left⟩
  refine ⟨hlinked, fun p' hp' => ?_, fun i j p' hij hp' => ?_⟩
  · rw [mem_items_pushSome, mem_items_pushSome] at hp'
    rcases hp' with hnext | hprev | hold
    · obtain ⟨hlt, hle, hgap, hnext'⟩ := hlinked.next p.a hlive
      have hin := (pairwise_spec hnext).2.1
      exact Neighbours.queued ⟨hlive, hnext' hin, hlt, hgap⟩ hnext
    · obtain ⟨_, hlt, hgap, hprev'⟩ := hlinked.prev p.a hlive
      have hsome := (pairwise_spec hprev).1
      rw [← Int.toNat_of_nonneg hsome] at hprev
      exact Neighbours.queued ⟨hprev' hsome, hlive, by omega, fun k h1 h2 => hgap k (by omega) h2⟩ hprev
    · exact (h.queued p' (Multiset.mem_cons_of_mem hold)).join h.linked hab
  · rw [mem_items_pushSome, mem_items_pushSome]
    rcases Neighbours.of_join h.linked hab hij with ⟨hprev, rfl⟩ | ⟨rfl, hnext⟩ | ⟨hia, hold, hpair⟩
    · exact Or.inr (Or.inl (hprev ▸ hp'))
    · exact Or.inl (hnext ▸ hp')
    · rw [hpair] at hp'
      rcases Multiset.mem_cons.1 (h.complete i j p' hold hp') with rfl | hmem
      · exact (hia (hold.current hp').1.symm).elim
      · exact Or.inr (Or.inr hmem)

/-- Before any pair is merged, each rune is a part. -/
theorem linked_singles (word : List Nat) : Linked (singles word) := by
  have hlive : ∀ i, i < word.length → Live (singles word) i := by
    intro i hi
    rw [Live, entry_singles hi]
    exact List.cons_ne_nil _ _
  constructor
  · intro i hi
    have hlt := live_lt hi
    rw [length_singles] at hlt ⊢
    rw [entry_singles hlt]
    exact ⟨Nat.lt_succ_self i, hlt, fun k h1 h2 => by dsimp only at h2; omega, hlive (i + 1)⟩
  · intro i hi
    have hlt := live_lt hi
    rw [length_singles] at hlt
    rw [entry_singles hlt]
    dsimp only
    exact ⟨by omega, by omega, fun k h1 h2 => by omega, fun _ => hlive _ (by omega)⟩

theorem segments_singles (word : List Nat) : segments (singles word) = word.map (fun r => [r]) := by
  rw [segments, runes_singles, List.filter_eq_self]
  intro x hx
  obtain ⟨r, _, rfl⟩ := List.mem_map.1 hx
  rfl

/-- The first pairs are those of all neighbours. -/
theorem queueInv_firstPairs (word : List Nat) : QueueInv v (singles word) (Q.items (firstPairs Q v (singles word))) ∧
    (Q.items (firstPairs Q v (singles word))).card ≤ word.length := by
  have hall : ∀ (l : List Nat) (q : σ),
    (Q.items (l.foldl (fun q (i : Nat) => Q.pushSome (pairwise v (singles word) i (i + 1)) q) q)).card ≤
      (Q.items q).card + l.length ∧
      ∀ p, p ∈ Q.items (l.foldl (fun q (i : Nat) => Q.pushSome (pairwise v (singles word) i (i + 1)) q) q) ↔
        p ∈ Q.items q ∨ ∃ i ∈ l, pairwise v (singles word) i ((i : Nat) + 1) = some p := by
    intro l
    induction l with
    | nil => exact fun q => ⟨Nat.le_refl _, fun p => by simp⟩
    | cons i l ih =>
      intro q
      rw [List.foldl_cons, List.length_cons]
      obtain ⟨hcard, hmem⟩ := ih (Q.pushSome (pairwise v (singles word) i (i + 1)) q)
      have hone := card_pushSome (Q := Q) (pairwise v (singles word) i (i + 1)) q
      refine ⟨by omega, fun p => ?_⟩
      rw [hmem, mem_items_pushSome, List.exists_mem_cons_iff, or_assoc, or_left_comm]
  obtain ⟨hcard, hmem⟩ := hall (List.range ((singles word).length - 1)) Q.empty
  rw [Q.items_empty, Multiset.card_zero, List.length_range, length_singles] at hcard
  have hlinked := linked_singles word
  refine ⟨⟨hlinked, fun p hp => ?_, fun i j p hij hp => ?_⟩, by unfold firstPairs; rw [length_singles]; omega⟩
  · rcases (hmem p).1 hp with hnone | ⟨i, hi, hp⟩
    · rw [Q.items_empty] at hnone
      exact (Multiset.notMem_zero p hnone).elim
    · have hlt : i + 1 < word.length := by
        rw [List.mem_range, length_singles] at hi
        omega
      refine Neighbours.queued ⟨?_, ?_, Nat.lt_succ_self i, fun k h1 h2 => by omega⟩ hp
      · rw [Live, entry_singles (by omega)]
        exact List.cons_ne_nil _ _
      · rw [Live, entry_singles hlt]
        exact List.cons_ne_nil _ _
  · have hi := live_lt hij.left
    have hj := live_lt hij.right
    have hnext := hlinked.next_eq hij
    rw [length_singles] at hi hj
    rw [entry_singles hi] at hnext
    refine (hmem p).2 (Or.inr ⟨i, List.mem_range.2 (by rw [length_singles]; dsimp only at hnext; omega), ?_⟩)
    rw [← hnext] at hp
    exact hp

/-! ## The segments -/

/-- No neighbours among the segments have a rank below those of the queue. -/
theorem QueueInv.rank_le {merges : List Merge} {pairs : Multiset Pair} {n : Int} (h : QueueInv v merges pairs)
    (hleast : ∀ p ∈ pairs, n ≤ p.rank) : ∀ k ∈ ranks v.rank (segments merges), n ≤ k := by
  intro k hk
  obtain ⟨l, x, y, r, hparts, hrank⟩ := mem_ranks_iff.1 hk
  obtain ⟨i, j, hij, rfl, rfl, _⟩ := exists_neighbours hparts
  obtain ⟨p, hp, hpk⟩ := (pairwise_eq_some_iff (live_lt hij.right)).2 hrank
  rw [← hpk]
  exact hleast p (h.complete i j p hij hp)

/-- When the queue is empty, no neighbours have a rank. -/
theorem QueueInv.ranks_eq_nil {merges : List Merge} (h : QueueInv v merges 0) :
    ranks v.rank (segments merges) = [] := by
  rw [ranks_eq_nil_iff]
  intro l x y r hparts
  obtain ⟨i, j, hij, rfl, rfl, _⟩ := exists_neighbours hparts
  rcases hrank : v.rank (entry merges i).runes (entry merges j).runes with _ | k
  · rfl
  · obtain ⟨p, hp, _⟩ := (pairwise_eq_some_iff (live_lt hij.right)).2 hrank
    exact (Multiset.notMem_zero p (h.complete i j p hij hp)).elim

/-- The rank of neighbours whose pair is queued is among the ranks of the segments. -/
theorem Neighbours.rank_mem {merges : List Merge} {i j : Nat} {p : Pair} (h : Neighbours merges i j)
    (hp : pairwise v merges i j = some p) :
    p.rank.toNat ∈ ranks v.rank (segments merges) ∧ (p.rank.toNat : Int) = p.rank ∧
      v.rank (entry merges i).runes (entry merges j).runes = some p.rank.toNat := by
  have hnonneg := (pairwise_spec hp).2.2.2.2.2.1
  have hcast : (p.rank.toNat : Int) = p.rank := Int.toNat_of_nonneg hnonneg
  have hrank := (pairwise_eq_some_iff (live_lt h.right)).1 ⟨p, hp, hcast.symm⟩
  exact ⟨mem_ranks_iff.2 ⟨_, _, _, _, h.segments_eq, hrank⟩, hcast, hrank⟩

/-- Joining a pair of the least rank merges neighbours of the least rank. -/
theorem QueueInv.mergeStep {merges : List Merge} {pairs : Multiset Pair} {p : Pair} (h : QueueInv v merges pairs)
    (hp : p ∈ pairs) (hcur : p.current merges) (hleast : ∀ p' ∈ pairs, p.rank ≤ p'.rank) :
    MergeStep v.rank (segments merges) (segments (Model.join merges p.a p.b)) := by
  obtain ⟨hab, hpair⟩ := (h.queued p hp).current hcur
  obtain ⟨_, hcast, hrank⟩ := hab.rank_mem hpair
  refine ⟨_, _, _, _, p.rank.toNat, hab.segments_eq, hrank, fun k hk => ?_, h.linked.segments_join hab⟩
  have := h.rank_le hleast k hk
  omega

/-- Joining the leftmost pair of the least rank merges the leftmost neighbours. -/
theorem QueueInv.leftmostStep {merges : List Merge} {pairs : Multiset Pair} {p : Pair} (h : QueueInv v merges pairs)
    (hp : p ∈ pairs) (hcur : p.current merges) (hleast : ∀ p' ∈ pairs, p.rank ≤ p'.rank)
    (hleft : ∀ p' ∈ pairs, p'.rank = p.rank → p.a ≤ p'.a) :
    LeftmostStep v.rank (segments merges) (segments (Model.join merges p.a p.b)) := by
  obtain ⟨hab, hpair⟩ := (h.queued p hp).current hcur
  obtain ⟨_, hcast, hrank⟩ := hab.rank_mem hpair
  refine ⟨_, _, _, _, p.rank.toNat, hab.segments_eq, hrank, fun k hk => ?_, fun l x y r hparts hxy => ?_,
    h.linked.segments_join hab⟩
  · have := h.rank_le hleast k hk
    omega
  · obtain ⟨i, j, hij, rfl, rfl, rfl⟩ := exists_neighbours hparts
    obtain ⟨p', hp', hrank'⟩ := (pairwise_eq_some_iff (live_lt hij.right)).2 hxy
    have hle := hleft p' (h.complete i j p' hij hp') (by omega)
    rw [(hij.current hp').1] at hle
    exact segmentsBefore_length_le hle

/-! ## The whole loop -/

/-- What every step of the loop keeps holds in the end, when the queue is empty. -/
theorem mergeLoop_inv (P : List Merge → σ → Prop)
    (hdrop : ∀ merges q p q', QueueInv v merges (Q.items q) → P merges q → Q.pop q = some (p, q') →
      ¬p.current merges → P merges q')
      (hjoin : ∀ merges q p q', QueueInv v merges (Q.items q) → P merges q → Q.pop q = some (p, q') → p.current merges →
      P (join merges p.a p.b) (Q.pushSome (pairwise v (join merges p.a p.b) p.a (entry (join merges p.a p.b) p.a).n)
        (Q.pushSome (pairwise v (join merges p.a p.b) (entry (join merges p.a p.b) p.a).p p.a) q')))
    {fuel : Nat} {merges : List Merge} {q : σ} (h : QueueInv v merges (Q.items q)) (hP : P merges q)
    (hfuel : (Q.items q).card + 2 * parts merges ≤ fuel) :
    ∃ merges' q', mergeLoop Q v fuel merges q = some merges' ∧ QueueInv v merges' 0 ∧ P merges' q' ∧
      Q.items q' = 0 := by
  induction fuel generalizing merges q with
  | zero =>
    have hnone : Q.items q = 0 := Multiset.card_eq_zero.1 (by omega)
    refine ⟨merges, q, ?_, hnone ▸ h, hP, hnone⟩
    rw [mergeLoop, (Q.pop_none q).2 hnone]
    rfl
  | succ fuel ih =>
    cases hpop : Q.pop q with
    | none =>
      have hnone := (Q.pop_none q).1 hpop
      refine ⟨merges, q, ?_, hnone ▸ h, hP, hnone⟩
      rw [mergeLoop, hpop]
    | some pq =>
      obtain ⟨p, q'⟩ := pq
      have hitems := Q.pop_some q p q' hpop
      rw [hitems, Multiset.card_cons] at hfuel
      have h' := h
      rw [hitems] at h'
      simp only [mergeLoop, hpop]
      by_cases hcur : p.current merges
      · rw [if_pos hcur]
        obtain ⟨hab, _⟩ := (h'.queued p (Multiset.mem_cons_self p _)).current hcur
        have hparts := parts_join hab.lt (live_lt hab.right) (h.linked.next p.b hab.right).1 hab.left hab.right
        refine ih (h'.join hcur) (hjoin merges q p q' h hP hpop hcur) ?_
        have h1 := card_pushSome (Q := Q) (pairwise v (join merges p.a p.b) (entry (join merges p.a p.b) p.a).p p.a) q'
        have h2 := card_pushSome (Q := Q) (pairwise v (join merges p.a p.b) p.a (entry (join merges p.a p.b) p.a).n)
          (Q.pushSome (pairwise v (join merges p.a p.b) (entry (join merges p.a p.b) p.a).p p.a) q')
        omega
      · rw [if_neg hcur]
        exact ih (h'.drop hcur) (hdrop merges q p q' h hP hpop hcur) (by omega)

/-- The loop over the queue of a word returns. -/
theorem mergeLoop_word (word : List Nat) (P : List Merge → σ → Prop)
    (hdrop : ∀ merges q p q', QueueInv v merges (Q.items q) → P merges q → Q.pop q = some (p, q') →
      ¬p.current merges → P merges q')
      (hjoin : ∀ merges q p q', QueueInv v merges (Q.items q) → P merges q → Q.pop q = some (p, q') → p.current merges →
      P (join merges p.a p.b) (Q.pushSome (pairwise v (join merges p.a p.b) p.a (entry (join merges p.a p.b) p.a).n)
        (Q.pushSome (pairwise v (join merges p.a p.b) (entry (join merges p.a p.b) p.a).p p.a) q')))
    (hP : P (singles word) (firstPairs Q v (singles word))) :
    ∃ merges q, mergeLoop Q v (3 * word.length) (singles word) (firstPairs Q v (singles word)) = some merges ∧
      QueueInv v merges 0 ∧ P merges q ∧ Q.items q = 0 := by
  obtain ⟨hinv, hcard⟩ := queueInv_firstPairs (Q := Q) (v := v) word
  have hfuel : (Q.items (firstPairs Q v (singles word))).card + 2 * parts (singles word) ≤ 3 * word.length := by
    rw [parts_singles]
    omega
  exact mergeLoop_inv P hdrop hjoin hinv hP hfuel

/-- What is left of a word is what a run of steps leaves, if each join is such a step. -/
theorem mergeLoop_steps (S : List (List Nat) → List (List Nat) → Prop)
    (hS : ∀ merges q p q', QueueInv v merges (Q.items q) → Q.pop q = some (p, q') → p.current merges →
      S (segments merges) (segments (join merges p.a p.b)))
    (word : List Nat) :
    ∃ merges, mergeLoop Q v (3 * word.length) (singles word) (firstPairs Q v (singles word)) = some merges ∧
      Relation.ReflTransGen S (word.map (fun r => [r])) (segments merges) ∧ ranks v.rank (segments merges) = [] := by
  obtain ⟨merges, _, hloop, hlast, hrun, _⟩ := mergeLoop_word (Q := Q) (v := v) word
    (fun merges _ => Relation.ReflTransGen S (word.map (fun r => [r])) (segments merges))
    (fun _ _ _ _ _ hrun _ _ => hrun)
    (fun merges q p q' hinv hrun hpop hcur => hrun.tail (hS merges q p q' hinv hpop hcur))
    (segments_singles word ▸ Relation.ReflTransGen.refl)
  exact ⟨merges, hloop, hrun, hlast.ranks_eq_nil⟩

theorem mem_items_of_pop {q q' : σ} {p : Pair} (h : Q.pop q = some (p, q')) : p ∈ Q.items q :=
  Q.pop_some q p q' h ▸ Multiset.mem_cons_self p _

/-- With a queue that pops pairs of the least rank, neighbours of the least rank are merged until there are none. -/
theorem mergeLoop_run (hQ : Q.Least) (v : Vocabulary) (word : List Nat) : ∃ merges,
    mergeLoop Q v (3 * word.length) (singles word) (firstPairs Q v (singles word)) = some merges ∧
      Relation.ReflTransGen (MergeStep v.rank) (word.map (fun r => [r])) (segments merges) ∧
        ranks v.rank (segments merges) = [] :=
  mergeLoop_steps (MergeStep v.rank)
    (fun _ q p q' hinv hpop hcur => hinv.mergeStep (mem_items_of_pop hpop) hcur (hQ q p q' hpop)) word

/-- With a queue that pops the leftmost of these, what is left is what merging from the left leaves. -/
theorem mergeLoop_leftmost (hQ : Q.Least) (hleft : Q.Leftmost) (v : Vocabulary) (word : List Nat) : ∃ merges,
    mergeLoop Q v (3 * word.length) (singles word) (firstPairs Q v (singles word)) = some merges ∧
      segments merges = mergeAll v.rank (word.map (fun r => [r])) := by
  obtain ⟨merges, hloop, hrun, hlast⟩ := mergeLoop_steps (LeftmostStep v.rank)
    (fun _ q p q' hinv hpop hcur => hinv.leftmostStep (mem_items_of_pop hpop) hcur (hQ q p q' hpop)
      (hleft q p q' hpop)) word
  exact ⟨merges, hloop, eq_mergeAll_of_leftmost hrun hlast⟩

end Ollama.Model
