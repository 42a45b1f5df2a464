import Mathlib.Data.List.Chain
import Ollama.Model.Lemmas.Queue

/-!
# What is left when no pair is queued

For every queue, whatever pair it pops first, the loop over the queue of a word returns. The parts that are left are
the word in order, the links of these parts and of no others make up one list, and no two parts next to each other
have a rank (`mergeLoop_maximal`).
-/

namespace Ollama.Model

open Lib Utf8

variable {σ : Type}

/-- The indices of the parts that are left. -/
def live (merges : List Merge) : List Nat := (List.range merges.length).filter (fun i => (entry merges i).runes ≠ [])

/-- The links of the parts at some indices lead from each to the next one, and from the first to what is given and
from the last to the end. -/
def Links (merges : List Merge) : Int → List Nat → Prop
  | _, [] => True
  | p, i :: rest => (entry merges i).p = p ∧ (entry merges i).n = rest.headD merges.length ∧ Links merges i rest

namespace MaximalAux

variable {v : Vocabulary} {merges : List Merge} {i j : Nat} {pre rest : List Nat}

/-! ## The indices of the parts -/

theorem mem_live : i ∈ live merges ↔ Live merges i := by
  unfold live
  rw [List.mem_filter, List.mem_range, decide_eq_true_iff]
  exact ⟨fun h => h.2, fun h => ⟨live_lt h, h⟩⟩

theorem sorted_live (merges : List Merge) : (live merges).Pairwise (· < ·) := List.pairwise_lt_range.filter _

/-- The parts that are left are those at these indices. -/
theorem map_live (merges : List Merge) : (live merges).map (fun i => (entry merges i).runes) = segments merges := by
  have hall : (List.range merges.length).map (entry merges) = merges := by
    refine List.ext_getElem (by rw [List.length_map, List.length_range]) fun i h1 h2 => ?_
    rw [List.getElem_map, List.getElem_range, entry, List.getElem?_eq_getElem h2, Option.getD_some]
  rw [segments, live]
  conv_rhs => rw [← hall, List.map_map, List.filter_map]
  rfl

/-- Indices that follow each other are those of neighbours. -/
theorem neighbours_of_live (h : live merges = pre ++ i :: j :: rest) : Neighbours merges i j := by
  have hsorted := sorted_live merges
  rw [h, List.pairwise_append, List.pairwise_cons, List.pairwise_cons] at hsorted
  obtain ⟨_, ⟨hi, hj, _⟩, hpre⟩ := hsorted
  have hmem : ∀ k, Live merges k ↔ k ∈ pre ∨ k = i ∨ k = j ∨ k ∈ rest := by
    intro k
    rw [← mem_live, h, List.mem_append, List.mem_cons, List.mem_cons]
  refine ⟨(hmem i).2 (by simp), (hmem j).2 (by simp), hi j (by simp), ?_⟩
  intro k h1 h2
  by_contra hk
  rcases (hmem k).1 hk with hk | rfl | rfl | hk
  · have := hpre k hk i (by simp)
    omega
  · omega
  · omega
  · have := hj k hk
    omega

/-- The first of the parts has no link to one before it. -/
theorem prev_first (hlinked : Linked merges) (h : live merges = i :: rest) : (entry merges i).p = -1 := by
  have hsorted := sorted_live merges
  rw [h, List.pairwise_cons] at hsorted
  obtain ⟨hge, hlt, _, hlive⟩ := hlinked.prev i (mem_live.1 (by simp [h]))
  by_contra hne
  have hbefore := mem_live.2 (hlive (by omega))
  rw [h, List.mem_cons] at hbefore
  rcases hbefore with heq | hmem
  · omega
  · have := hsorted.1 _ hmem
    omega

/-- The last of the parts has no link to one after it. -/
theorem next_last (hlinked : Linked merges) (h : live merges = pre ++ [i]) : (entry merges i).n = merges.length := by
  have hsorted := sorted_live merges
  rw [h, List.pairwise_append] at hsorted
  obtain ⟨hlt, hle, _, hlive⟩ := hlinked.next i (mem_live.1 (by simp [h]))
  by_contra hne
  have hafter := mem_live.2 (hlive (by omega))
  rw [h, List.mem_append, List.mem_singleton] at hafter
  rcases hafter with hmem | heq
  · have := hsorted.2.2 _ hmem i (by simp)
    omega
  · omega

/-! ## What is left -/

/-- The links from some part on, when those before it are known. -/
theorem links_from (hlinked : Linked merges) {p : Int} (h : live merges = pre ++ rest)
    (hp : ∀ i l, rest = i :: l → (entry merges i).p = p) : Links merges p rest := by
  induction rest generalizing pre p with
  | nil => trivial
  | cons i rest ih =>
    refine ⟨hp i rest rfl, ?_, ih (by rw [h, List.append_cons]) fun j l hrest => ?_⟩
    · cases rest with
      | nil => exact next_last hlinked h
      | cons j rest => exact hlinked.next_eq (neighbours_of_live h)
    · rw [hrest] at h
      exact hlinked.prev_eq (neighbours_of_live h)

theorem links_live (hlinked : Linked merges) : Links merges (-1) (live merges) :=
  links_from hlinked (List.nil_append _).symm fun _ _ h => prev_first hlinked h

/-- When the queue is empty, no two parts next to each other have a rank. -/
theorem merge_neg_of_live (hinv : QueueInv v merges 0) (h : live merges = pre ++ i :: j :: rest) :
    v.merge (ofRunes (entry merges i).runes) (ofRunes (entry merges j).runes) < 0 := by
  have hij := neighbours_of_live h
  by_contra hrank
  have hsome : v.rank (entry merges i).runes (entry merges j).runes =
      some (v.merge (ofRunes (entry merges i).runes) (ofRunes (entry merges j).runes)).toNat := by
    rw [Vocabulary.rank, if_neg hrank]
  obtain ⟨p, hp, _⟩ := (pairwise_eq_some_iff (live_lt hij.right)).2 hsome
  exact Multiset.notMem_zero p (hinv.complete i j p hij hp)

/-- Joining two neighbours keeps the word. -/
theorem flatten_join {a b : Nat} (hlinked : Linked merges) (h : Neighbours merges a b) :
    (segments (join merges a b)).flatten = (segments merges).flatten := by
  rw [hlinked.segments_join h, h.segments_eq]
  simp only [List.flatten_append, List.flatten_cons, List.append_assoc]

end MaximalAux

open MaximalAux

/-- Every queue leaves a word in parts that no rank is left for. -/
theorem mergeLoop_maximal (Q : Queue σ) (v : Vocabulary) (word : List Nat) :
    ∃ merges, mergeLoop Q v (3 * word.length) (singles word) (firstPairs Q v (singles word)) = some merges ∧
      (live merges).flatMap (fun i => (entry merges i).runes) = word ∧ Links merges (-1) (live merges) ∧
      (live merges).IsChain (fun i j => v.merge (ofRunes (entry merges i).runes)
        (ofRunes (entry merges j).runes) < 0) := by
  obtain ⟨merges, _, hloop, hinv, hword, _⟩ :=
    mergeLoop_word (Q := Q) (v := v) word (fun merges _ => (segments merges).flatten = word)
    (fun _ _ _ _ _ hword _ _ => hword)
    (fun merges q p q' hinv hword hpop hcur => by
      obtain ⟨hab, _⟩ := (hinv.queued p (mem_items_of_pop hpop)).current hcur
      rw [flatten_join hinv.linked hab, hword])
    (by rw [segments_singles, ← List.flatMap_def, List.flatMap_singleton'])
  refine ⟨merges, hloop, ?_, links_live hinv.linked, ?_⟩
  · rw [List.flatMap_def, map_live, hword]
  · rw [List.isChain_iff_forall_rel_of_append_cons_cons]
    intro i j pre rest h
    exact merge_neg_of_live hinv h

end Ollama.Model
