import Ollama.Convert.Tokenizer
import Mathlib.Data.List.Sort
import Mathlib.Data.List.Range

/-!
# Indices and ids

The tokens of a `tokenizer.json` are flattened in the order of their ids, so a token is at the index that is its id
exactly when there is no gap below it. All of them are when the ids that occur are 0 to n-1 for some n, and otherwise
not (`vocabulary_indexed_iff`).
-/

namespace Ollama.Convert

open Lib

/-- The id occurs in the vocabulary or the added tokens. -/
def Tokenizer.Occurs (t : Tokenizer) (i : Int) : Prop := (∃ e ∈ t.vocab, e.2 = i) ∨ ∃ a ∈ t.addedTokens, a.id = i

/-- The token with an id: the last added token that has it, and without one an entry of the vocabulary. -/
def Tokenizer.IsToken (t : Tokenizer) (i : Int) (token : Token) : Prop :=
  match (t.addedTokens.filter (fun a => a.id = i)).getLast? with
  | some a => token = { a with userDefined := true }
  | none => ∃ e ∈ t.vocab, e.2 = i ∧ token = { id := i, content := e.1 }

/-- For every id that occurs, the content, score and type at this index are those of the token with the id. -/
def Tokenizer.Indexed {ρ : Type} (float32 : Int → ρ) (t : Tokenizer) (v : Vocabulary ρ) : Prop :=
  ∀ i : Int, t.Occurs i → 0 ≤ i ∧ ∃ token, t.IsToken i token ∧ v.tokens[i.toNat]? = some token.content ∧
    v.scores[i.toNat]? = some (float32 i) ∧ v.types[i.toNat]? = some token.type

namespace TokenizerAux

variable {ρ : Type} {t : Tokenizer}

/-! ## The map from ids to tokens -/

/-- The entries that are set, in their order. -/
def entries (t : Tokenizer) : List (Int × Token) :=
  t.vocab.map (fun e => (e.2, { id := e.2, content := e.1 }))

def addedEntries (t : Tokenizer) : List (Int × Token) :=
  t.addedTokens.map (fun a => (a.id, { a with userDefined := true }))

theorem tokens_eq (t : Tokenizer) :
    t.tokens = (addedEntries t).foldl (fun m e => Assoc.set m e.1 e.2)
      ((entries t).foldl (fun m e => Assoc.set m e.1 e.2) []) := by
  rw [addedEntries, entries, List.foldl_map, List.foldl_map]
  rfl

theorem nodup_tokens (t : Tokenizer) : (t.tokens.map Prod.fst).Nodup := by
  rw [tokens_eq]
  exact Assoc.nodup_foldl_set _ (Assoc.nodup_foldl_set _ List.nodup_nil)

theorem mem_tokens {i : Int} : i ∈ t.tokens.map Prod.fst ↔ t.Occurs i := by
  rw [tokens_eq, Assoc.mem_keys_foldl_set, Assoc.mem_keys_foldl_set, Tokenizer.Occurs]
  simp only [addedEntries, entries, List.map_map, List.mem_map, Function.comp_apply, List.map_nil,
    List.not_mem_nil, or_false]
  exact Or.comm

theorem filter_addedEntries (i : Int) : (addedEntries t).filter (fun e => e.1 = i) =
    (t.addedTokens.filter (fun a => a.id = i)).map (fun a => (a.id, { a with userDefined := true })) := by
  rw [addedEntries, List.filter_map]
  rfl

/-- The map has the token of every id that occurs. -/
theorem lookup_tokens {i : Int} (h : t.Occurs i) :
    ∃ token, t.tokens.lookup i = some token ∧ t.IsToken i token ∧ token.id = i := by
  rw [tokens_eq, Assoc.lookup_foldl_set_last, Assoc.lookup_foldl_set_last, filter_addedEntries, List.getLast?_map]
  unfold Tokenizer.IsToken
  rcases hlast : (t.addedTokens.filter (fun a => a.id = i)).getLast? with _ | a <;> rw [hlast]
  · have hnone : ∀ a ∈ t.addedTokens, a.id ≠ i := by
      intro a ha hid
      have hmem : a ∈ t.addedTokens.filter (fun a => a.id = i) := List.mem_filter.2 ⟨ha, by simpa using hid⟩
      rw [List.getLast?_eq_none_iff.1 hlast] at hmem
      exact List.not_mem_nil hmem
    obtain ⟨e, he, hid⟩ | ⟨a, ha, hid⟩ := h
    · rcases hentry : ((entries t).filter (fun e => e.1 = i)).getLast? with _ | entry
      · have hmem : (e.2, ({ id := e.2, content := e.1 } : Token)) ∈ (entries t).filter (fun e => e.1 = i) :=
          List.mem_filter.2 ⟨List.mem_map_of_mem he, by simpa using hid⟩
        rw [List.getLast?_eq_none_iff.1 hentry] at hmem
        exact (List.not_mem_nil hmem).elim
      · obtain ⟨hmem, hkey⟩ := List.mem_filter.1 (List.mem_of_getLast? hentry)
        obtain ⟨e', he', rfl⟩ := List.mem_map.1 hmem
        have hkey : e'.2 = i := by simpa using hkey
        rw [hentry]
        exact ⟨{ id := e'.2, content := e'.1 }, rfl, ⟨e', he', hkey, by rw [hkey]⟩, hkey⟩
    · exact (hnone a ha hid).elim
  · have hid : a.id = i := by simpa using (List.mem_filter.1 (List.mem_of_getLast? hlast)).2
    exact ⟨{ a with userDefined := true }, rfl, rfl, hid⟩

/-! ## The keys -/

theorem mem_keys {i : Int} : i ∈ t.keys ↔ t.Occurs i := by rw [Tokenizer.keys, List.mem_mergeSort, mem_tokens]

/-- The keys increase. -/
theorem keys_sorted (t : Tokenizer) : t.keys.Pairwise (· < ·) := by
  have hle : t.keys.Pairwise (fun i j => decide (i ≤ j) = true) :=
    List.pairwise_mergeSort (fun a b c hab hbc => by simp only [decide_eq_true_eq] at *; omega)
      (fun a b => by simp only [Bool.or_eq_true, decide_eq_true_eq]; omega) _
  have hne : t.keys.Pairwise (· ≠ ·) := (List.mergeSort_perm _ _).nodup_iff.2 (nodup_tokens t)
  refine (hle.and hne).imp ?_
  rintro i j ⟨hij, hne⟩
  rw [decide_eq_true_eq] at hij
  omega

/-- Keys without a gap are their indices. -/
theorem keys_eq_range {n : Nat} (h : ∀ i : Int, t.Occurs i ↔ 0 ≤ i ∧ i < n) :
    t.keys = (List.range n).map Int.ofNat := by
  have hrange : ((List.range n).map Int.ofNat).Pairwise (· < ·) :=
    List.pairwise_map.2 (List.pairwise_lt_range.imp (fun hij => Int.ofNat_lt.2 hij))
  refine (keys_sorted t).eq_of_mem_iff hrange (fun i => ?_)
  rw [mem_keys, h i, List.mem_map]
  constructor
  · rintro ⟨h0, hn⟩
    exact ⟨i.toNat, List.mem_range.2 (by omega), Int.toNat_of_nonneg h0⟩
  · rintro ⟨k, hk, rfl⟩
    have := List.mem_range.1 hk
    exact ⟨Int.natCast_nonneg k, Int.ofNat_lt.2 this⟩

/-- Ids that are all below their number have no gap. -/
theorem occurs_of_lt (h : ∀ i : Int, t.Occurs i → 0 ≤ i ∧ i < t.keys.length) (i : Int) :
    t.Occurs i ↔ 0 ≤ i ∧ i < t.keys.length := by
  refine ⟨h i, ?_⟩
  rintro ⟨h0, hlt⟩
  have hnodup : t.keys.Nodup := (keys_sorted t).imp (fun hij => ne_of_lt hij)
  have hsub : t.keys ⊆ (List.range t.keys.length).map Int.ofNat := by
    intro j hj
    obtain ⟨hj0, hj⟩ := h j (mem_keys.1 hj)
    exact List.mem_map.2 ⟨j.toNat, List.mem_range.2 (by omega), Int.toNat_of_nonneg hj0⟩
  have hperm : t.keys.Perm ((List.range t.keys.length).map Int.ofNat) :=
    (List.subperm_of_subset hnodup hsub).perm_of_length_le (by rw [List.length_map, List.length_range])
  rw [← mem_keys, hperm.mem_iff, List.mem_map]
  exact ⟨i.toNat, List.mem_range.2 (by omega), Int.toNat_of_nonneg h0⟩

/-! ## The vocabulary -/

/-- The token of a key. -/
def tokenAt (t : Tokenizer) (k : Int) : Token := (t.tokens.lookup k).getD { id := 0, content := [] }

/-- The lists have an entry for each key. -/
theorem parse_eq (float32 : Int → ρ) (t : Tokenizer) : parseVocabularyFromTokenizer float32 t =
    ⟨ascii "gpt2", t.keys.map (fun k => (tokenAt t k).content), t.keys.map (fun k => float32 (tokenAt t k).id),
      t.keys.map (fun k => (tokenAt t k).type)⟩ := by
  have h : ∀ (keys : List Int) (v : Vocabulary ρ), keys.foldl (fun v k =>
      let token := (t.tokens.lookup k).getD { id := 0, content := [] }
      { v with
        tokens := v.tokens ++ [token.content]
        scores := v.scores ++ [float32 token.id]
        types := v.types ++ [token.type] }) v =
      ⟨v.model, v.tokens ++ keys.map (fun k => (tokenAt t k).content),
        v.scores ++ keys.map (fun k => float32 (tokenAt t k).id),
        v.types ++ keys.map (fun k => (tokenAt t k).type)⟩ := by
    intro keys
    induction keys with
    | nil => intro v; simp
    | cons k keys ih =>
      intro v
      rw [List.foldl_cons, ih]
      simp [tokenAt]
  rw [parseVocabularyFromTokenizer, h]
  simp

end TokenizerAux

open TokenizerAux

/-- Every token is at the index that is its id exactly when the ids that occur are 0 to n-1 for some n. -/
theorem vocabulary_indexed_iff {ρ : Type} (float32 : Int → ρ) (t : Tokenizer) :
    t.Indexed float32 (parseVocabularyFromTokenizer float32 t) ↔ ∃ n : Nat, ∀ i : Int, t.Occurs i ↔ 0 ≤ i ∧ i < n := by
  rw [parse_eq]
  constructor
  · intro h
    refine ⟨t.keys.length, occurs_of_lt (fun i hi => ?_)⟩
    obtain ⟨h0, token, _, hcontent, _⟩ := h i hi
    have hlt := (List.getElem?_eq_some_iff.1 hcontent).1
    rw [List.length_map] at hlt
    exact ⟨h0, by omega⟩
  · rintro ⟨n, hn⟩ i hi
    obtain ⟨h0, hlt⟩ := (hn i).1 hi
    obtain ⟨token, hlookup, htoken, hid⟩ := lookup_tokens hi
    have hkey : t.keys[i.toNat]? = some i := by
      rw [keys_eq_range hn, List.getElem?_map, List.getElem?_range (by omega), Option.map_some, Int.ofNat_eq_natCast,
        Int.toNat_of_nonneg h0]
    have hat : tokenAt t i = token := by rw [tokenAt, hlookup, Option.getD_some]
    refine ⟨h0, token, htoken, ?_, ?_, ?_⟩
    · rw [List.getElem?_map, hkey, Option.map_some, hat]
    · rw [List.getElem?_map, hkey, Option.map_some, hat, hid]
    · rw [List.getElem?_map, hkey, Option.map_some, hat]

/-- The ids 0 and 2. -/
def gapped : Tokenizer := ⟨[(ascii "a", 0)], [{ id := 2, content := ascii "b" }], by decide⟩

/-- The token with id 2 is at index 1, and there is none at index 2. -/
theorem vocabulary_gap : ¬∀ t : Tokenizer, t.Indexed id (parseVocabularyFromTokenizer id t) := by
  intro h
  obtain ⟨_, token, _, hcontent, _⟩ := h gapped 2 (Or.inr ⟨_, List.mem_singleton_self _, rfl⟩)
  have hlength : gapped.keys.length = 2 := by
    rw [Tokenizer.keys, List.length_mergeSort]
    decide +kernel
  have := (List.getElem?_eq_some_iff.1 hcontent).1
  rw [parse_eq, List.length_map, hlength] at this
  exact absurd this (by decide)

end Ollama.Convert
