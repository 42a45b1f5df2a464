import Ollama.Model.Lemmas.Merges

/-!
# The ids of a text

The ids of a part of the text spell its runes (`encodeSplit_spec`), whatever the merges are, and a text in which no
special token occurs is one fragment (`splitSpecials_single`). `Spells` is what is carried from the parts to the text.
-/

namespace Ollama.Model

open Lib Utf8

variable {σ : Type} {Q : Queue σ} {v : Vocabulary}

/-! ## The vocabulary -/

/-- An id that was found is decoded to its text. -/
theorem decode_encode_of_nonneg {s : Bytes} (h : 0 ≤ v.encode s) : v.decode (v.encode s) = some s := by
  unfold Vocabulary.encode at h ⊢
  split at h
  · rename_i id hid
    unfold Vocabulary.decode
    rw [if_neg (by simp), Int.toNat_natCast]
    exact (lastIndex_eq_some hid).2
  · exact absurd h (by decide)

/-- A text of the vocabulary has an id. -/
theorem encode_nonneg {s : Bytes} (h : s ∈ v.values) : 0 ≤ v.encode s := by
  unfold Vocabulary.encode
  obtain ⟨id, hid⟩ := Option.isSome_iff_exists.1 (lastIndex_isSome h 0)
  rw [hid]
  exact Int.natCast_nonneg id

/-! ## Ids that spell runes -/

/-- The texts of the ids, one after another, have the runes `rs`. -/
def Spells (v : Vocabulary) (ids : List Int) (rs : List Nat) : Prop :=
  ∃ tokens, ids.mapM v.decode = some tokens ∧ tokens.flatMap runes = rs

/-- No ids spell no text. -/
theorem Spells.nil (v : Vocabulary) : Spells v [] [] := ⟨[], rfl, rfl⟩

/-- The id of a text that is in the vocabulary spells its runes. -/
theorem Spells.single {s : Bytes} (h : 0 ≤ v.encode s) : Spells v [v.encode s] (runes s) :=
  ⟨[s], by simp [decode_encode_of_nonneg h], by simp⟩

/-- Ids spell two texts one behind the other. -/
theorem Spells.append {ids ids' : List Int} {rs rs' : List Nat} (h : Spells v ids rs) (h' : Spells v ids' rs') :
    Spells v (ids ++ ids') (rs ++ rs') := by
  obtain ⟨tokens, hids, hrs⟩ := h
  obtain ⟨tokens', hids', hrs'⟩ := h'
  refine ⟨tokens ++ tokens', ?_, ?_⟩
  · simp [List.mapM_append, hids, hids']
  · rw [List.flatMap_append, hrs, hrs']

/-- What is decoded from ids that spell runes. -/
theorem Spells.decode {bpe : BytePairEncoding} {ids : List Int} {rs : List Nat} (h : Spells bpe.vocab ids rs) :
    bpe.decode ids = some (rs.flatMap runeBytes) := by
  obtain ⟨tokens, hids, hrs⟩ := h
  rw [BytePairEncoding.decode, hids, Option.map_some, ← hrs, List.flatMap_assoc]

/-- The ids of what is left after the merges. -/
theorem spells_mergedIds {merges : List Merge} (hknown : ∀ m ∈ merges, m.runes ≠ [] → ofRunes m.runes ∈ v.values)
    (hvalid : ∀ m ∈ merges, ∀ r ∈ m.runes, validRune r) :
    Spells v (mergedIds v merges) (merges.map Merge.runes).flatten := by
  induction merges with
  | nil => exact Spells.nil v
  | cons m merges ih =>
    have ih := ih (fun m' hm' => hknown m' (List.mem_cons_of_mem _ hm'))
      (fun m' hm' => hvalid m' (List.mem_cons_of_mem _ hm'))
    rw [List.map_cons, List.flatten_cons]
    by_cases hm : m.runes = []
    · have hids : mergedIds v (m :: merges) = mergedIds v merges := by simp [mergedIds, hm]
      rw [hids, hm, List.nil_append]
      exact ih
    · have hid := encode_nonneg (hknown m (List.mem_cons_self ..) hm)
      have hids : mergedIds v (m :: merges) = [v.encode (ofRunes m.runes)] ++ mergedIds v merges := by
        simp [mergedIds, List.length_pos_iff, hm, hid]
      have hone := Spells.single hid
      rw [runes_ofRunes (hvalid m (List.mem_cons_self ..))] at hone
      rw [hids]
      exact hone.append ih

/-! ## A part of the text -/

/-- There is a merge for each rune. -/
theorem length_singles (word : List Nat) : (singles word).length = word.length := by simp [singles]

/-- The merge of a rune stands between those of its neighbours. -/
theorem entry_singles {word : List Nat} {i : Nat} (hi : i < word.length) :
    entry (singles word) i = ⟨(i : Int) - 1, i + 1, [word[i]]⟩ := by
  simp [entry, singles, hi]

/-- The merges have a rune each. -/
theorem runes_singles (word : List Nat) : (singles word).map Merge.runes = word.map (fun r => [r]) := by
  apply List.ext_getElem
  · simp [singles]
  · intro i h1 h2
    simp [singles]

/-- Before any pair is queued. -/
theorem mergeInv_singles {word : List Nat} (hknown : ∀ r ∈ word, encodeRune r ∈ v.values) :
    MergeInv v word (singles word) 0 := by
  refine ⟨?_, fun i hi _ => ?_, fun i hi _ => ?_, fun i hi _ => ?_, fun p hp => absurd hp (Multiset.notMem_zero p)⟩
  · rw [runes_singles, ← List.flatMap_def]
    exact List.flatMap_singleton' word
  · rw [entry_singles (length_singles word ▸ hi)]
    dsimp only
    exact ⟨Nat.lt_succ_self i, fun k h1 h2 => by omega⟩
  · rw [entry_singles (length_singles word ▸ hi)]
    dsimp only
    exact ⟨by omega, fun k h1 h2 => by omega⟩
  · rw [entry_singles (length_singles word ▸ hi)]
    simpa [ofRunes] using hknown _ (List.getElem_mem _)

/-- At first there are as many parts as runes. -/
theorem parts_singles (word : List Nat) : parts (singles word) = word.length := by
  rw [parts, runes_singles, List.countP_eq_length.2 (by simp), List.length_map]

/-- The pairs of neighbours are queued. -/
theorem mergeInv_firstPairs (hv : MergesKnown v) {word : List Nat} {merges : List Merge}
    (h : MergeInv v word merges 0) :
    MergeInv v word merges (Q.items (firstPairs Q v merges)) ∧
      (Q.items (firstPairs Q v merges)).card ≤ merges.length := by
  have hall : ∀ (l : List Nat) (q : σ), MergeInv v word merges (Q.items q) →
      MergeInv v word merges (Q.items (l.foldl (fun q (i : Nat) => Q.pushSome (pairwise v merges i (i + 1)) q) q)) ∧
        (Q.items (l.foldl (fun q (i : Nat) => Q.pushSome (pairwise v merges i (i + 1)) q) q)).card ≤
          (Q.items q).card + l.length := by
    intro l
    induction l with
    | nil =>
      intro q hq
      exact ⟨hq, Nat.le_refl _⟩
    | cons i l ih =>
      intro q hq
      have hpush := hq.push hv (a := i) (b := i + 1) (by omega) (fun k h1 h2 => by omega)
      obtain ⟨hinv, hcard⟩ := ih _ hpush
      have hone := card_pushSome (Q := Q) (pairwise v merges i (i + 1)) q
      rw [List.foldl_cons, List.length_cons]
      exact ⟨hinv, by omega⟩
  have hempty : Q.items Q.empty = 0 := Q.items_empty
  obtain ⟨hinv, hcard⟩ := hall (List.range (merges.length - 1)) Q.empty (hempty ▸ h)
  rw [hempty, Multiset.card_zero, List.length_range] at hcard
  exact ⟨hinv, by unfold firstPairs; omega⟩

/-- The rune of a byte is valid. -/
theorem validRune_byteRune (b : UInt8) : validRune (byteRune b) :=
  forall_byte (P := fun b => validRune (byteRune b)) (by decide +kernel) b

/-- The ids of a part of the text spell its bytes. -/
theorem encodeSplit_spec (hv : MergesKnown v) (hbytes : ∀ b, encodeRune (byteRune b) ∈ v.values) (split : Bytes) :
    ∃ ids, encodeSplit Q v split = some ids ∧ Spells v ids (split.map byteRune) := by
  have hvalid : ∀ r ∈ split.map byteRune, validRune r := by
    intro r hr
    obtain ⟨b, _, rfl⟩ := List.mem_map.1 hr
    exact validRune_byteRune b
  have hrunes := runes_ofRunes hvalid
  unfold encodeSplit
  dsimp only
  by_cases hid : v.encode (ofRunes (split.map byteRune)) ≥ 0
  · rw [if_pos hid]
    have hone := Spells.single hid
    rw [hrunes] at hone
    exact ⟨_, rfl, hone⟩
  · rw [if_neg hid, hrunes]
    have hfirst : MergeInv v (split.map byteRune) (singles (split.map byteRune)) 0 := by
      refine mergeInv_singles (fun r hr => ?_)
      obtain ⟨b, _, rfl⟩ := List.mem_map.1 hr
      exact hbytes b
    obtain ⟨hinv, hcard⟩ := mergeInv_firstPairs (Q := Q) hv hfirst
    have hfuel : (Q.items (firstPairs Q v (singles (split.map byteRune)))).card +
      2 * parts (singles (split.map byteRune)) ≤ 3 * (singles (split.map byteRune)).length := by
      rw [parts_singles]
      rw [length_singles] at hcard ⊢
      omega
    obtain ⟨merges, hloop, hmerges⟩ := mergeLoop_spec hv hinv hfuel
    refine ⟨mergedIds v merges, by rw [hloop, Option.map_some], ?_⟩
    rw [← hmerges.text]
    refine spells_mergedIds (fun m hm hne => ?_) (fun m hm r hr => ?_)
    · obtain ⟨i, hi, rfl⟩ := List.mem_iff_getElem.1 hm
      have hentry : entry merges i = merges[i] := by simp [entry, hi]
      rw [← hentry] at hne ⊢
      exact hmerges.known i hi hne
    · refine hvalid r ?_
      rw [← hmerges.text]
      exact List.mem_flatten.2 ⟨m.runes, List.mem_map_of_mem hm, hr⟩

/-! ## Special tokens -/

/-- The special tokens of a vocabulary. -/
def IsSpecial (v : Vocabulary) (s : Bytes) : Prop := ∃ i : Nat, v.values[i]? = some s ∧ v.types[i]? = some 3

/-- There is a type for every value, or there are no special tokens to return. -/
theorem specialFrom_isSome (values : List Bytes) (types : List UInt32) :
    (specialFrom values types).isSome ↔ values.length ≤ types.length := by
  induction values generalizing types with
  | nil => simp [specialFrom]
  | cons value values ih =>
    cases types with
    | nil => simp [specialFrom]
    | cons t types =>
      rw [specialFrom, Option.isSome_map, ih, List.length_cons, List.length_cons, Nat.succ_le_succ_iff]

/-- A special text is one of the vocabulary, of the type of control texts. -/
theorem mem_specialFrom {values : List Bytes} {types : List UInt32} {specials : List Bytes}
    (h : specialFrom values types = some specials) {s : Bytes} (hs : s ∈ specials) :
    ∃ i : Nat, values[i]? = some s ∧ types[i]? = some 3 := by
  induction values generalizing types specials with
  | nil =>
    rw [specialFrom, Option.some.injEq] at h
    rw [← h] at hs
    nomatch hs
  | cons value values ih =>
    cases types with
    | nil => nomatch h
    | cons t types =>
      rw [specialFrom, Option.map_eq_some_iff] at h
      obtain ⟨rest, hrest, rfl⟩ := h
      have hlater : s ∈ rest → ∃ i : Nat, (value :: values)[i]? = some s ∧ (t :: types)[i]? = some 3 := by
        intro hmem
        obtain ⟨i, hi⟩ := ih hrest hmem
        exact ⟨i + 1, hi⟩
      split at hs
      · rename_i ht
        rcases List.mem_cons.1 hs with rfl | hmem
        · exact ⟨0, rfl, by simp [ht]⟩
        · exact hlater hmem
      · exact hlater hs

/-- A text in which no special token occurs stays one fragment. -/
theorem splitSpecials_single {s : Bytes} {specials : List Bytes} (h : ∀ t ∈ specials, ¬t <:+: s) :
    splitSpecials v specials [{ value := s }] = some [{ value := s }] := by
  induction specials with
  | nil => rfl
  | cons t specials ih =>
    have hone : splitFragments t (v.encode t) (splitFuel [{ value := s }]) [{ value := s }] =
      some [{ value := s }] := by
      have hfuel : splitFuel [{ value := s }] = 3 * s.length + 1 := by simp [splitFuel, Nat.add_comm]
      have hnone := index_eq_none_iff.2 (h t (List.mem_cons_self ..))
      rw [hfuel, splitFragments, if_neg (by simp)]
      simp only [hnone]
      rw [splitFragments, Option.map_some]
    rw [splitSpecials, hone, Option.bind_some]
    exact ih (fun t' ht' => h t' (List.mem_cons_of_mem _ ht'))

/-! ## Texts -/

/-- The ids of the parts of a text spell its bytes. -/
theorem mapM_encodeSplit_spec (hv : MergesKnown v) (hbytes : ∀ b, encodeRune (byteRune b) ∈ v.values)
    (splits : List Bytes) :
    ∃ ids, (splits.mapM (encodeSplit Q v)).map List.flatten = some ids ∧
      Spells v ids (splits.flatten.map byteRune) := by
  induction splits with
  | nil => exact ⟨[], rfl, Spells.nil v⟩
  | cons split splits ih =>
    obtain ⟨ids, hids, hspells⟩ := encodeSplit_spec (Q := Q) hv hbytes split
    obtain ⟨rest, hrest, hspells'⟩ := ih
    obtain ⟨idss, hidss, rfl⟩ := Option.map_eq_some_iff.1 hrest
    refine ⟨ids ++ idss.flatten, ?_, ?_⟩
    · simp [List.mapM_cons, hids, hidss]
    · rw [List.flatten_cons, List.map_append]
      exact hspells.append hspells'

/-- The ids of a text spell its bytes, if there is a type for every value. -/
theorem encode_spec {bpe : BytePairEncoding} (hv : MergesKnown bpe.vocab)
    (hbytes : ∀ b, encodeRune (byteRune b) ∈ bpe.vocab.values) {s : Bytes} (hpre : (bpe.pre s).flatten = s)
    (hspecial : ∀ t, IsSpecial bpe.vocab t → ¬t <:+: s) (htypes : bpe.vocab.values.length ≤ bpe.vocab.types.length) :
    ∃ ids, bpe.encode Q s false = some ids ∧ Spells bpe.vocab ids (s.map byteRune) := by
  obtain ⟨specials, hspecials⟩ := Option.isSome_iff_exists.1 ((specialFrom_isSome _ _).2 htypes)
  have hsplit := splitSpecials_single (v := bpe.vocab) (fun t ht => hspecial t (mem_specialFrom hspecials ht))
  obtain ⟨ids, hids, hspells⟩ := mapM_encodeSplit_spec (Q := Q) hv hbytes (bpe.pre s)
  rw [hpre] at hspells
  refine ⟨ids, ?_, hspells⟩
  have hfrag : encodeFragment Q bpe { value := s } = some ids := by
    unfold encodeFragment
    rw [if_neg (by simp)]
    exact hids
  simp [BytePairEncoding.encode, Vocabulary.specialVocabulary, hspecials, hsplit, hfrag]

/-- Without a type for every value there is no outcome. -/
theorem encode_eq_none {bpe : BytePairEncoding} (h : ¬bpe.vocab.values.length ≤ bpe.vocab.types.length) (s : Bytes)
    (addSpecial : Bool) : bpe.encode Q s addSpecial = none := by
  have hnone : bpe.vocab.specialVocabulary = none := by
    rw [← Option.not_isSome_iff_eq_none]
    exact fun hsome => h ((specialFrom_isSome _ _).1 hsome)
  simp [BytePairEncoding.encode, hnone]

/-- The byte that is read for the rune of a byte: it is another one for `~`. -/
theorem runeBytes_byteRune {b : UInt8} (hb : b ≠ 0) : runeBytes (byteRune b) = [if b = 0x7e then 0x20 else b] := by
  refine forall_byte (P := fun b => b ≠ 0 → runeBytes (byteRune b) = [if b = 0x7e then 0x20 else b]) ?_ b hb
  decide +kernel

end Ollama.Model
