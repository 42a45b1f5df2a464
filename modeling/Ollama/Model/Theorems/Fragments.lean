import Ollama.Model.Lemmas.Encode

/-!
# Special tokens

The loop over the special tokens splits a text into fragments that are the text again, one after another: the special
tokens it has found, with their ids, and parts in which none occurs (`fragments_partition`). The parts only ever
become smaller, so that a special token which has been passed does not occur again.
-/

namespace Ollama.Model

open Lib Utf8

variable {v : Vocabulary}

/-- The fragments are the text; those with ids are special tokens with their ids, and in the others there is none. -/
structure Partitioned (v : Vocabulary) (specials : List Bytes) (s : Bytes) (frags : List Fragment) : Prop where
  text : (frags.map Fragment.value).flatten = s
  special : ∀ f ∈ frags, f.ids ≠ [] → ∃ id, f.ids = [id] ∧ f.value ∈ specials ∧ v.decode id = some f.value
  plain : ∀ f ∈ frags, f.ids = [] → ∀ t ∈ specials, ¬t <:+: f.value

namespace FragmentsAux

variable {special : Bytes} {id : Int}

/-- A fragment that is left of some: one with ids as it was, the special token, or a part of one without ids in which
the special token does not occur. -/
def Left (special : Bytes) (id : Int) (frags : List Fragment) (f : Fragment) : Prop :=
  (f ∈ frags ∧ f.ids ≠ []) ∨ f = ⟨special, [id]⟩ ∨
    (f.ids = [] ∧ ¬special <:+: f.value ∧ ∃ g ∈ frags, g.ids = [] ∧ f.value <:+: g.value)

/-- What is left of fragments that are themselves parts of others. -/
theorem Left.of_parts {frags frags' : List Fragment} {f : Fragment} (h : Left special id frags f)
    (hparts : ∀ g ∈ frags, g ∈ frags' ∨ g = ⟨special, [id]⟩ ∨
      (g.ids = [] ∧ ∃ g' ∈ frags', g'.ids = [] ∧ g.value <:+: g'.value)) :
    Left special id frags' f := by
  rcases h with ⟨hmem, hids⟩ | rfl | ⟨hids, hnot, g, hg, hgids, hinfix⟩
  · rcases hparts f hmem with hmem | rfl | ⟨hnone, _⟩
    · exact Or.inl ⟨hmem, hids⟩
    · exact Or.inr (Or.inl rfl)
    · exact (hids hnone).elim
  · exact Or.inr (Or.inl rfl)
  · rcases hparts g hg with hmem | rfl | ⟨_, g', hg', hids', hinfix'⟩
    · exact Or.inr (Or.inr ⟨hids, hnot, g, hmem, hgids, hinfix⟩)
    · nomatch hgids
    · exact Or.inr (Or.inr ⟨hids, hnot, g', hg', hids', hinfix.trans hinfix'⟩)

/-- The rest of a fragment, if there is one. -/
def rest (w : Bytes) : List Fragment := if w ≠ [] then [{ value := w }] else []

theorem mem_rest {w : Bytes} {f : Fragment} (h : f ∈ rest w) : f = { value := w } := by
  unfold rest at h
  split at h
  · exact List.mem_singleton.1 h
  · nomatch h

theorem flatten_rest (w : Bytes) : ((rest w).map Fragment.value).flatten = w := by
  unfold rest
  split
  · simp
  · rename_i hw
    simp [not_not.1 hw]

theorem splitFuel_cons (f : Fragment) (frags : List Fragment) :
    splitFuel (f :: frags) = 1 + 3 * f.value.length + splitFuel frags := by
  simp only [splitFuel, List.length_cons, List.map_cons, List.sum_cons]
  omega

theorem splitFuel_append (frags frags' : List Fragment) :
    splitFuel (frags ++ frags') = splitFuel frags + splitFuel frags' := by
  simp only [splitFuel, List.length_append, List.map_append, List.sum_append]
  omega

theorem splitFuel_rest (w : Bytes) : splitFuel (rest w) ≤ 1 + 3 * w.length := by
  unfold rest
  split
  · simp [splitFuel]
  · simp [splitFuel]

/-- The loop at a fragment in which the special token occurs. -/
theorem splitFragments_found {fuel i : Nat} {frag : Fragment} (frags : List Fragment) (hids : frag.ids = [])
    (hindex : index special frag.value = some i) :
    splitFragments special id (fuel + 1) (frag :: frags) =
      if i > 0 then
        (splitFragments special id fuel (⟨special, [id]⟩ :: rest (frag.value.drop (i + special.length)) ++ frags)).map
          ({ value := frag.value.take i } :: ·)
      else (splitFragments special id fuel (rest (frag.value.drop (i + special.length)) ++ frags)).map
        (⟨special, [id]⟩ :: ·) := by
  rw [splitFragments, if_neg (by simp [hids]), hindex]
  dsimp only
  rw [middle]
  by_cases h0 : i > 0
  · rw [if_pos h0, if_pos h0]
    rfl
  · rw [if_neg h0, if_neg h0]
    rfl

/-- The loop over the fragments returns, the text is the same, and what is left of the fragments is as it should be. -/
theorem splitFragments_spec (id : Int) (hne : special ≠ []) {fuel : Nat} {frags : List Fragment}
    (hfuel : splitFuel frags ≤ fuel) :
    ∃ out, splitFragments special id fuel frags = some out ∧
      (out.map Fragment.value).flatten = (frags.map Fragment.value).flatten ∧ ∀ f ∈ out, Left special id frags f := by
  induction fuel generalizing frags with
  | zero =>
    cases frags with
    | nil => exact ⟨[], by rw [splitFragments], rfl, fun f hf => (List.not_mem_nil hf).elim⟩
    | cons f frags =>
      rw [splitFuel_cons] at hfuel
      omega
  | succ fuel ih =>
    cases frags with
    | nil => exact ⟨[], by rw [splitFragments], rfl, fun f hf => (List.not_mem_nil hf).elim⟩
    | cons frag frags =>
      rw [splitFuel_cons] at hfuel
      -- A first part is done, and the loop goes on with what is to do.
      have hturn : ∀ (first : Fragment) (todo : List Fragment), splitFuel todo ≤ fuel →
          first.value ++ (todo.map Fragment.value).flatten = frag.value ++ (frags.map Fragment.value).flatten →
          Left special id (frag :: frags) first →
          (∀ g ∈ todo, g ∈ frag :: frags ∨ g = ⟨special, [id]⟩ ∨
            (g.ids = [] ∧ ∃ g' ∈ frag :: frags, g'.ids = [] ∧ g.value <:+: g'.value)) →
          ∃ out, (splitFragments special id fuel todo).map (first :: ·) = some out ∧
            (out.map Fragment.value).flatten = ((frag :: frags).map Fragment.value).flatten ∧
              ∀ f ∈ out, Left special id (frag :: frags) f := by
        intro first todo hfuel htext hfirst hparts
        obtain ⟨out, hout, htext', hleft⟩ := ih hfuel
        refine ⟨first :: out, by rw [hout, Option.map_some], ?_, ?_⟩
        · rw [List.map_cons, List.flatten_cons, htext', htext, List.map_cons, List.flatten_cons]
        · intro f hf
          rcases List.mem_cons.1 hf with rfl | hf
          · exact hfirst
          · exact (hleft f hf).of_parts hparts
      have htail : ∀ g ∈ frags, g ∈ frag :: frags := fun g hg => List.mem_cons_of_mem _ hg
      by_cases hids : frag.ids = []
      · rcases hindex : index special frag.value with _ | i
        · rw [splitFragments, if_neg (by simp [hids]), hindex]
          exact hturn frag frags (by omega) rfl
            (Or.inr (Or.inr ⟨hids, index_eq_none_iff.1 hindex, frag, List.mem_cons_self, hids, List.infix_rfl⟩))
            (fun g hg => Or.inl (htail g hg))
        · obtain ⟨hvalue, hbefore⟩ := index_split hne hindex
          have hpos := List.length_pos_iff.2 hne
          have hi := (index_eq_some_iff.1 hindex).1
          have hlength := congrArg List.length hvalue
          simp only [List.length_append, List.length_take] at hlength
          have hrest := splitFuel_rest (frag.value.drop (i + special.length))
          have hpart : ∀ g ∈ rest (frag.value.drop (i + special.length)), g.ids = [] ∧ ∃ g' ∈ frag :: frags,
              g'.ids = [] ∧ g.value <:+: g'.value := by
            intro g hg
            rw [mem_rest hg]
            exact ⟨rfl, frag, List.mem_cons_self, hids, (List.drop_suffix _ _).isInfix⟩
          rw [splitFragments_found frags hids hindex]
          split
          · refine hturn _ _ ?_ ?_ ?_ (fun g hg => ?_)
            · rw [List.cons_append, splitFuel_cons, splitFuel_append]
              dsimp only
              omega
            · conv_rhs => rw [hvalue]
              rw [List.cons_append, List.map_cons, List.flatten_cons, List.map_append, List.flatten_append,
                flatten_rest]
              simp only [List.append_assoc]
            · exact Or.inr (Or.inr ⟨rfl, hbefore, frag, List.mem_cons_self, hids, (List.take_prefix _ _).isInfix⟩)
            · rcases List.mem_cons.1 hg with rfl | hg
              · exact Or.inr (Or.inl rfl)
              · rcases List.mem_append.1 hg with hg | hg
                · exact Or.inr (Or.inr (hpart g hg))
                · exact Or.inl (htail g hg)
          · rename_i h0
            have h0 : i = 0 := by omega
            subst h0
            refine hturn _ _ ?_ ?_ (Or.inr (Or.inl rfl)) (fun g hg => ?_)
            · rw [splitFuel_append]
              omega
            · conv_rhs => rw [hvalue, List.take_zero, List.nil_append]
              rw [List.map_append, List.flatten_append, flatten_rest, List.append_assoc]
            · rcases List.mem_append.1 hg with hg | hg
              · exact Or.inr (Or.inr (hpart g hg))
              · exact Or.inl (htail g hg)
      · rw [splitFragments, if_pos (List.length_pos_iff.2 hids)]
        exact hturn frag frags (by omega) rfl (Or.inl ⟨List.mem_cons_self, hids⟩) (fun g hg => Or.inl (htail g hg))

/-- One special token after another. -/
theorem splitSpecials_spec {specials : List Bytes} (hne : ∀ t ∈ specials, t ≠ [])
    (hmem : ∀ t ∈ specials, t ∈ v.values) {s : Bytes} {passed : List Bytes} {frags : List Fragment}
    (h : Partitioned v passed s frags) :
    ∃ out, splitSpecials v specials frags = some out ∧ Partitioned v (passed ++ specials) s out := by
  induction specials generalizing passed frags with
  | nil => exact ⟨frags, rfl, by rwa [List.append_nil]⟩
  | cons t specials ih =>
    obtain ⟨out, hout, htext, hleft⟩ :=
      splitFragments_spec (v.encode t) (hne t List.mem_cons_self) (Nat.le_refl (splitFuel frags))
    have hpart : Partitioned v (passed ++ [t]) s out := by
      refine ⟨htext.trans h.text, fun f hf hids => ?_, fun f hf hids t' ht' => ?_⟩
      · rcases hleft f hf with ⟨hmem, _⟩ | rfl | ⟨hnone, _⟩
        · obtain ⟨id, hid, hvalue, hdecode⟩ := h.special f hmem hids
          exact ⟨id, hid, List.mem_append_left _ hvalue, hdecode⟩
        · exact ⟨_, rfl, List.mem_append_right _ (List.mem_singleton_self t),
            decode_encode_of_nonneg (encode_nonneg (hmem t List.mem_cons_self))⟩
        · exact (hids hnone).elim
      · rcases hleft f hf with ⟨_, hsome⟩ | rfl | ⟨_, hnot, g, hg, hgids, hinfix⟩
        · exact (hsome hids).elim
        · nomatch hids
        · rcases List.mem_append.1 ht' with ht' | ht'
          · -- An earlier special token would occur in what the part is of.
            exact fun hoccurs => h.plain g hg hgids t' ht' (hoccurs.trans hinfix)
          · rw [List.mem_singleton.1 ht']
            exact hnot
    obtain ⟨out', hout', hpart'⟩ :=
      ih (fun t ht => hne t (List.mem_cons_of_mem _ ht)) (fun t ht => hmem t (List.mem_cons_of_mem _ ht)) hpart
    refine ⟨out', by rw [splitSpecials, hout, Option.bind_some, hout'], ?_⟩
    rwa [List.append_assoc, List.singleton_append] at hpart'

end FragmentsAux

open FragmentsAux

/-- The loop over the special tokens returns, and leaves the text in fragments: special tokens with their ids, and
parts in which there is none. -/
theorem fragments_partition {specials : List Bytes} (hspecials : v.specialVocabulary = some specials)
    (hne : ∀ t ∈ specials, t ≠ []) (s : Bytes) :
    ∃ frags, splitSpecials v specials [{ value := s }] = some frags ∧ Partitioned v specials s frags := by
  have hmem : ∀ t ∈ specials, t ∈ v.values := by
    intro t ht
    obtain ⟨i, hi, _⟩ := mem_specialFrom hspecials ht
    exact List.mem_of_getElem? hi
  have hfirst : Partitioned v [] s [{ value := s }] := by
    refine ⟨by simp, fun f hf hids => ?_, fun _ _ _ t ht => (List.not_mem_nil ht).elim⟩
    rw [List.mem_singleton.1 hf] at hids
    exact (hids rfl).elim
  exact splitSpecials_spec hne hmem hfirst

/-- The special tokens `<a>`, `a` and `<<a>>`: the first is found within the last, and the second elsewhere. -/
def nestedSpecials : Vocabulary where
  values := [ascii "<a>", ascii "a", ascii "<<a>>", ascii "b"]
  types := [3, 3, 3, 1]
  merges := []
  values_le := by decide
  merges_le := by decide

theorem fragments_partition_nested :
    splitSpecials nestedSpecials [ascii "<a>", ascii "a", ascii "<<a>>"] [{ value := ascii "ab<<a>>" }] =
      some [⟨ascii "a", [1]⟩, ⟨ascii "b<", []⟩, ⟨ascii "<a>", [0]⟩, ⟨ascii ">", []⟩] ∧
    ∃ frags, splitSpecials nestedSpecials [ascii "<a>", ascii "a", ascii "<<a>>"] [{ value := ascii "ab<<a>>" }] =
      some frags ∧ Partitioned nestedSpecials [ascii "<a>", ascii "a", ascii "<<a>>"] (ascii "ab<<a>>") frags :=
  ⟨by decide +kernel, fragments_partition (by decide +kernel) (by decide +kernel) (ascii "ab<<a>>")⟩

end Ollama.Model
