import Mathlib.Data.List.MinMax
import Ollama.Model.Populate

/-!
# The names of a tensor

The names that are tried for a tensor are the choices of one of the names of each tag, exactly when only the first tag
has alternates (`tensorNames_iff`): for the names of the other tags, all that there are of them are put one after
another. A name that is made so is longer than each choice with the same beginning.
-/

namespace Ollama.Model

open Lib

/-- The name of a tag and its alternates. -/
def Tag.names (tag : Tag) : List Bytes := tag.name :: tag.alternate

/-- A choice of a name from each tag. -/
def Choice (tags : List Tag) (choice : List Bytes) : Prop := List.Forall₂ (fun name tag => name ∈ tag.names) choice tags

namespace PopulateAux

variable {tag : Tag} {tags : List Tag} {name : Bytes} {names choice : List Bytes}

theorem fieldNames_cons : fieldNames (tag :: tags) = tag.names.map (fun name => name :: (fieldNames tags).flatten) := by
  have hfold : ∀ (value : List Bytes) (rests : List (List Bytes)),
    rests.foldl (fun value rest => value ++ rest) value = value ++ rests.flatten := by
    intro value rests
    induction rests generalizing value with
    | nil => rw [List.foldl_nil, List.flatten_nil, List.append_nil]
    | cons rest rests ih => rw [List.foldl_cons, ih, List.append_assoc, List.flatten_cons]
  simp only [fieldNames, hfold, Tag.names, List.map_cons, List.map_map, Function.comp_def, List.singleton_append]

/-! ## Without alternates -/

/-- The only choice from tags without alternates is their names, and these are tried for the rest of a name. -/
theorem flatten_fieldNames (h : ∀ tag ∈ tags, tag.alternate = []) :
    (fieldNames tags).flatten = tags.map Tag.name ∧ ∀ choice, Choice tags choice ↔ choice = tags.map Tag.name := by
  induction tags with
  | nil => exact ⟨rfl, fun choice => List.forall₂_nil_right_iff⟩
  | cons tag tags ih =>
    obtain ⟨htag, htags⟩ := List.forall_mem_cons.1 h
    obtain ⟨hflatten, hchoice⟩ := ih htags
    have hnames : tag.names = [tag.name] := by rw [Tag.names, htag]
    constructor
    · rw [fieldNames_cons, hnames, hflatten]
      simp
    · intro choice
      rw [Choice, List.forall₂_cons_right_iff]
      constructor
      · rintro ⟨name, rest, hname, hrest, rfl⟩
        rw [hnames, List.mem_singleton] at hname
        rw [hname, (hchoice rest).1 hrest, List.map_cons]
      · rintro rfl
        exact ⟨tag.name, tags.map Tag.name, by rw [hnames]; exact List.mem_singleton_self _, (hchoice _).2 rfl, rfl⟩

/-! ## The length of a name -/

/-- The length of names with a dot before each. -/
def weight (names : List Bytes) : Nat := (names.map (fun name => name.length + 1)).sum

theorem weight_cons : weight (name :: names) = name.length + 1 + weight names :=
  by rw [weight, List.map_cons, List.sum_cons, weight]

theorem weight_append (names names' : List Bytes) : weight (names ++ names') = weight names + weight names' := by
  rw [weight, List.map_append, List.sum_append, weight, weight]

theorem length_joinName (name : Bytes) (names : List Bytes) :
    (joinName (name :: names)).length = name.length + weight names := by
  induction names generalizing name with
  | nil => simp [joinName, List.intercalate, weight]
  | cons name' names ih =>
    have hjoin : joinName (name :: name' :: names) = name ++ 0x2e :: joinName (name' :: names) := by
      simp [joinName, List.intercalate]
    rw [hjoin, List.length_append, List.length_cons, ih, weight_cons]
    omega

theorem weight_flatten (values : List Bytes) :
    weight (values.map (fun name => name :: names)).flatten =
      (values.map (fun name => name.length + 1 + weight names)).sum := by
  induction values with
  | nil => rfl
  | cons value values ih => rw [List.map_cons, List.flatten_cons, weight_append, weight_cons, ih, List.map_cons,
      List.sum_cons]

/-- What is put after a name is no shorter than a choice, and longer when there are alternates. -/
theorem weight_le (h : Choice tags choice) :
    weight choice ≤ weight (fieldNames tags).flatten ∧
      ((∃ tag ∈ tags, tag.alternate ≠ []) → weight choice < weight (fieldNames tags).flatten) := by
  induction h with
  | nil =>
    refine ⟨Nat.le_refl _, ?_⟩
    rintro ⟨tag, htag, _⟩
    cases htag
  | @cons name tag choice tags hname _ ih =>
    obtain ⟨before, after, hsplit⟩ := List.append_of_mem hname
    have hweight : weight (fieldNames (tag :: tags)).flatten =
      (before.map (fun name => name.length + 1 + weight (fieldNames tags).flatten)).sum +
        (name.length + 1 + weight (fieldNames tags).flatten +
        (after.map (fun name => name.length + 1 + weight (fieldNames tags).flatten)).sum) := by
      rw [fieldNames_cons, weight_flatten, hsplit, List.map_append, List.sum_append, List.map_cons, List.sum_cons]
    rw [weight_cons, hweight]
    refine ⟨by omega, ?_⟩
    rintro ⟨tag', htag', halternate⟩
    rcases List.mem_cons.1 htag' with rfl | htag'
    · -- another name of the tag comes before or after
      have hother : before ≠ [] ∨ after ≠ [] := by
        by_contra hnone
        simp only [not_or, not_not] at hnone
        rw [hnone.1, hnone.2, Tag.names] at hsplit
        exact halternate (List.cons.inj hsplit).2
      rcases hother with hne | hne
      · obtain ⟨other, before, rfl⟩ := List.exists_cons_of_ne_nil hne
        rw [List.map_cons, List.sum_cons]
        omega
      · obtain ⟨other, after, rfl⟩ := List.exists_cons_of_ne_nil hne
        rw [List.map_cons, List.sum_cons]
        omega
    · have := ih.2 ⟨tag', htag', halternate⟩
      omega

theorem exists_choice (tags : List Tag) : ∃ choice, Choice tags choice := by
  induction tags with
  | nil => exact ⟨[], .nil⟩
  | cons tag tags ih =>
    obtain ⟨choice, hchoice⟩ := ih
    exact ⟨tag.name :: choice, .cons (List.mem_cons_self ..) hchoice⟩

/-- A name that is shortest among those of a tag. -/
theorem exists_shortest (tag : Tag) : ∃ name ∈ tag.names, ∀ name' ∈ tag.names, name.length ≤ name'.length := by
  have hne : tag.names.argmin List.length ≠ none := mt List.argmin_eq_none.1 (List.cons_ne_nil _ _)
  obtain ⟨name, hname⟩ := Option.ne_none_iff_exists'.1 hne
  exact ⟨name, List.argmin_mem hname, fun name' hname' => List.le_of_mem_argmin hname' hname⟩

end PopulateAux

open PopulateAux

/-- The one tensor of a backend is found for a field exactly when its name is tried. -/
theorem populateTensor_isSome_iff (tags : List Tag) (name : Bytes) :
    (populateTensor (fun n => if n = name then some () else none) tags none).isSome ↔ name ∈ tensorNames tags := by
  rw [populateTensor]
  cases hfind : (tensorNames tags).findSome? (fun n => if n = name then some () else none) with
  | none =>
    rw [List.findSome?_eq_none_iff] at hfind
    simp only [Option.isSome_none, Bool.false_eq_true, false_iff]
    intro hmem
    have hnone := hfind name hmem
    rw [if_pos rfl] at hnone
    cases hnone
  | some tensor =>
    obtain ⟨n, hn, htensor⟩ := List.exists_of_findSome?_eq_some hfind
    simp only [Option.isSome_some, true_iff]
    split at htensor
    · rename_i heq
      exact heq ▸ hn
    · cases htensor

/-- **The names that are tried for a tensor are the joined choices of a name of each tag exactly when there is a tag,
and none but the first has alternates.** -/
theorem tensorNames_iff (tags : List Tag) :
    (∀ name, name ∈ tensorNames tags ↔ ∃ choice, Choice tags choice ∧ joinName choice = name) ↔
    tags ≠ [] ∧ ∀ tag ∈ tags.tail, tag.alternate = [] := by
  cases tags with
  | nil =>
    refine ⟨fun h => ?_, fun h => (h.1 rfl).elim⟩
    have hmem := (h (joinName [])).2 ⟨[], .nil, rfl⟩
    cases hmem
  | cons tag tags =>
    rw [List.tail_cons]
    constructor
    · intro h
      refine ⟨List.cons_ne_nil _ _, ?_⟩
      by_contra hnone
      simp only [not_forall, exists_prop] at hnone
      obtain ⟨choice, hchoice⟩ := exists_choice tags
      obtain ⟨name, hname, hshortest⟩ := exists_shortest tag
      -- the choice with the shortest beginning is too short
      have hmem := (h (joinName (name :: choice))).2 ⟨name :: choice, .cons hname hchoice, rfl⟩
      rw [tensorNames, fieldNames_cons, List.map_map] at hmem
      obtain ⟨name', hname', hjoin⟩ := List.mem_map.1 hmem
      have hlen := congrArg List.length hjoin
      rw [Function.comp_apply, length_joinName, length_joinName] at hlen
      have hle := hshortest name' hname'
      have hlt := (weight_le hchoice).2 hnone
      omega
    · rintro ⟨_, hnone⟩ name
      obtain ⟨hflatten, hchoice⟩ := flatten_fieldNames hnone
      rw [tensorNames, fieldNames_cons, hflatten, List.map_map, List.mem_map]
      constructor
      · rintro ⟨first, hfirst, rfl⟩
        exact ⟨first :: tags.map Tag.name, .cons hfirst ((hchoice _).2 rfl), rfl⟩
      · rintro ⟨choice, hall, rfl⟩
        obtain ⟨first, rest, hfirst, hrest, rfl⟩ := List.forall₂_cons_right_iff.1 hall
        exact ⟨first, hfirst, by rw [(hchoice rest).1 hrest]; rfl⟩

/-- A field of a layer with an alternate: only a name with both is tried. -/
theorem tensorNames_layer : ¬∀ name, name ∈ tensorNames [⟨ascii "blk", []⟩, parseTags (ascii "attn_q,alt:q")] ↔
    ∃ choice, Choice [⟨ascii "blk", []⟩, parseTags (ascii "attn_q,alt:q")] choice ∧ joinName choice = name := by
  intro h
  have hnames : tensorNames [⟨ascii "blk", []⟩, parseTags (ascii "attn_q,alt:q")] = [ascii "blk.attn_q.q"] := by
    decide +kernel
  have halternate : (parseTags (ascii "attn_q,alt:q")).names = [ascii "attn_q", ascii "q"] := by decide +kernel
  have hmem := (h (joinName [ascii "blk", ascii "q"])).2 ⟨_,
    .cons (List.mem_cons_self ..) (.cons (by rw [halternate]; simp) .nil), rfl⟩
  rw [hnames] at hmem
  exact absurd hmem (by decide +kernel)

end Ollama.Model
