import Mathlib.Data.List.Induction
import Mathlib.Data.List.Perm.Basic
import Mathlib.Data.UInt

/-!
# Maps as lists of pairs

A map is a list of keys with their values. `set` gives a key a value, whether it has one or not. Where no key is there
twice the order of the list says nothing: `lookup_perm`.
-/

namespace Ollama.Lib.Assoc

variable {α β γ : Type} [BEq α]

/-- Other values for all keys. -/
theorem lookup_map (f : β → γ) (m : List (α × β)) (k : α) :
    (m.map (fun e => (e.1, f e.2))).lookup k = (m.lookup k).map f := by
  induction m with
  | nil => rfl
  | cons e m ih =>
    obtain ⟨a, b⟩ := e
    rw [List.map_cons, List.lookup_cons, List.lookup_cons]
    cases k == a with
    | true => rfl
    | false => exact ih

variable [LawfulBEq α]

/-- A key that is not there has no value. -/
theorem lookup_eq_none {m : List (α × β)} {k : α} (h : k ∉ m.map Prod.fst) : m.lookup k = none := by
  rw [List.lookup_eq_none_iff]
  intro e he
  have hne : k ≠ e.1 := fun heq => h (heq ▸ List.mem_map_of_mem he)
  simpa using hne

/-- In a list without a key twice, a key has the values it stands with. -/
theorem lookup_of_mem {m : List (α × β)} (hnodup : (m.map Prod.fst).Nodup) {k : α} {v : β} (h : (k, v) ∈ m) :
    m.lookup k = some v := by
  obtain ⟨s, t, rfl⟩ := List.append_of_mem h
  rw [List.map_append, List.map_cons, List.nodup_append] at hnodup
  have hnone : s.lookup k = none := lookup_eq_none (fun hmem => hnodup.2.2 k hmem k (List.mem_cons_self ..) rfl)
  rw [List.lookup_append, hnone, Option.none_or, List.lookup_cons, beq_self_eq_true]

/-- The order of a list without a key twice does not matter. -/
theorem lookup_perm {m m' : List (α × β)} (hperm : m.Perm m') (hnodup : (m.map Prod.fst).Nodup) (k : α) :
    m.lookup k = m'.lookup k := by
  have hnodup' : (m'.map Prod.fst).Nodup := (hperm.map Prod.fst).nodup_iff.1 hnodup
  rcases h : m.lookup k with _ | v
  · rw [List.lookup_eq_none_iff] at h
    exact (List.lookup_eq_none_iff.2 (fun e he => h e (hperm.mem_iff.2 he))).symm
  · obtain ⟨s, t, rfl, _⟩ := List.lookup_eq_some_iff.1 h
    exact (lookup_of_mem hnodup' (hperm.mem_iff.1 (by simp))).symm

variable [DecidableEq α]

/-- The map with another value for a key. -/
def set (m : List (α × β)) (k : α) (v : β) : List (α × β) := m.filter (fun e => e.1 ≠ k) ++ [(k, v)]

/-- A key that is taken away is not found, and others are found as before. -/
theorem lookup_filter_ne (m : List (α × β)) (k k' : α) :
    (m.filter (fun e => e.1 ≠ k)).lookup k' = if k' = k then none else m.lookup k' := by
  induction m with
  | nil => simp
  | cons e m ih =>
    obtain ⟨a, b⟩ := e
    by_cases ha : a = k
    · rw [List.filter_cons_of_neg (by simpa using ha), ih, List.lookup_cons, ha]
      by_cases hk : k' = k
      · rw [if_pos hk, if_pos hk]
      · rw [if_neg hk, if_neg hk, beq_false_of_ne hk]
    · rw [List.filter_cons_of_pos (by simpa using ha), List.lookup_cons, List.lookup_cons, ih]
      by_cases hk : k' = k
      · rw [if_pos hk, if_pos hk, hk, beq_false_of_ne (Ne.symm ha)]
      · rw [if_neg hk, if_neg hk]

/-- A key that is set is found with its value, and others are found as before. -/
theorem lookup_set (m : List (α × β)) (k k' : α) (v : β) :
    (set m k v).lookup k' = if k' = k then some v else m.lookup k' := by
  rw [set, List.lookup_append, lookup_filter_ne, List.lookup_cons]
  by_cases hk : k' = k
  · rw [if_pos hk, if_pos hk, hk]
    simp
  · rw [if_neg hk, if_neg hk, beq_false_of_ne hk]
    simp

omit [BEq α] [LawfulBEq α] in
/-- A map with another value for a key still has no key twice. -/
theorem nodup_set {m : List (α × β)} (h : (m.map Prod.fst).Nodup) (k : α) (v : β) :
    ((set m k v).map Prod.fst).Nodup := by
  have hsub : ((m.filter (fun e => e.1 ≠ k)).map Prod.fst).Sublist (m.map Prod.fst) := List.filter_sublist.map Prod.fst
  rw [set, List.map_append, List.nodup_append]
  refine ⟨hsub.nodup h, by simp, ?_⟩
  intro a ha b hb
  rw [List.map_singleton, List.mem_singleton] at hb
  obtain ⟨e, he, rfl⟩ := List.mem_map.1 ha
  rw [hb]
  simpa using (List.mem_filter.1 he).2

/-- Keys that are set one after the other, none of them twice. -/
theorem lookup_foldl_set (es m : List (α × β)) (hnodup : (es.map Prod.fst).Nodup) (k : α) :
    (es.foldl (fun m e => set m e.1 e.2) m).lookup k = (es.lookup k).or (m.lookup k) := by
  induction es generalizing m with
  | nil => rfl
  | cons e es ih =>
    obtain ⟨a, v⟩ := e
    rw [List.map_cons, List.nodup_cons] at hnodup
    rw [List.foldl_cons, ih _ hnodup.2, lookup_set, List.lookup_cons]
    by_cases hk : k = a
    · rw [if_pos hk, hk, lookup_eq_none hnodup.1]
      simp
    · rw [if_neg hk, beq_false_of_ne hk]

/-- Of the values that a key is given one after the other, the last one stays. -/
theorem lookup_foldl_set_last (es m : List (α × β)) (k : α) :
    (es.foldl (fun m e => set m e.1 e.2) m).lookup k =
      (((es.filter (fun e => e.1 = k)).getLast?).map Prod.snd).or (m.lookup k) := by
  induction es generalizing m with
  | nil => rfl
  | cons e es ih =>
    obtain ⟨a, v⟩ := e
    rw [List.foldl_cons, ih, lookup_set]
    by_cases hk : k = a
    · subst hk
      rw [if_pos rfl, List.filter_cons_of_pos (by simp), List.getLast?_cons]
      cases h : (es.filter (fun e => e.1 = k)).getLast? <;> rfl
    · rw [if_neg hk, List.filter_cons_of_neg (by simpa using Ne.symm hk)]

omit [BEq α] [LawfulBEq α] in
/-- The keys after one is set are that and those before. -/
theorem mem_keys_set {m : List (α × β)} {k k' : α} {v : β} :
    k' ∈ (set m k v).map Prod.fst ↔ k' = k ∨ k' ∈ m.map Prod.fst := by
  simp only [set, List.map_append, List.map_singleton, List.mem_append, List.mem_singleton, List.mem_map,
    List.mem_filter, decide_eq_true_eq]
  constructor
  · rintro (⟨e, ⟨he, _⟩, rfl⟩ | rfl)
    · exact Or.inr ⟨e, he, rfl⟩
    · exact Or.inl rfl
  · rintro (rfl | ⟨e, he, rfl⟩)
    · exact Or.inr rfl
    · by_cases hk : e.1 = k
      · exact Or.inr hk
      · exact Or.inl ⟨e, ⟨he, hk⟩, rfl⟩

omit [BEq α] [LawfulBEq α] in
/-- The values after a key is given one. -/
theorem mem_values_set {m : List (α × β)} {k : α} {v w : β} (h : w ∈ (set m k v).map Prod.snd) :
    w = v ∨ w ∈ m.map Prod.snd := by
  rw [set, List.map_append, List.mem_append] at h
  obtain hold | hnew := h
  · exact .inr ((List.filter_sublist.map Prod.snd).subset hold)
  · exact .inl (List.mem_singleton.1 hnew)

omit [BEq α] [LawfulBEq α] in
/-- The keys after some are set are those and those before. -/
theorem mem_keys_foldl_set (es m : List (α × β)) (k : α) :
    k ∈ (es.foldl (fun m e => set m e.1 e.2) m).map Prod.fst ↔ k ∈ es.map Prod.fst ∨ k ∈ m.map Prod.fst := by
  induction es generalizing m with
  | nil => simp
  | cons e es ih =>
    rw [List.foldl_cons, ih, mem_keys_set, List.map_cons, List.mem_cons]
    tauto

omit [BEq α] [LawfulBEq α] in
/-- Keys that are set one after the other are not there twice. -/
theorem nodup_foldl_set (es : List (α × β)) {m : List (α × β)} (h : (m.map Prod.fst).Nodup) :
    ((es.foldl (fun m e => set m e.1 e.2) m).map Prod.fst).Nodup := by
  induction es generalizing m with
  | nil => exact h
  | cons e es ih =>
    rw [List.foldl_cons]
    exact ih (nodup_set h e.1 e.2)

/-! ## Maps with related values -/

/-- Two maps with the same keys in the same order, and values that are related. -/
def Related (R : β → γ → Prop) : List (α × β) → List (α × γ) → Prop :=
  List.Forall₂ (fun e e' => e.1 = e'.1 ∧ R e.2 e'.2)

omit [LawfulBEq α] [DecidableEq α] in
/-- What is looked up in related maps is related. -/
theorem Related.lookup {R : β → γ → Prop} {m : List (α × β)} {m' : List (α × γ)} (h : Related R m m') (k : α) :
    Option.Rel R (m.lookup k) (m'.lookup k) := by
  induction h with
  | nil => exact .none
  | @cons e e' m m' he _ ih =>
    obtain ⟨a, v⟩ := e
    obtain ⟨a', v'⟩ := e'
    obtain ⟨rfl, hv⟩ := he
    rw [List.lookup_cons, List.lookup_cons]
    cases k == a with
    | true => exact .some hv
    | false => exact ih

omit [BEq α] [LawfulBEq α] in
/-- Related maps stay so when a key is set to related values. -/
theorem Related.set {R : β → γ → Prop} {m : List (α × β)} {m' : List (α × γ)} (h : Related R m m') (k : α)
    {v : β} {v' : γ} (hv : R v v') : Related R (set m k v) (set m' k v') := by
  unfold Assoc.set
  refine List.rel_append ?_ (.cons ⟨rfl, hv⟩ .nil)
  refine List.rel_filter (fun e e' he => ?_) h
  simp [he.1]

omit [BEq α] [LawfulBEq α] in
/-- Keys that are set one after the other. -/
theorem Related.foldl_set {R : β → γ → Prop} {es : List (α × β)} {es' : List (α × γ)} (hes : Related R es es') :
    ∀ {m : List (α × β)} {m' : List (α × γ)}, Related R m m' →
      Related R (es.foldl (fun m e => Assoc.set m e.1 e.2) m) (es'.foldl (fun m e => Assoc.set m e.1 e.2) m') := by
  induction hes with
  | nil => exact fun h => h
  | cons he _ ih =>
    intro m m' h
    rw [List.foldl_cons, List.foldl_cons, he.1]
    exact ih (h.set _ he.2)

/-! ## Grouping -/

/-- The elements of a list by a key, those with the same key in their order. -/
def group (key : β → α) (l : List β) : List (α × List β) :=
  l.foldl (fun m x => Assoc.set m (key x) ((m.lookup (key x)).getD [] ++ [x])) []

omit [LawfulBEq α] in
/-- One more value is put behind those of its key. -/
theorem group_concat (key : β → α) (l : List β) (x : β) :
    group key (l ++ [x]) = Assoc.set (group key l) (key x) (((group key l).lookup (key x)).getD [] ++ [x]) := by
  rw [group, List.foldl_append, ← group]
  rfl

omit [LawfulBEq α] in
/-- Groups have different keys. -/
theorem nodup_group (key : β → α) (l : List β) : ((group key l).map Prod.fst).Nodup := by
  induction l using List.reverseRecOn with
  | nil => exact List.nodup_nil
  | append_singleton l x ih =>
    rw [group_concat]
    exact nodup_set ih _ _

/-- A key has the elements with this key, if there are some. -/
theorem lookup_group (key : β → α) (l : List β) (k : α) :
    (group key l).lookup k = if l.filter (fun x => key x = k) = [] then none
      else some (l.filter (fun x => key x = k)) := by
  induction l using List.reverseRecOn with
  | nil => rfl
  | append_singleton l x ih =>
    rw [group_concat, lookup_set, List.filter_append]
    by_cases h : k = key x
    · subst h
      have hself : [x].filter (fun y => key y = key x) = [x] := List.filter_cons_of_pos (by simp)
      have hne : l.filter (fun y => key y = key x) ++ [x] ≠ [] := by simp
      rw [if_pos rfl, ih, hself, if_neg hne]
      split
      · rename_i hnil
        rw [hnil]
        rfl
      · rfl
    · have hother : [x].filter (fun y => key y = k) = [] :=
        List.filter_cons_of_neg (by simpa using fun heq => h heq.symm)
      rw [if_neg h, ih, hother, List.append_nil]

/-- A group is all values of its key, if there are any. -/
theorem mem_group_iff {key : β → α} {l : List β} {k : α} {e : List β} :
    (k, e) ∈ group key l ↔ e = l.filter (fun x => key x = k) ∧ e ≠ [] := by
  have hlookup := lookup_group key l k
  constructor
  · intro h
    rw [lookup_of_mem (nodup_group key l) h] at hlookup
    split at hlookup
    · nomatch hlookup
    · rename_i hne
      obtain rfl := Option.some.inj hlookup
      exact ⟨rfl, hne⟩
  · rintro ⟨rfl, hne⟩
    rw [if_neg hne] at hlookup
    obtain ⟨m, m', hm, _⟩ := List.lookup_eq_some_iff.1 hlookup
    rw [hm]
    simp

end Ollama.Lib.Assoc
