import Ollama.Convert.Lemmas.Experts
import Ollama.Convert.Theorems.Safetensors
import Mathlib.Data.List.Nodup
import Mathlib.Data.List.Pairwise
import Mathlib.Data.List.Sort
import Mathlib.Data.Set.List

/-!
# The order of experts

The experts of a layer and kind are merged in the order in which their tensors have been read: from file to file, and
in each file in that of their names as texts. So they are in the order of their numbers exactly if no file has a
higher one than a later file, and the digits of those in one file are ordered as the numbers are
(`experts_stacked_iff`).
-/

namespace Ollama.Convert

open Lib

/-- The tensors of experts among some keys are those of each expert for some layers and kinds, each once. -/
structure MixtralModel.Spread (p : MixtralModel) (groups : List (Nat × ExpertKind)) (keys : List Bytes) : Prop where
  nodup : groups.Nodup
  perm : (keys.filter (fun key => expertMark <:+: key)).Perm
    (groups.flatMap (fun g => (List.range p.numLocalExperts.toNat).map (expertKey g)))

/-- There is a merged tensor for each layer and kind, and each merged tensor has the experts of one of them in the
order of their numbers, as many as its first dimension says, and writes what they write. -/
structure MixtralModel.Stacked (p : MixtralModel) (floats : Floats) (maxAlloc : Nat) (fsys : FS)
    (groups : List (Nat × ExpertKind)) (out : List Output) : Prop where
  merged : ∀ g ∈ groups, 0 < p.numLocalExperts.toNat → ∃ o ∈ out, o.name = mergedName g ∧ ∃ e, o.writerTo = .experts e
  order : ∀ o ∈ out, ∀ e, o.writerTo = .experts e → ∃ g ∈ groups, o.name = mergedName g ∧
    o.shape.head? = some (UInt64.ofNat p.numLocalExperts.toNat) ∧
    e.map Safetensor.name = (List.range p.numLocalExperts.toNat).map (expertName g) ∧
    ∀ data : Bytes → Bytes, (∀ st ∈ e, st.writeTo floats maxAlloc fsys = .ok (data st.name)) →
      o.writerTo.writeTo floats maxAlloc fsys =
      .ok ((List.range p.numLocalExperts.toNat).flatMap (fun i => data (expertName g i)))

/-- In a file, the digits of the experts of a layer and kind are ordered as their numbers are, and none of them is in
a file after one with a higher one. -/
structure Ordered (keys : Bytes → List Bytes) (ps : List Bytes) (groups : List (Nat × ExpertKind)) : Prop where
  within : ∀ g ∈ groups, ∀ q ∈ ps, ∀ i j, i < j → expertKey g i ∈ keys q → expertKey g j ∈ keys q →
    decimal i < decimal j
  across : ∀ g ∈ groups, ps.Pairwise (fun q r => ∀ i j, expertKey g i ∈ keys q → expertKey g j ∈ keys r → i < j)

namespace ExpertsAux

variable {p : MixtralModel} {groups : List (Nat × ExpertKind)} {keys : List Bytes}

/-- The keys that are merged into the tensor of a layer and kind. -/
def ofGroup (p : MixtralModel) (g : Nat × ExpertKind) (key : Bytes) : Bool :=
  expertMark <:+: key ∧ p.namer.replace (MixtralModel.replacements.replace key) = mergedName g

/-- The keys of tensors of experts. -/
theorem mem_marked (h : p.Spread groups keys) {key : Bytes} :
    key ∈ keys ∧ expertMark <:+: key ↔ ∃ g ∈ groups, ∃ i < p.numLocalExperts.toNat, key = expertKey g i := by
  have hmem := h.perm.mem_iff (a := key)
  simp only [List.mem_filter, decide_eq_true_eq, List.mem_flatMap, List.mem_map, List.mem_range] at hmem
  rw [hmem]
  constructor
  · rintro ⟨g, hg, i, hi, rfl⟩
    exact ⟨g, hg, i, hi, rfl⟩
  · rintro ⟨g, hg, i, hi, rfl⟩
    exact ⟨g, hg, i, hi, rfl⟩

/-- The keys of a layer and kind. -/
theorem mem_ofGroup (h : p.Spread groups keys) {g : Nat × ExpertKind} (hg : g ∈ groups) {key : Bytes} :
    key ∈ keys ∧ ofGroup p g key = true ↔ ∃ i < p.numLocalExperts.toNat, key = expertKey g i := by
  simp only [ofGroup, decide_eq_true_eq]
  constructor
  · rintro ⟨hkey, hmark, hname⟩
    obtain ⟨g', _, i, hi, rfl⟩ := (mem_marked h).1 ⟨hkey, hmark⟩
    rw [replace_expertKey, replace_expertName p g' hi] at hname
    obtain rfl := mergedName_inj hname
    exact ⟨i, hi, rfl⟩
  · rintro ⟨i, hi, rfl⟩
    obtain ⟨hkey, hmark⟩ := (mem_marked h).2 ⟨g, hg, i, hi, rfl⟩
    exact ⟨hkey, hmark, by rw [replace_expertKey, replace_expertName p g hi]⟩

theorem expertKey_injective (g : Nat × ExpertKind) : Function.Injective (expertKey g) :=
  fun _ _ h => (expertKey_inj h).2

theorem expertName_injective (g : Nat × ExpertKind) : Function.Injective (expertName g) :=
  fun _ _ h => (expertName_inj h).2

/-- The keys of experts are distinct. -/
theorem nodup_marked (h : p.Spread groups keys) : (keys.filter (fun key => expertMark <:+: key)).Nodup := by
  refine h.perm.nodup_iff.2 (List.nodup_flatMap.2 ⟨fun g _ => List.nodup_range.map (expertKey_injective g), ?_⟩)
  refine h.nodup.imp ?_
  rintro g g' hne key hkey hkey'
  obtain ⟨i, _, rfl⟩ := List.mem_map.1 hkey
  obtain ⟨j, _, heq⟩ := List.mem_map.1 hkey'
  exact hne (expertKey_inj heq).1.symm

/-- The keys of a layer and kind are those of the experts in some order. -/
theorem exists_numbers (h : p.Spread groups keys) {g : Nat × ExpertKind} (hg : g ∈ groups) :
    ∃ I : List Nat, I.Perm (List.range p.numLocalExperts.toNat) ∧ keys.filter (ofGroup p g) = I.map (expertKey g) := by
  have hperm : (keys.filter (ofGroup p g)).Perm ((List.range p.numLocalExperts.toNat).map (expertKey g)) := by
    refine (List.perm_ext_iff_of_nodup ?_ (List.nodup_range.map (expertKey_injective g))).2 (fun key => ?_)
    · have hsub : keys.filter (ofGroup p g) = (keys.filter (fun key => expertMark <:+: key)).filter (ofGroup p g) := by
        rw [List.filter_filter]
        refine List.filter_congr (fun key _ => ?_)
        by_cases hmark : expertMark <:+: key <;> simp [ofGroup, hmark]
      rw [hsub]
      exact (nodup_marked h).filter _
    · rw [List.mem_filter, mem_ofGroup h hg, List.mem_map]
      simp only [List.mem_range, eq_comm]
  obtain ⟨I, hI⟩ : keys.filter (ofGroup p g) ∈ Set.range (List.map (expertKey g)) := by
    rw [Set.range_list_map]
    intro key hkey
    obtain ⟨i, _, rfl⟩ := List.mem_map.1 (hperm.subset hkey)
    exact ⟨i, rfl⟩
  refine ⟨I, ?_, hI.symm⟩
  rwa [← hI, List.map_perm_map_iff (expertKey_injective g)] at hperm

/-- Numbers up to a bound are in order if they increase. -/
theorem eq_range_iff {I : List Nat} {n : Nat} (h : I.Perm (List.range n)) : I = List.range n ↔ I.Pairwise (· < ·) := by
  constructor
  · rintro rfl
    exact List.pairwise_lt_range
  · exact fun hI => hI.eq_of_mem_iff List.pairwise_lt_range (fun i => h.mem_iff)

/-- The first key is that of a lower expert, if both are of experts of a layer and kind. -/
def Lower (g : Nat × ExpertKind) (a b : Bytes) : Prop := ∀ i j, a = expertKey g i → b = expertKey g j → i < j

theorem lower_iff (g : Nat × ExpertKind) (i j : Nat) : Lower g (expertKey g i) (expertKey g j) ↔ i < j := by
  refine ⟨fun h => h i j rfl rfl, fun h i' j' hi hj => ?_⟩
  rwa [← expertKey_injective g hi, ← expertKey_injective g hj]

/-- Keys of experts that increase are in the order of their numbers if their digits are. -/
theorem pairwise_lower {g : Nat × ExpertKind} {l : List Bytes} (hl : l.Pairwise (· < ·))
    (hmem : ∀ key ∈ l, ∃ i, key = expertKey g i) :
    l.Pairwise (Lower g) ↔ ∀ i j, i < j → expertKey g i ∈ l → expertKey g j ∈ l → decimal i < decimal j := by
  constructor
  · intro hlower i j hij hi hj
    -- Of two keys of the list, the lower text comes first.
    let S : Bytes → Bytes → Prop := fun a b => (a < b → Lower g a b) ∧ (b < a → Lower g b a)
    have : Std.Symm S := ⟨fun a b h => ⟨h.2, h.1⟩⟩
    have hS : l.Pairwise S := (hl.and hlower).imp (fun h => ⟨fun _ => h.2, fun hba => (List.lt_asymm h.1 hba).elim⟩)
    have hne : expertKey g j ≠ expertKey g i := fun heq => absurd (expertKey_injective g heq) (Nat.ne_of_gt hij)
    rw [← expertKey_lt_iff g (Nat.ne_of_lt hij)]
    by_contra hnot
    have hle := List.not_lt.1 hnot
    have hji : expertKey g j < expertKey g i := List.not_le.1 (fun h => hne (List.le_antisymm hle h))
    have := (lower_iff g j i).1 ((hS.forall hj hi hne).1 hji)
    omega
  · intro hdigits
    refine hl.imp_of_mem ?_
    rintro a b ha hb hab
    obtain ⟨i, rfl⟩ := hmem a ha
    obtain ⟨j, rfl⟩ := hmem b hb
    rw [lower_iff]
    by_contra hnot
    rcases Nat.lt_or_eq_of_le (Nat.le_of_not_lt hnot) with hji | rfl
    · exact List.lt_asymm hab ((expertKey_lt_iff g (Nat.ne_of_lt hji)).2 (hdigits j i hji hb ha))
    · exact List.lt_irrefl _ hab

/-- What it takes for the experts of a layer and kind to be in the order of their numbers, file by file. -/
theorem pairwise_numbers {keys : Bytes → List Bytes} {ps : List Bytes} (hsorted : ∀ q, (keys q).Pairwise (· < ·))
    (h : p.Spread groups (ps.flatMap keys)) {g : Nat × ExpertKind} (hg : g ∈ groups) {I : List Nat}
    (hI : (ps.flatMap keys).filter (ofGroup p g) = I.map (expertKey g)) : I.Pairwise (· < ·) ↔
      (∀ q ∈ ps, ∀ i j, i < j → expertKey g i ∈ keys q → expertKey g j ∈ keys q → decimal i < decimal j) ∧
      ps.Pairwise (fun q r => ∀ i j, expertKey g i ∈ keys q → expertKey g j ∈ keys r → i < j) := by
  have hmap : I.Pairwise (· < ·) ↔ (I.map (expertKey g)).Pairwise (Lower g) := by
    rw [List.pairwise_map]
    exact List.Pairwise.iff (fun i j => (lower_iff g i j).symm)
  have hof : ∀ q ∈ ps, ∀ key, key ∈ (keys q).filter (ofGroup p g) ↔ key ∈ keys q ∧ ∃ i, key = expertKey g i := by
    intro q hq key
    rw [List.mem_filter]
    refine and_congr_right (fun hkey => ?_)
    have hall : key ∈ ps.flatMap keys := List.mem_flatMap.2 ⟨q, hq, hkey⟩
    constructor
    · intro hgroup
      obtain ⟨i, _, rfl⟩ := (mem_ofGroup h hg).1 ⟨hall, hgroup⟩
      exact ⟨i, rfl⟩
    · rintro ⟨i, rfl⟩
      obtain ⟨g', _, j, hj, heq⟩ := (mem_marked h).1 ⟨hall, mark_expertKey g i⟩
      obtain ⟨_, rfl⟩ := expertKey_inj heq
      exact ((mem_ofGroup h hg).2 ⟨i, hj, rfl⟩).2
  rw [hmap, ← hI, List.filter_flatMap, List.pairwise_flatMap]
  refine and_congr (forall₂_congr (fun q hq => ?_)) (List.Pairwise.iff_of_mem (fun {q r} hq hr => ?_))
  · rw [pairwise_lower ((hsorted q).filter _) (fun key hkey => ((hof q hq key).1 hkey).2)]
    refine forall₃_congr (fun i j _ => ?_)
    rw [hof q hq, hof q hq]
    exact ⟨fun hdigits hi hj => hdigits ⟨hi, i, rfl⟩ ⟨hj, j, rfl⟩, fun hdigits hi hj => hdigits hi.1 hj.1⟩
  · constructor
    · intro hlower i j hi hj
      exact (lower_iff g i j).1 (hlower _ ((hof q hq _).2 ⟨hi, i, rfl⟩) _ ((hof r hr _).2 ⟨hj, j, rfl⟩))
    · intro hnumbers a ha b hb
      obtain ⟨hqa, i, rfl⟩ := (hof q hq a).1 ha
      obtain ⟨hrb, j, rfl⟩ := (hof r hr b).1 hb
      exact (lower_iff g i j).2 (hnumbers i j hqa hrb)

/-! ## Merging -/

section

variable {ts : List Safetensor}

/-- The names of the tensors that are merged for a layer and kind. -/
theorem names_ofGroup (hnames : ts.map Safetensor.name = keys.map MixtralModel.replacements.replace)
    (h : p.Spread groups keys) (g : Nat × ExpertKind) :
    ((ts.filter (fun st => expertMark <:+: st.name)).filter (fun st => p.namer.replace st.name = mergedName g)).map
      Safetensor.name = (keys.filter (ofGroup p g)).map MixtralModel.replacements.replace := by
  let P : Bytes → Bool := fun name => expertMark <:+: name ∧ p.namer.replace name = mergedName g
  have hP : (ts.filter (fun st => expertMark <:+: st.name)).filter (fun st => p.namer.replace st.name = mergedName g) =
      ts.filter (P ∘ Safetensor.name) := by
    rw [List.filter_filter]
    refine List.filter_congr (fun st _ => ?_)
    simp [P, Bool.and_comm]
  rw [hP, ← List.filter_map, hnames, List.filter_map]
  congr 1
  refine List.filter_congr (fun key hkey => ?_)
  have hmark : expertMark <:+: MixtralModel.replacements.replace key ↔ expertMark <:+: key := by
    refine ⟨mark_of_mark_replace, fun hmark => ?_⟩
    obtain ⟨g', _, i, _, rfl⟩ := (mem_marked h).1 ⟨hkey, hmark⟩
    rw [replace_expertKey]
    exact mark_expertName g' i
  simp only [Function.comp_apply, P, ofGroup, hmark]

/-- The experts of a layer and kind that are merged are those of some order. -/
theorem names_eq_map (hnames : ts.map Safetensor.name = keys.map MixtralModel.replacements.replace)
    (h : p.Spread groups keys) {g : Nat × ExpertKind} {I : List Nat}
    (hI : keys.filter (ofGroup p g) = I.map (expertKey g)) :
    ((ts.filter (fun st => expertMark <:+: st.name)).filter (fun st => p.namer.replace st.name = mergedName g)).map
      Safetensor.name = I.map (expertName g) := by
  rw [names_ofGroup hnames h g, hI, List.map_map]
  exact List.map_congr_left (fun i _ => replace_expertKey g i)

theorem merge_spec {n : Bytes} {e : List Safetensor} {o : Output} (h : merge n e = some o) :
    e ≠ [] ∧ o.name = n ∧ o.shape.head? = some (UInt64.ofNat e.length) ∧ o.writerTo = .experts e := by
  cases e with
  | nil => nomatch h
  | cons st e =>
    obtain rfl := Option.some.inj h
    exact ⟨List.cons_ne_nil _ _, rfl, rfl, rfl⟩

theorem exists_merge (n : Bytes) {e : List Safetensor} (h : e ≠ []) : ∃ o, merge n e = some o := by
  cases e with
  | nil => exact (h rfl).elim
  | cons st e => exact ⟨_, rfl⟩

/-- The other tensors have no experts. -/
theorem not_experts_of_mem_llama {q : LlamaModel} {ts : List Safetensor} {o : Output} (h : o ∈ q.tensors ts)
    (e : List Safetensor) :
    o.writerTo ≠ .experts e := by
  rw [LlamaModel.tensors, List.mem_append, List.mem_map] at h
  rcases h with h | ⟨st, _, rfl⟩
  · split at h
    · exact (List.not_mem_nil h).elim
    · obtain rfl := List.mem_singleton.1 h
      exact nofun
  · exact nofun

/-- A merged tensor is that of the experts whose names have its name in common. -/
theorem merged_iff {o : Output} {e : List Safetensor} : o ∈ p.tensors ts ∧ o.writerTo = .experts e ↔
    e = (ts.filter (fun st => expertMark <:+: st.name)).filter (fun st => p.namer.replace st.name = o.name) ∧
      merge o.name e = some o := by
  rw [MixtralModel.tensors, List.mem_append, List.mem_filterMap]
  constructor
  · rintro ⟨⟨ne, hne, hmerge⟩ | hllama, hwriter⟩
    · obtain ⟨n, e'⟩ := ne
      obtain ⟨_, rfl, _, hwriter'⟩ := merge_spec hmerge
      obtain rfl := Writer.experts.inj (hwriter.symm.trans hwriter')
      exact ⟨(Assoc.mem_group_iff.1 hne).1, hmerge⟩
    · exact (not_experts_of_mem_llama hllama e hwriter).elim
  · rintro ⟨he, hmerge⟩
    obtain ⟨hne, _, _, hwriter⟩ := merge_spec hmerge
    exact ⟨Or.inl ⟨(o.name, e), Assoc.mem_group_iff.2 ⟨he, hne⟩, hmerge⟩, hwriter⟩

/-- A merged tensor has the name of a layer and kind. -/
theorem exists_group (hnames : ts.map Safetensor.name = keys.map MixtralModel.replacements.replace)
    (h : p.Spread groups keys) {name : Bytes} {st : Safetensor} (hst : st ∈ ts) (hmark : expertMark <:+: st.name)
    (hname : p.namer.replace st.name = name) :
    ∃ g ∈ groups, name = mergedName g := by
  have hmem : st.name ∈ keys.map MixtralModel.replacements.replace := hnames ▸ List.mem_map_of_mem hst
  obtain ⟨key, hkey, heq⟩ := List.mem_map.1 hmem
  obtain ⟨g, hg, i, hi, rfl⟩ := (mem_marked h).1 ⟨hkey, mark_of_mark_replace (heq ▸ hmark)⟩
  rw [replace_expertKey] at heq
  exact ⟨g, hg, by rw [← hname, ← heq, replace_expertName p g hi]⟩

/-- What experts write one after the other. -/
theorem writeTo_experts {floats : Floats} {maxAlloc : Nat} {fsys : FS} {e : List Safetensor} {data : Bytes → Bytes}
    (h : ∀ st ∈ e, st.writeTo floats maxAlloc fsys = .ok (data st.name)) :
    (Writer.experts e).writeTo floats maxAlloc fsys = .ok ((e.map Safetensor.name).flatMap data) := by
  have hmap : e.mapM (Safetensor.writeTo floats maxAlloc fsys) = .ok (e.map (fun st => data st.name)) := by
    induction e with
    | nil => rfl
    | cons st e ih =>
      rw [List.forall_mem_cons] at h
      rw [List.mapM_cons, h.1, ih h.2]
      rfl
  rw [Writer.writeTo, hmap, List.flatMap_map]
  rfl

/-- The names of the tensors that are read. -/
theorem names_of_parse {u : Json.Unmarshal Headers} {maxAlloc : Nat} {fsys : FS} {ps : List Bytes}
    (hps : matched fsys = some ps) (hts : parseTensors u maxAlloc fsys MixtralModel.replacements = some (.ok ts)) :
    ts.map Safetensor.name = (ps.flatMap (fsys.keys u maxAlloc)).map MixtralModel.replacements.replace := by
  rw [parseTensors, hps, Option.map_some, Option.some.injEq] at hts
  rcases parseSafetensors_cases u maxAlloc fsys MixtralModel.replacements ps with ⟨tss, hok, _, htss⟩ |
    ⟨_, _, _, _, herr, _⟩
  · rw [hok, Except.ok.injEq] at hts
    rw [← hts, map_name_flatten htss, List.map_flatMap]
    exact List.flatMap_congr (fun q _ => FS.names_eq u maxAlloc fsys _ q)
  · rw [herr] at hts
    nomatch hts

variable {floats : Floats} {maxAlloc : Nat} {fsys : FS} {files : Bytes → List Bytes} {ps : List Bytes}

/-- Merged experts that are in the order of their numbers were so in the files. -/
theorem ordered_of_stacked (hsorted : ∀ q, (files q).Pairwise (· < ·))
    (hnames : ts.map Safetensor.name = (ps.flatMap files).map MixtralModel.replacements.replace)
    (hspread : p.Spread groups (ps.flatMap files))
    (hstacked : p.Stacked floats maxAlloc fsys groups (p.tensors ts)) : Ordered files ps groups := by
  have hnumbers : ∀ g ∈ groups, (∀ q ∈ ps, ∀ i j, i < j → expertKey g i ∈ files q → expertKey g j ∈ files q →
        decimal i < decimal j) ∧
      ps.Pairwise (fun q r => ∀ i j, expertKey g i ∈ files q → expertKey g j ∈ files r → i < j) := by
    intro g hg
    obtain ⟨I, hperm, hI⟩ := exists_numbers hspread hg
    rw [← pairwise_numbers hsorted hspread hg hI]
    by_cases hn : 0 < p.numLocalExperts.toNat
    · obtain ⟨o, ho, hname, e, hwriter⟩ := hstacked.merged g hg hn
      obtain ⟨g', _, hname', _, horder, _⟩ := hstacked.order o ho e hwriter
      obtain rfl := mergedName_inj (hname.symm.trans hname')
      rw [(merged_iff.1 ⟨ho, hwriter⟩).1, hname, names_eq_map hnames hspread hI] at horder
      exact (eq_range_iff hperm).1 (List.map_injective_iff.2 (expertName_injective g) horder)
    · have hnil : I = [] := by
        have := hperm.length_eq
        rw [List.length_range] at this
        exact List.length_eq_zero_iff.1 (by omega)
      rw [hnil]
      exact List.Pairwise.nil
  exact ⟨fun g hg => (hnumbers g hg).1, fun g hg => (hnumbers g hg).2⟩

/-- Experts that are in the order of their numbers in the files are merged in it. -/
theorem stacked_of_ordered (hsorted : ∀ q, (files q).Pairwise (· < ·))
    (hnames : ts.map Safetensor.name = (ps.flatMap files).map MixtralModel.replacements.replace)
    (hspread : p.Spread groups (ps.flatMap files)) (hordered : Ordered files ps groups) :
    p.Stacked floats maxAlloc fsys groups (p.tensors ts) := by
  have hmerged : ∀ g ∈ groups, ((ts.filter (fun st => expertMark <:+: st.name)).filter
      (fun st => p.namer.replace st.name = mergedName g)).map Safetensor.name =
        (List.range p.numLocalExperts.toNat).map (expertName g) := by
    intro g hg
    obtain ⟨I, hperm, hI⟩ := exists_numbers hspread hg
    have hpairwise := (pairwise_numbers hsorted hspread hg hI).2 ⟨hordered.within g hg, hordered.across g hg⟩
    rw [names_eq_map hnames hspread hI, (eq_range_iff hperm).2 hpairwise]
  refine ⟨fun g hg hn => ?_, fun o ho e hwriter => ?_⟩
  · have hlength := congrArg List.length (hmerged g hg)
    rw [List.length_map, List.length_map, List.length_range] at hlength
    obtain ⟨o, ho⟩ := exists_merge (mergedName g) (List.ne_nil_of_length_pos (hlength ▸ hn))
    obtain ⟨_, hname, _, hwriter⟩ := merge_spec ho
    exact ⟨o, (merged_iff.2 ⟨by rw [hname], by rw [hname]; exact ho⟩).1, hname, _, hwriter⟩
  · obtain ⟨he, hmerge⟩ := merged_iff.1 ⟨ho, hwriter⟩
    obtain ⟨hne, _, hshape, _⟩ := merge_spec hmerge
    obtain ⟨st, hst⟩ := List.exists_mem_of_ne_nil e hne
    have hst' := hst
    rw [he, List.mem_filter, List.mem_filter, decide_eq_true_eq, decide_eq_true_eq] at hst'
    obtain ⟨g, hg, hname⟩ := exists_group hnames hspread hst'.1.1 hst'.1.2 hst'.2
    have horder := hmerged g hg
    rw [← hname, ← he] at horder
    have hlength := congrArg List.length horder
    rw [List.length_map, List.length_map, List.length_range] at hlength
    refine ⟨g, hg, hname, hlength ▸ hshape, horder, fun data hdata => ?_⟩
    rw [hwriter, writeTo_experts hdata, horder, List.flatMap_map]

end

end ExpertsAux

open ExpertsAux

/-- The experts of each layer and kind are merged in the order of their numbers exactly if the files have them in this
order. -/
theorem experts_stacked_iff (u : Json.Unmarshal Headers) (floats : Floats) (maxAlloc : Nat) (fsys : FS)
    (p : MixtralModel) {ps : List Bytes} (hps : matched fsys = some ps) {ts : List Safetensor}
    (hts : parseTensors u maxAlloc fsys MixtralModel.replacements = some (.ok ts)) {groups : List (Nat × ExpertKind)}
    (hspread : p.Spread groups (ps.flatMap (fsys.keys u maxAlloc))) :
    p.Stacked floats maxAlloc fsys groups (p.tensors ts) ↔ Ordered (fsys.keys u maxAlloc) ps groups := by
  have hsorted := FS.keys_sorted u maxAlloc fsys
  have hnames := names_of_parse hps hts
  exact ⟨ordered_of_stacked hsorted hnames hspread, stacked_of_ordered hsorted hnames hspread⟩

namespace ExpertsAux

/-! ## One file -/

/-- The entry of an expert of layer 0, with one number. -/
def entry (i : Nat) : Entry :=
  (expertKey (0, .w1) i, { dtype := ascii "F32", shape := [1], offsets := [4 * i, 4 * i + 4] })

/-- The entry in a file. -/
def entryText (i : Nat) : Bytes :=
  ascii "\x22" ++ expertKey (0, .w1) i ++
    ascii "\x22:\x7b\x22dtype\x22:\x22F32\x22,\x22shape\x22:[1],\x22data_offsets\x22:[" ++
    decimal (4 * i) ++ ascii "," ++ decimal (4 * i + 4) ++ ascii "]\x7d"

/-- The header of so many experts. -/
def expertHeaders (n : Nat) : Headers where
  entries := (List.range n).map entry
  nodup := by
    rw [List.map_map]
    exact List.nodup_range.map (expertKey_injective (0, .w1))

/-- The header in a file. -/
def headerText (n : Nat) : Bytes :=
  ascii "\x7b" ++ (ascii ",").intercalate ((List.range n).map entryText) ++ ascii "\x7d"

/-- A directory with one file of so many experts, without their data. -/
def expertFile (n : Nat) : FS where
  entries := [(ascii "model.safetensors", { bytes := le 8 (headerText n).length ++ (headerText n ++ []) })]
  sorted := List.pairwise_singleton _ _

/-- The decoder of this header. -/
def headerDecoder (n : Nat) : Json.Unmarshal Headers where
  run v := if v.dropWhile Json.isSpace = headerText n then .ok (expertHeaders n) else .ok ⟨[], List.nodup_nil⟩
  offset_pos v offset h := by split at h <;> nomatch h
  offset_le v offset h := by split at h <;> nomatch h
  space w v hw := by
    have hdrop : (w ++ v).dropWhile Json.isSpace = v.dropWhile Json.isSpace :=
      List.dropWhile_append_of_pos (fun b hb => List.all_eq_true.1 hw b hb)
    rw [hdrop]
    split <;> rfl

theorem matched_expertFile (n : Nat) : matched (expertFile n) = some [ascii "model.safetensors"] := by
  rfl

/-- What is read of the file, if its header is a text that is read completely. -/
theorem headers_expertFile {n maxAlloc : Nat} (hscan : Json.scan (headerText n) = .value (headerText n).length)
    (hlength : (headerText n).length < 2 ^ 63) (halloc : (headerText n).length ≤ maxAlloc) :
    (expertFile n).headers (headerDecoder n) maxAlloc (ascii "model.safetensors") =
      some (((headerText n).length : Int), expertHeaders n) := by
  have hopen : (expertFile n).open (ascii "model.safetensors") =
    some { bytes := le 8 (headerText n).length ++ (headerText n ++ []) } := by
    rfl
  have hrun : (headerDecoder n).run (headerText n) = .ok (expertHeaders n) := by
    have hspace : (headerText n).dropWhile Json.isSpace = headerText n := by
      rw [headerText, List.append_assoc]
      exact List.dropWhile_cons_of_neg (by decide)
    simp only [headerDecoder, hspace, if_true]
  have hdecode : Json.decode (headerDecoder n) (headerText n) = .ok (expertHeaders n) (headerText n).length := by
    simp only [Json.decode, hscan, List.take_length, hrun]
  exact FS.headers_of_read hopen (readHeaders_append hlength halloc hdecode)

/-- The typed entries are all of them. -/
theorem typed_perm (n : Nat) : (expertHeaders n).typed.Perm ((List.range n).map entry) := by
  have hall : (expertHeaders n).typed = (expertHeaders n).sorted := by
    refine List.filter_eq_self.2 (fun e he => ?_)
    rw [Headers.sorted, List.mem_mergeSort] at he
    obtain ⟨i, _, rfl⟩ := List.mem_map.1 he
    rfl
  rw [hall]
  exact List.mergeSort_perm _ _

theorem accepted_expertHeaders (n : Nat) : Accepted MixtralModel.replacements (expertHeaders n).typed := by
  have hperm := typed_perm n
  refine ⟨fun e he => ?_, fun e he => ?_, fun _ _ => List.not_mem_nil, ?_⟩
  · obtain ⟨i, _, rfl⟩ := List.mem_map.1 (hperm.subset he)
    exact List.cons_ne_nil _ _
  · obtain ⟨i, _, rfl⟩ := List.mem_map.1 (hperm.subset he)
    exact Nat.le_refl 2
  · refine (hperm.map _).nodup_iff.2 ?_
    rw [List.map_map]
    have hname : (fun e : Entry => MixtralModel.replacements.replace e.1) ∘ entry = expertName (0, .w1) :=
      funext (fun i => replace_expertKey (0, .w1) i)
    rw [hname]
    exact List.nodup_range.map (expertName_injective (0, .w1))

/-- The file is read, and its experts are those of layer 0 and the first kind. -/
theorem read_expertFile {p : MixtralModel} {n maxAlloc : Nat} (hn : p.numLocalExperts.toNat = n)
    (hscan : Json.scan (headerText n) = .value (headerText n).length) (hlength : (headerText n).length < 2 ^ 63)
    (halloc : (headerText n).length ≤ maxAlloc) :
    (∃ ts, parseTensors (headerDecoder n) maxAlloc (expertFile n) MixtralModel.replacements = some (.ok ts)) ∧
    p.Spread [(0, .w1)] ([ascii "model.safetensors"].flatMap ((expertFile n).keys (headerDecoder n) maxAlloc)) := by
  have hheaders := headers_expertFile hscan hlength halloc
  constructor
  · have hvalid : ∀ q ∈ [ascii "model.safetensors"],
      (expertFile n).Valid (headerDecoder n) maxAlloc MixtralModel.replacements q := by
      intro q hq
      obtain rfl := List.mem_singleton.1 hq
      exact ⟨_, _, hheaders, accepted_expertHeaders n⟩
    obtain ⟨tss, hok, _⟩ := parseSafetensors_ok hvalid
    exact ⟨tss.flatten, by rw [parseTensors, matched_expertFile, Option.map_some, hok]⟩
  · have hkeys : ((expertFile n).keys (headerDecoder n) maxAlloc (ascii "model.safetensors")).Perm
        ((List.range n).map (expertKey (0, .w1))) := by
      have hperm := (typed_perm n).map Prod.fst
      rw [List.map_map] at hperm
      rw [FS.keys_of_headers hheaders]
      exact hperm
    refine ⟨List.nodup_singleton _, ?_⟩
    rw [List.flatMap_singleton, List.flatMap_singleton, hn]
    have hmarked := hkeys.filter (fun key => decide (expertMark <:+: key))
    have hall : ((List.range n).map (expertKey (0, .w1))).filter (fun key => expertMark <:+: key) =
        (List.range n).map (expertKey (0, .w1)) := by
      refine List.filter_eq_self.2 (fun key hkey => ?_)
      obtain ⟨i, _, rfl⟩ := List.mem_map.1 hkey
      exact decide_eq_true (mark_expertKey (0, .w1) i)
    rwa [hall] at hmarked

/-- The experts in the file. -/
theorem mem_expertFile {n maxAlloc i : Nat} (hscan : Json.scan (headerText n) = .value (headerText n).length)
    (hlength : (headerText n).length < 2 ^ 63) (halloc : (headerText n).length ≤ maxAlloc) :
    expertKey (0, .w1) i ∈ (expertFile n).keys (headerDecoder n) maxAlloc (ascii "model.safetensors") ↔ i < n := by
  rw [FS.keys_of_headers (headers_expertFile hscan hlength halloc), ((typed_perm n).map Prod.fst).mem_iff,
    List.map_map, ← List.mem_range]
  exact List.mem_map_of_injective (expertKey_injective (0, .w1))

end ExpertsAux

/-- A model with so many experts and no repacking. -/
def plainModel (n : UInt32) : MixtralModel := ⟨⟨[], fun _ f32s _ => .ok f32s⟩, n⟩

/-- The floating-point packages, with a conversion that keeps 16 bits. -/
def plainFloats : Floats := ⟨UInt16.toUInt32, UInt32.toUInt16, upperBytes⟩

/-- Two experts in one file are in order. -/
theorem experts_stacked_two :
    ∃ ts, parseTensors (headerDecoder 2) (2 ^ 48) (expertFile 2) MixtralModel.replacements = some (.ok ts) ∧
    (plainModel 2).Stacked plainFloats (2 ^ 48) (expertFile 2) [(0, .w1)] ((plainModel 2).tensors ts) := by
  have hscan : Json.scan (headerText 2) = .value (headerText 2).length := by decide +kernel
  have hlength : (headerText 2).length < 2 ^ 63 := by decide +kernel
  have halloc : (headerText 2).length ≤ 2 ^ 48 := by decide +kernel
  have hn : (plainModel 2).numLocalExperts.toNat = 2 := rfl
  obtain ⟨⟨ts, hts⟩, hspread⟩ := read_expertFile hn hscan hlength halloc
  refine ⟨ts, hts, (experts_stacked_iff _ _ _ _ _ (matched_expertFile 2) hts hspread).2 ⟨?_, ?_⟩⟩
  · intro g hg q hq i j hij hi hj
    obtain rfl := List.mem_singleton.1 hg
    obtain rfl := List.mem_singleton.1 hq
    rw [mem_expertFile hscan hlength halloc] at hi hj
    obtain ⟨rfl, rfl⟩ : i = 0 ∧ j = 1 := by omega
    decide
  · exact fun g hg => List.pairwise_singleton _ _

/-- With eleven experts in one file, the one with number 10 is third. -/
theorem experts_eleven :
    ¬∀ (u : Json.Unmarshal Headers) (floats : Floats) (maxAlloc : Nat) (fsys : FS) (p : MixtralModel)
    (ps : List Bytes) (ts : List Safetensor) (groups : List (Nat × ExpertKind)), matched fsys = some ps →
    parseTensors u maxAlloc fsys MixtralModel.replacements = some (.ok ts) →
      p.Spread groups (ps.flatMap (fsys.keys u maxAlloc)) →
    p.Stacked floats maxAlloc fsys groups (p.tensors ts) := by
  intro h
  have hscan : Json.scan (headerText 11) = .value (headerText 11).length := by decide +kernel
  have hlength : (headerText 11).length < 2 ^ 63 := by decide +kernel
  have halloc : (headerText 11).length ≤ 2 ^ 48 := by decide +kernel
  have hn : (plainModel 11).numLocalExperts.toNat = 11 := rfl
  obtain ⟨⟨ts, hts⟩, hspread⟩ := read_expertFile hn hscan hlength halloc
  have hstacked := h _ plainFloats _ _ _ _ _ _ (matched_expertFile 11) hts hspread
  have hordered := ordered_of_stacked (FS.keys_sorted _ _ _)
    (names_of_parse (matched_expertFile 11) hts) hspread hstacked
  have hdigits := hordered.within _ (List.mem_singleton_self _) _ (List.mem_singleton_self _) 2 10 (by decide)
    ((mem_expertFile hscan hlength halloc).2 (by decide)) ((mem_expertFile hscan hlength halloc).2 (by decide))
  exact absurd hdigits (by decide)

end Ollama.Convert
