import Ollama.Convert.Mixtral
import Ollama.Convert.Lemmas.Safetensors

/-!
# The names of experts

What the replacers make of the name of an expert's tensor (`replace_expertKey`, `replace_expertName`), and how such
names are ordered.
-/

namespace Ollama.Convert

open Lib Replacer

/-- The kinds of an expert's tensors. -/
inductive ExpertKind where
  | w1
  | w2
  | w3
  deriving DecidableEq, Repr

/-- The kind in the name of an expert's tensor. -/
def ExpertKind.text : ExpertKind → Bytes
  | .w1 => ascii "w1"
  | .w2 => ascii "w2"
  | .w3 => ascii "w3"

/-- The kind in the name of a merged tensor. -/
def ExpertKind.ffn : ExpertKind → Bytes
  | .w1 => ascii "ffn_gate_exps"
  | .w2 => ascii "ffn_down_exps"
  | .w3 => ascii "ffn_up_exps"

/-- What follows the layer in the name of an expert's tensor. -/
def expertTail (kind : ExpertKind) (e : Nat) : Bytes :=
  expertMark ++ (decimal e ++ 0x2E :: (kind.text ++ ascii ".weight"))

/-- `model.layers.%d.block_sparse_moe.experts.%d.w%d.weight`, for a layer and kind and an expert. -/
def expertKey (g : Nat × ExpertKind) (e : Nat) : Bytes :=
  ascii "model.layers" ++ (0x2E :: decimal g.1 ++ expertTail g.2 e)

/-- The name of the tensor when it has been read. -/
def expertName (g : Nat × ExpertKind) (e : Nat) : Bytes := ascii "blk" ++ (0x2E :: decimal g.1 ++ expertTail g.2 e)

/-- The name of the merged tensor of a layer and kind. -/
def mergedName (g : Nat × ExpertKind) : Bytes :=
  ascii "blk" ++ (0x2E :: decimal g.1 ++ 0x2E :: (g.2.ffn ++ ascii ".weight"))

example : expertKey (0, .w2) 10 = ascii "model.layers.0.block_sparse_moe.experts.10.w2.weight" := by decide

namespace ExpertsAux

/-! ## Replacing -/

/-- A number is kept if the old texts do not begin with digits. -/
theorem inert_decimal {oldnew : Replacer} (h : ∀ e ∈ oldnew, e.1.head?.any (fun a => ¬(0x30 ≤ a ∧ a ≤ 0x39)) = true)
    (n : Nat) :
    inert oldnew (decimal n) = true := by
  refine inert_of_heads (fun e he => ?_)
  have hany := h e he
  rcases hold : e.1 with _ | ⟨a, old⟩
  · rw [hold] at hany
    nomatch hany
  · rw [hold, List.head?_cons, Option.any_some, decide_eq_true_eq] at hany
    rw [List.head?_cons, Option.any_some, decide_eq_true_eq]
    exact fun hmem => hany (digit_of_mem_decimal hmem)

/-- Reading the name of an expert's tensor only replaces the name of the layers. -/
theorem replace_expertKey (g : Nat × ExpertKind) (e : Nat) :
    MixtralModel.replacements.replace (expertKey g e) = expertName g e := by
  have hheads : ∀ e ∈ MixtralModel.replacements, e.1.head?.any (fun a => ¬(0x30 ≤ a ∧ a ≤ 0x39)) = true := by decide
  have hlookup : MixtralModel.replacements.lookup (expertKey g e) = some (ascii "model.layers", ascii "blk") :=
    lookup_of_before (MixtralModel.replacements.take 3) (MixtralModel.replacements.drop 4)
      (lookup_eq_none_of_clash (by decide) _) (by decide) (List.prefix_append _ _)
  have hkind : inert MixtralModel.replacements (0x2E :: (g.2.text ++ ascii ".weight")) = true := by
    cases g.2 <;> decide
  have hmark : inert MixtralModel.replacements expertMark = true := by decide
  have hdot : inert MixtralModel.replacements [0x2E] = true := by decide
  have htail : inert MixtralModel.replacements (0x2E :: decimal g.1 ++ expertTail g.2 e) = true :=
    inert_append (inert_append hdot (inert_decimal hheads g.1))
      (inert_append hmark (inert_append (inert_decimal hheads e) hkind))
  rw [expertKey, replace_append_of_some hlookup, replace_of_inert htail, expertName]

/-- What is replaced in the name of an expert's tensor. -/
def fixed : Replacer :=
  [(ascii "model.layers", ascii "blk"), (ascii "w1", ascii "ffn_gate_exps"), (ascii "w2", ascii "ffn_down_exps"),
   (ascii "w3", ascii "ffn_up_exps")]

/-- The old text of an expert. -/
def expertOld (e : Nat) : Bytes := expertMark ++ (decimal e ++ [0x2E])

/-- What is replaced for the experts. -/
def numbered (n : Nat) : Replacer := (List.range n).map (fun i => (expertOld i, [0x2E]))

/-- The replacements are the fixed ones and those that are numbered. -/
theorem namer_eq (p : MixtralModel) : p.namer = fixed ++ numbered p.numLocalExperts.toNat := rfl

/-- What neither the fixed replacements nor the numbered ones touch is left alone. -/
theorem inert_namer {p : MixtralModel} {s : Bytes} (hfixed : inert fixed s = true)
    (h : inert (numbered p.numLocalExperts.toNat) s = true) :
    inert p.namer s = true := by
  rw [namer_eq, inert_oldnew_append, hfixed, h, Bool.true_and]

/-- The old texts of experts begin with a dot. -/
theorem inert_numbered {s : Bytes} (h : 0x2E ∉ s) (n : Nat) : inert (numbered n) s = true := by
  refine inert_of_heads (fun e he => ?_)
  obtain ⟨i, _, rfl⟩ := List.mem_map.1 he
  have hhead : (expertOld i).head? = some 0x2E := rfl
  simpa [hhead] using h

/-- After the dot they have another byte than a digit or the beginning of `weight`. -/
theorem inert_numbered_dot {c : UInt8} {s : Bytes} (hc : c ≠ 0x62) (h : 0x2E ∉ c :: s) (n : Nat) :
    inert (numbered n) (0x2E :: c :: s) = true := by
  rw [inert, inert_numbered h, Bool.and_true, List.all_eq_true]
  intro e he
  obtain ⟨i, _, rfl⟩ := List.mem_map.1 he
  have hclash : clash expertMark (0x2E :: c :: s) = true := by
    have hne : (0x62 : UInt8) ≠ c := hc.symm
    obtain ⟨rest, hrest⟩ : ∃ rest, expertMark = 0x2E :: 0x62 :: rest := ⟨_, rfl⟩
    simp [hrest, clash, hne]
  exact clash_append hclash _

/-- The dot and the number of a layer are kept. -/
theorem inert_namer_layer (p : MixtralModel) (n : Nat) : inert p.namer (0x2E :: decimal n) = true := by
  have hdigits : ∀ e ∈ fixed, e.1.head?.any (fun a => ¬(0x30 ≤ a ∧ a ≤ 0x39)) = true := by decide
  have hdot : inert fixed [0x2E] = true := by decide
  refine inert_namer (inert_append hdot (inert_decimal hdigits n)) ?_
  have hnot : (0x2E : UInt8) ∉ decimal n := fun hmem => absurd (digit_of_mem_decimal hmem).1 (by decide)
  rcases hn : decimal n with _ | ⟨c, s⟩
  · exact (decimal_ne_nil n hn).elim
  · have hc : c ≠ 0x62 := by
      rintro rfl
      exact absurd (digit_of_mem_decimal (n := n) (by rw [hn]; exact List.mem_cons_self)).2 (by decide)
    exact inert_numbered_dot hc (hn ▸ hnot) _

/-- The number of an expert is found in a name. -/
theorem lookup_expertOld (p : MixtralModel) {e : Nat} (he : e < p.numLocalExperts.toNat) (s : Bytes) :
    p.namer.lookup (expertOld e ++ s) = some (expertOld e, [0x2E]) := by
  have hfixed : fixed.lookup (expertOld e ++ s) = none := by
    rw [expertOld, List.append_assoc]
    exact lookup_eq_none_of_clash (by decide) _
  have hnumbered : (numbered p.numLocalExperts.toNat).lookup (expertOld e ++ s) = some (expertOld e, [0x2E]) := by
    refine lookup_of_unique (List.mem_map_of_mem (List.mem_range.2 he)) (by simp [expertOld])
      (List.prefix_append _ _) ?_
    intro e' he' hold
    obtain ⟨i, _, rfl⟩ := List.mem_map.1 he'
    simp only [expertOld, List.append_assoc, List.singleton_append, List.prefix_append_right_inj] at hold
    rw [decimal_eq hold]
  rw [namer_eq, lookup_append, hfixed, hnumbered, Option.none_or]

/-- The kind is found in a name. -/
theorem lookup_text (p : MixtralModel) (kind : ExpertKind) (s : Bytes) :
    p.namer.lookup (kind.text ++ s) = some (kind.text, kind.ffn) := by
  cases kind with
  | w1 =>
    have hbefore : lookup (fixed.take 1) (ExpertKind.w1.text ++ s) = none := lookup_eq_none_of_clash (by decide) s
    exact lookup_of_before (fixed.take 1) (fixed.drop 2 ++ numbered _) hbefore (by decide) (List.prefix_append _ _)
  | w2 =>
    have hbefore : lookup (fixed.take 2) (ExpertKind.w2.text ++ s) = none := lookup_eq_none_of_clash (by decide) s
    exact lookup_of_before (fixed.take 2) (fixed.drop 3 ++ numbered _) hbefore (by decide) (List.prefix_append _ _)
  | w3 =>
    have hbefore : lookup (fixed.take 3) (ExpertKind.w3.text ++ s) = none := lookup_eq_none_of_clash (by decide) s
    exact lookup_of_before (fixed.take 3) (fixed.drop 4 ++ numbered _) hbefore (by decide) (List.prefix_append _ _)

/-- The name of a merged tensor is what all experts of a layer and kind have in common. -/
theorem replace_expertName (p : MixtralModel) (g : Nat × ExpertKind) {e : Nat} (he : e < p.numLocalExperts.toNat) :
    p.namer.replace (expertName g e) = mergedName g := by
  have hblk : inert p.namer (ascii "blk") = true := inert_namer (by decide) (inert_numbered (by decide) _)
  have hweight : inert p.namer (ascii ".weight") = true :=
    inert_namer (by decide) (inert_numbered_dot (by decide) (by decide) _)
  have htail : expertTail g.2 e = expertOld e ++ (g.2.text ++ ascii ".weight") := by simp [expertTail, expertOld]
  rw [expertName, mergedName, htail, replace_append_of_inert hblk, replace_append_of_inert (inert_namer_layer p g.1),
    replace_append_of_some (lookup_expertOld p he _), replace_append_of_some (lookup_text p g.2 _),
    replace_of_inert hweight]
  simp

/-! ## Names of experts -/

/-- Reading a file makes no name of an expert's tensor from another name. -/
theorem mark_of_mark_replace {key : Bytes} (h : expertMark <:+: MixtralModel.replacements.replace key) :
    expertMark <:+: key :=
  infix_of_infix_replace (by decide) (c := 0x2E) (by decide) (by decide) (by decide) h

/-- The name of an expert's tensor in the checkpoint has the mark of experts. -/
theorem mark_expertKey (g : Nat × ExpertKind) (e : Nat) : expertMark <:+: expertKey g e :=
  ⟨ascii "model.layers" ++ 0x2E :: decimal g.1, decimal e ++ 0x2E :: (g.2.text ++ ascii ".weight"),
    by simp [expertKey, expertTail]⟩

/-- The new name of an expert's tensor has the mark of experts. -/
theorem mark_expertName (g : Nat × ExpertKind) (e : Nat) : expertMark <:+: expertName g e :=
  ⟨ascii "blk" ++ 0x2E :: decimal g.1, decimal e ++ 0x2E :: (g.2.text ++ ascii ".weight"),
    by simp [expertName, expertTail]⟩

/-- A number before a dot is the same in equal texts. -/
theorem decimal_append_inj {m n : Nat} {s t : Bytes} (h : decimal m ++ 0x2E :: s = decimal n ++ 0x2E :: t) :
    m = n ∧ s = t := by
  have hprefix : decimal m ++ [0x2E] <+: decimal n ++ 0x2E :: t :=
    ⟨s, by rw [← h, List.append_assoc, List.singleton_append]⟩
  obtain rfl := decimal_eq hprefix
  exact ⟨rfl, by simpa using h⟩

/-- The kinds of an expert's tensors differ in the checkpoint. -/
theorem text_injective {kind kind' : ExpertKind}
    (h : kind.text ++ ascii ".weight" = kind'.text ++ ascii ".weight") : kind = kind' := by
  revert h
  cases kind <;> cases kind' <;> decide

/-- The kinds of an expert's tensors differ in the new names. -/
theorem ffn_injective {kind kind' : ExpertKind} (h : kind.ffn ++ ascii ".weight" = kind'.ffn ++ ascii ".weight") :
    kind = kind' := by
  revert h
  cases kind <;> cases kind' <;> decide

/-- What follows the number of the layer, from its first dot on. -/
theorem expertTail_eq (kind : ExpertKind) (e : Nat) :
    expertTail kind e = 0x2E :: (ascii "block_sparse_moe.experts." ++
      (decimal e ++ 0x2E :: (kind.text ++ ascii ".weight"))) := rfl

/-- A layer and what follows it. -/
theorem expertTail_inj {g g' : Nat × ExpertKind} {i j : Nat}
    (h : decimal g.1 ++ expertTail g.2 i = decimal g'.1 ++ expertTail g'.2 j) : g = g' ∧ i = j := by
  rw [expertTail_eq, expertTail_eq] at h
  obtain ⟨hlayer, h⟩ := decimal_append_inj h
  obtain ⟨hnumber, h⟩ := decimal_append_inj (List.append_cancel_left h)
  exact ⟨Prod.ext hlayer (text_injective h), hnumber⟩

/-- An expert's name in the checkpoint says which expert it is of. -/
theorem expertKey_inj {g g' : Nat × ExpertKind} {i j : Nat} (h : expertKey g i = expertKey g' j) : g = g' ∧ i = j :=
  expertTail_inj (List.cons.inj (List.append_cancel_left h)).2

/-- An expert's new name says which expert it is of. -/
theorem expertName_inj {g g' : Nat × ExpertKind} {i j : Nat} (h : expertName g i = expertName g' j) : g = g' ∧ i = j :=
  expertTail_inj (List.cons.inj (List.append_cancel_left h)).2

/-- A merged name says which layer and kind it is of. -/
theorem mergedName_inj {g g' : Nat × ExpertKind} (h : mergedName g = mergedName g') : g = g' := by
  obtain ⟨hlayer, h⟩ := decimal_append_inj (List.cons.inj (List.append_cancel_left h)).2
  exact Prod.ext hlayer (ffn_injective h)

/-- The tensors of a layer and kind are ordered by the digits of their experts. -/
theorem expertKey_lt_iff (g : Nat × ExpertKind) {i j : Nat} (h : i ≠ j) :
    expertKey g i < expertKey g j ↔ decimal i < decimal j := by
  have hsplit : ∀ e, expertKey g e =
      (ascii "model.layers" ++ (0x2E :: decimal g.1 ++ expertMark)) ++
      (decimal e ++ 0x2E :: (g.2.text ++ ascii ".weight")) := by
    intro e
    simp [expertKey, expertTail]
  rw [hsplit, hsplit, decimal_lt_iff h]

end ExpertsAux

/-! ## The keys of a file -/

/-- The names of the typed entries of a file, in their order. -/
def FS.keys (u : Json.Unmarshal Headers) (maxAlloc : Nat) (fsys : FS) (p : Bytes) : List Bytes :=
  match fsys.headers u maxAlloc p with
  | some (_, headers) => headers.typed.map Prod.fst
  | none => []

/-- The keys of a file are those of its headers. -/
theorem FS.keys_of_headers {u : Json.Unmarshal Headers} {maxAlloc : Nat} {fsys : FS} {p : Bytes} {n : Int}
    {headers : Headers} (h : fsys.headers u maxAlloc p = some (n, headers)) :
    fsys.keys u maxAlloc p = headers.typed.map Prod.fst := by
  rw [FS.keys, h]

/-- The names of a file's tensors are its keys, replaced. -/
theorem FS.names_eq (u : Json.Unmarshal Headers) (maxAlloc : Nat) (fsys : FS) (replacer : Replacer) (p : Bytes) :
    fsys.names u maxAlloc replacer p = (fsys.keys u maxAlloc p).map replacer.replace := by
  rcases h : fsys.headers u maxAlloc p with _ | ⟨n, headers⟩ <;> simp [FS.names, FS.keys, h]

/-- The keys increase. -/
theorem FS.keys_sorted (u : Json.Unmarshal Headers) (maxAlloc : Nat) (fsys : FS) (p : Bytes) :
    (fsys.keys u maxAlloc p).Pairwise (· < ·) := by
  unfold FS.keys
  split
  · rename_i headers _
    have hle : headers.sorted.Pairwise (fun a b => decide (a.1 ≤ b.1) = true) :=
      List.pairwise_mergeSort (fun a b c hab hbc =>
        by simpa using List.le_trans (of_decide_eq_true hab) (of_decide_eq_true hbc))
        (fun a b => by simpa using List.le_total a.1 b.1) _
    have hne : headers.sorted.Pairwise (fun a b => a.1 ≠ b.1) :=
      List.pairwise_map.1 (((List.mergeSort_perm headers.entries _).map Prod.fst).nodup_iff.2 headers.nodup)
    refine List.pairwise_map.2 (List.Pairwise.filter _ ((hle.and hne).imp ?_))
    rintro a b ⟨hab, hne⟩
    exact List.not_le.1 (fun hba => hne (List.le_antisymm (of_decide_eq_true hab) hba))
  · exact List.Pairwise.nil

end Ollama.Convert
