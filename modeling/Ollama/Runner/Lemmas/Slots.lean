import Ollama.Runner.InputCache

/-!
# What the KV cache holds for a slot

`HoldsInputs` is the correspondence of a slot and the KV cache: one row at the position of each input of the slot,
computed for it and the inputs before it. Each call of the KV cache keeps it or changes the inputs it holds for in
step. `EndsAt` says that there is nothing from a position on, which holds of the slots in use only: a slot whose
inputs were cut back may have rows behind them.
-/

namespace Ollama.Runner

open Kvcache (maxInt32)

variable {σ ρ μ : Type} {K : KvCache σ ρ μ}

/-- The KV cache holds for a sequence exactly one row at the position of each input, computed for inputs with the same
keys. -/
def HoldsInputs (K : KvCache σ ρ μ) (kv : σ) (id : Nat) (inputs : List (Input μ)) : Prop :=
  ∃ rows : List ρ, rows.length = inputs.length ∧ ∀ (k : Nat) (r : ρ) (x : Input μ), rows[k]? = some r →
    inputs[k]? = some x → K.entries kv id k = {r} ∧ Computed K r x.key ((inputs.take k).map Input.key)

/-- The KV cache holds nothing for a sequence from a position on. -/
def EndsAt (K : KvCache σ ρ μ) (kv : σ) (id n : Nat) : Prop := ∀ p : Int, (n : Int) ≤ p → K.entries kv id p = 0

theorem holdsInputs_nil (kv : σ) (id : Nat) : HoldsInputs K kv id [] := ⟨[], rfl, fun k r x hr _ => by simp at hr⟩

/-- The correspondence is about the rows below the number of inputs only. -/
theorem HoldsInputs.congr {kv kv' : σ} {id id' : Nat} {inputs : List (Input μ)} (h : HoldsInputs K kv id inputs)
    (heq : ∀ k : Nat, k < inputs.length → K.entries kv' id' k = K.entries kv id k) : HoldsInputs K kv' id' inputs := by
  obtain ⟨rows, hlen, hrows⟩ := h
  refine ⟨rows, hlen, fun k r x hr hx => ?_⟩
  rw [heq k (List.getElem?_eq_some_iff.1 hx).1]
  exact hrows k r x hr hx

/-- The first inputs of a slot. -/
theorem HoldsInputs.take {kv : σ} {id : Nat} {inputs : List (Input μ)} (h : HoldsInputs K kv id inputs) (n : Nat) :
    HoldsInputs K kv id (inputs.take n) := by
  obtain ⟨rows, hlen, hrows⟩ := h
  refine ⟨rows.take n, by simp [hlen], fun k r x hr hx => ?_⟩
  obtain ⟨hk, _⟩ := List.getElem?_eq_some_iff.1 hx
  have hkn : k < n := by
    rw [List.length_take] at hk
    omega
  rw [List.getElem?_take_of_lt hkn] at hr hx
  rw [List.take_take, Nat.min_eq_left (Nat.le_of_lt hkn)]
  exact hrows k r x hr hx

/-! ## Remove -/

/-- Everything from a position on is removed. -/
theorem HoldsInputs.truncate {kv : σ} {id : Nat} {inputs : List (Input μ)} (h : HoldsInputs K kv id inputs) {n : Nat}
    (hmax : (n : Int) ≤ maxInt32) (hok : (K.remove id n maxInt32 kv).2 = false) :
    HoldsInputs K (K.remove id n maxInt32 kv).1 id (inputs.take n) ∧ EndsAt K (K.remove id n maxInt32 kv).1 id n := by
  have hspec := K.remove_spec (by omega) hmax hok
  constructor
  · refine (h.take n).congr (fun k hk => ?_)
    rw [List.length_take] at hk
    rw [hspec, if_pos (by omega)]
  · intro p hp
    rw [hspec, if_neg (by omega), if_pos rfl]

/-- What is left after a block is cut out, and what followed it changed by `f`. -/
theorem getElem?_cut {α : Type*} (f : α → α) (l : List α) {keep discard : Nat} (h : keep + discard ≤ l.length)
    (k : Nat) :
    (l.take keep ++ (l.drop (keep + discard)).map f)[k]? = if k < keep then l[k]? else (l[k + discard]?).map f := by
  have hlen : (l.take keep).length = keep := by
    rw [List.length_take]
    omega
  by_cases hk : k < keep
  · rw [if_pos hk, List.getElem?_append_left (hlen.symm ▸ hk), List.getElem?_take_of_lt hk]
  · rw [if_neg hk, List.getElem?_append_right (by omega), hlen, List.getElem?_map, List.getElem?_drop]
    congr 2
    omega

/-- A context shift: a block of inputs is cut out of the slot and of the KV cache. -/
theorem HoldsInputs.shift {kv : σ} {id keep discard : Nat} {inputs : List (Input μ)} (h : HoldsInputs K kv id inputs)
    (hend : EndsAt K kv id inputs.length) (hle : keep + discard ≤ inputs.length)
    (hmax : (inputs.length : Int) ≤ maxInt32) (hok : (K.remove id keep (keep + discard) kv).2 = false) :
    HoldsInputs K (K.remove id keep (keep + discard) kv).1 id (inputs.take keep ++ inputs.drop (keep + discard)) ∧
      EndsAt K (K.remove id keep (keep + discard) kv).1 id (inputs.length - discard) := by
  have hspec := K.remove_spec (by omega) (by omega) hok
  obtain ⟨rows, hlen, hrows⟩ := h
  have hoff : ((keep : Int) - (keep + discard)) = -(discard : Int) := by omega
  constructor
  · refine ⟨rows.take keep ++ (rows.drop (keep + discard)).map (K.rotate (-discard)), by simp [hlen], ?_⟩
    intro k r x hr hx
    rw [← List.map_id (inputs.drop (keep + discard)), getElem?_cut _ inputs hle, Option.map_id, id_eq] at hx
    rw [getElem?_cut _ rows (hlen.symm ▸ hle)] at hr
    rw [hspec]
    by_cases hk : k < keep
    · rw [if_pos hk] at hx hr
      rw [if_pos (by omega), List.take_append_of_le_length (by rw [List.length_take]; omega), List.take_take,
        Nat.min_eq_left (Nat.le_of_lt hk)]
      exact hrows k r x hr hx
    · rw [if_neg hk] at hx hr
      rw [Option.map_eq_some_iff] at hr
      obtain ⟨r₀, hr₀, rfl⟩ := hr
      obtain ⟨hent, hcomp⟩ := hrows (k + discard) r₀ x hr₀ hx
      have hlt := (List.getElem?_eq_some_iff.1 hx).1
      refine ⟨?_, ?_⟩
      · rw [if_neg (by omega), if_neg (by omega), hoff]
        have hpos : (k : Int) + ((keep : Int) + discard - keep) = ((k + discard : Nat) : Int) := by omega
        rw [hpos, hent, Multiset.map_singleton]
      · -- the inputs before it are those kept, the block and those in between
        have hold : (inputs.take (k + discard)).map Input.key = (inputs.take keep).map Input.key ++
            ((inputs.drop keep).take discard).map Input.key ++
            ((inputs.drop (keep + discard)).take (k - keep)).map Input.key := by
          rw [← List.map_append, ← List.map_append]
          congr 1
          have h1 : k + discard = keep + (discard + (k - keep)) := by omega
          rw [h1, List.take_add, List.append_assoc]
          congr 1
          rw [List.take_add, List.drop_drop]
        have hnew : ((inputs.take keep ++ inputs.drop (keep + discard)).take k).map Input.key =
            (inputs.take keep).map Input.key ++ ((inputs.drop (keep + discard)).take (k - keep)).map Input.key := by
          rw [← List.map_append]
          congr 1
          have hlk : (inputs.take keep).length = keep := by
            rw [List.length_take]
            omega
          rw [List.take_append, hlk, List.take_take, Nat.min_eq_right (by omega)]
        rw [hold] at hcomp
        rw [hnew]
        have hdl : (((inputs.drop keep).take discard).map Input.key).length = discard := by
          rw [List.length_map, List.length_take, List.length_drop]
          omega
        have := Computed.shift _ _ _ hcomp
        rwa [hdl] at this
  · intro p hp
    rw [hspec, if_neg (by omega)]
    split
    · rfl
    · rw [hend _ (by omega), Multiset.map_zero]

/-! ## Forward -/

/-- The elements of a batch for the inputs that follow the first `n` of a slot. -/
def pendingRows (id : Nat) : Nat → List (Input μ) → List (BatchRow μ)
  | _, [] => []
  | n, x :: pending => ⟨x, n, id⟩ :: pendingRows id (n + 1) pending

theorem pendingRows_concat (id n : Nat) (pending : List (Input μ)) (x : Input μ) :
    pendingRows id n (pending ++ [x]) = pendingRows id n pending ++ [⟨x, n + pending.length, id⟩] := by
  induction pending generalizing n with
  | nil => simp [pendingRows]
  | cons y pending ih =>
    simp only [List.cons_append, pendingRows, ih, List.length_cons]
    congr 4
    omega

theorem pendingRows_eq_nil_iff {id n : Nat} {pending : List (Input μ)} :
    pendingRows id n pending = [] ↔ pending = [] := by
  cases pending with
  | nil => simp [pendingRows]
  | cons x pending => simp [pendingRows]

theorem length_pendingRows (id n : Nat) (pending : List (Input μ)) :
    (pendingRows id n pending).length = pending.length := by
  induction pending generalizing n with
  | nil => rfl
  | cons x pending ih => simp [pendingRows, ih]

/-- The element at a position: there is one for each input. -/
theorem filter_pendingRows (id n : Nat) (pending : List (Input μ)) (p : Int) :
    (pendingRows id n pending).filter (fun x => x.pos = p) =
      if (n : Int) ≤ p then ((pending[(p - n).toNat]?).map (fun x => (⟨x, p, id⟩ : BatchRow μ))).toList else [] := by
  induction pending generalizing n with
  | nil => simp [pendingRows]
  | cons x pending ih =>
    simp only [pendingRows, List.filter_cons, ih, decide_eq_true_eq]
    by_cases hp : (n : Int) = p
    · subst hp
      rw [if_pos rfl, if_neg (by omega), if_pos (Int.le_refl _), Int.sub_self]
      rfl
    · rw [if_neg hp]
      by_cases hle : (n : Int) ≤ p
      · have hidx : (p - n).toNat = (p - ((n + 1 : Nat) : Int)).toNat + 1 := by omega
        rw [if_pos (by omega), if_pos hle, hidx, List.getElem?_cons_succ]
      · rw [if_neg (by omega), if_neg hle]

/-- The rows of a slot after a forward pass: those it had, and one for each input of the batch. -/
theorem forward_entries {batch : List (BatchRow μ)} {kv kv' : σ} {row : BatchRow μ → ρ} {id n : Nat}
    {pending : List (Input μ)} (hspec : ∀ seq p, K.entries kv' seq p =
      K.entries kv seq p + ((batch.filter (fun x => x.seq = seq ∧ x.pos = p)).map row : List ρ))
    (hbatch : batch.filter (fun x => x.seq = id) = pendingRows id n pending) (p : Int) :
    K.entries kv' id p = K.entries kv id p + (if (n : Int) ≤ p then
      ((pending[(p - n).toNat]?).map (fun x => row ⟨x, p, id⟩)).toList else [] : List ρ) := by
  have hfilter : batch.filter (fun x => x.seq = id ∧ x.pos = p) =
    (batch.filter (fun x => x.seq = id)).filter (fun x => x.pos = p) := by
    rw [List.filter_filter]
    congr 1
    funext x
    rw [Bool.decide_and, Bool.and_comm]
  rw [hspec, hfilter, hbatch, filter_pendingRows]
  congr 2
  split
  · cases pending[(p - n).toNat]? <;> rfl
  · rfl

/-- A forward pass with elements for the inputs that follow those of a slot. -/
theorem HoldsInputs.forward {kv kv' : σ} {id : Nat} {inputs pending : List (Input μ)} {batch : List (BatchRow μ)}
    (h : HoldsInputs K kv id inputs) (hend : EndsAt K kv id inputs.length)
    (hbatch : batch.filter (fun x => x.seq = id) = pendingRows id inputs.length pending)
    (hf : K.forward batch kv = some kv') :
    HoldsInputs K kv' id (inputs ++ pending) ∧ EndsAt K kv' id (inputs ++ pending).length := by
  obtain ⟨row, hspec, hcompute⟩ := K.forward_spec hf
  have hent := forward_entries hspec hbatch
  constructor
  · -- one input of the batch after the other, since each row is computed from those before it
    have hprefix : ∀ m, m ≤ pending.length → HoldsInputs K kv' id (inputs ++ pending.take m) := by
      intro m
      induction m with
      | zero =>
        intro _
        rw [List.take_zero, List.append_nil]
        refine h.congr (fun k hk => ?_)
        rw [hent, if_neg (by omega)]
        exact Multiset.add_zero _
      | succ m ih =>
        intro hm
        obtain ⟨rows, hlen, hrows⟩ := ih (by omega)
        have hlt : m < pending.length := by omega
        have hlen' : rows.length = inputs.length + m := by
          rw [hlen, List.length_append, List.length_take]
          omega
        have htake : pending.take (m + 1) = pending.take m ++ [pending[m]] := List.take_succ_eq_append_getElem hlt
        generalize hx : (⟨pending[m], (inputs.length + m : Nat), id⟩ : BatchRow μ) = x
        have hmem : x ∈ batch := by
          have hin : x ∈ batch.filter (fun y => y.seq = id) := by
            rw [hbatch]
            have : x ∈ (pendingRows id inputs.length pending).filter (fun y => y.pos =
              ((inputs.length + m : Nat) : Int)) := by
              rw [filter_pendingRows, if_pos (by omega)]
              have hidx : (((inputs.length + m : Nat) : Int) - inputs.length).toNat = m := by omega
              rw [hidx, List.getElem?_eq_getElem hlt, ← hx]
              simp
            exact (List.mem_filter.1 this).1
          exact (List.mem_filter.1 hin).1
        -- every position before it holds one row
        have hone : ∀ (k : Nat) (r : ρ), rows[k]? = some r → K.entries kv' x.seq k = {r} := by
          intro k r hr
          have hk := (List.getElem?_eq_some_iff.1 hr).1
          rw [← hx]
          exact (hrows k r _ hr (List.getElem?_eq_getElem (hlen ▸ hk))).1
        have hrow : row x = K.compute pending[m] rows := by
          have := hcompute x hmem rows (by rw [hlen', ← hx]) hone
          rw [this, ← hx]
        have hlen'' : (rows ++ [row x]).length = (inputs ++ pending.take (m + 1)).length := by
          simp only [List.length_append, List.length_singleton, List.length_take]
          omega
        refine ⟨rows ++ [row x], hlen'', fun k r y hr hy => ?_⟩
        rw [htake, ← List.append_assoc] at hy ⊢
        by_cases hk : k < rows.length
        · rw [List.getElem?_append_left hk] at hr
          rw [List.getElem?_append_left (hlen ▸ hk)] at hy
          rw [List.take_append_of_le_length (by rw [← hlen]; omega)]
          exact hrows k r y hr hy
        · have hk' : k = rows.length := by
            have := (List.getElem?_eq_some_iff.1 hr).1
            rw [List.length_append, List.length_singleton] at this
            omega
          subst hk'
          rw [List.getElem?_append_right (Nat.le_refl _), Nat.sub_self, List.getElem?_cons_zero,
            Option.some.injEq] at hr
          rw [hlen, List.getElem?_append_right (Nat.le_refl _), Nat.sub_self, List.getElem?_cons_zero,
            Option.some.injEq] at hy
          subst hr hy
          constructor
          · rw [hent, if_pos (by omega), hend _ (by omega), Multiset.zero_add]
            have hidx : ((rows.length : Int) - inputs.length).toNat = m := by omega
            rw [hidx, List.getElem?_eq_getElem hlt, ← hx, hlen']
            rfl
          · rw [hlen, List.take_left, hrow]
            refine Computed.compute _ _ rows (by simp [hlen]) (fun i r key hr hkey => ?_)
            rw [List.getElem?_map, Option.map_eq_some_iff] at hkey
            obtain ⟨z, hz, rfl⟩ := hkey
            rw [← List.map_take]
            exact (hrows i r z hr hz).2
    have := hprefix pending.length (Nat.le_refl _)
    rwa [List.take_length] at this
  · intro p hp
    rw [List.length_append] at hp
    rw [hent, hend p (by omega), if_pos (by omega), List.getElem?_eq_none (by omega)]
    rfl

end Ollama.Runner
