import Mathlib.Logic.Relation

/-!
# Context-free grammars

Grammars whose terminals stand for classes of characters. A form is a list of symbols, and derives texts from the left
(`Derives`). A form that begins with the name of a rule is unfolded by an alternative of the rule; the forms it is
unfolded to in the end are its heads. A text is read from a form one character at a time, and what is left of the form
(`Reads`) derives exactly how the text can go on (`derives_append_text`). Where no rule leads to itself from the left,
no form is unfolded forever (`halts_of_wellFounded`).
-/

namespace Ollama.Lib

/-- A symbol: the name of a rule, or a class of characters. -/
inductive CfgSymbol (ν τ : Type*) where
  | ref (n : ν)
  | term (t : τ)
deriving DecidableEq

/-- A grammar: the alternatives of each rule, and which characters a class holds. -/
structure Cfg (ν τ α : Type*) where
  rules : ν → List (List (CfgSymbol ν τ))
  Holds : τ → α → Prop

namespace Cfg

variable {ν τ α : Type*} (G : Cfg ν τ α)

/-- The texts that a form derives. -/
inductive Derives : List (CfgSymbol ν τ) → List α → Prop
  | nil : Derives [] []
  | term {t : τ} {c : α} {k : List (CfgSymbol ν τ)} {w : List α} (hc : G.Holds t c) (h : Derives k w) :
      Derives (.term t :: k) (c :: w)
  | ref {n : ν} {alt k : List (CfgSymbol ν τ)} {w : List α} (halt : alt ∈ G.rules n) (h : Derives (alt ++ k) w) :
      Derives (.ref n :: k) w

/-- The rule that a form begins with is replaced by one of its alternatives. -/
inductive Unfolds : List (CfgSymbol ν τ) → List (CfgSymbol ν τ) → Prop
  | mk {n : ν} {alt : List (CfgSymbol ν τ)} (halt : alt ∈ G.rules n) (k : List (CfgSymbol ν τ)) :
      Unfolds (.ref n :: k) (alt ++ k)

/-- A form that does not begin with a rule. -/
def Headed : List (CfgSymbol ν τ) → Prop
  | .ref _ :: _ => False
  | _ => True

/-- What a form is unfolded to in the end. -/
def Heads (k l : List (CfgSymbol ν τ)) : Prop := Relation.ReflTransGen G.Unfolds k l ∧ Headed l

/-- A text is read from a form, and a form is left. -/
def Reads : List (CfgSymbol ν τ) → List α → List (CfgSymbol ν τ) → Prop
  | k, [], l => G.Heads k l
  | k, c :: w, l => ∃ t k', G.Heads k (.term t :: k') ∧ G.Holds t c ∧ Reads k' w l

/-- A form is unfolded to nothing. -/
def Nullable (k : List (CfgSymbol ν τ)) : Prop := Relation.ReflTransGen G.Unfolds k []

/-- A rule leads to another from the left: an alternative has it behind what can be nothing. -/
def Leads (n m : ν) : Prop := ∃ alt ∈ G.rules n, ∃ pre post, alt = pre ++ .ref m :: post ∧ G.Nullable pre

/-- An alternative of the rule has another behind rules with an empty alternative. -/
def LeadsDirectly (n m : ν) : Prop :=
  ∃ alt ∈ G.rules n, ∃ pre post, alt = pre ++ .ref m :: post ∧ ∀ s ∈ pre, ∃ k, s = .ref k ∧ [] ∈ G.rules k

/-- Every symbol of an alternative derives something. -/
def Productive : Prop := ∀ n, ∀ alt ∈ G.rules n, ∀ s ∈ alt, ∃ w, G.Derives [s] w

/-- A form is not unfolded forever. -/
def Halts (k : List (CfgSymbol ν τ)) : Prop := Acc (fun l k => G.Unfolds k l) k

/-- A form is unfolded fewer times than the bound. -/
def Within : Nat → List (CfgSymbol ν τ) → Prop
  | 0, _ => False
  | d + 1, k => ∀ l, G.Unfolds k l → Within d l

variable {G} {k l : List (CfgSymbol ν τ)} {u v w : List α} {n m : ν} {c : α} {d : Nat}

/-! ## Derivations -/

/-- A form in two parts derives a text in two parts. -/
theorem derives_append_iff : G.Derives (k ++ l) w ↔ ∃ u v, w = u ++ v ∧ G.Derives k u ∧ G.Derives l v := by
  constructor
  · intro h
    generalize hkl : k ++ l = form at h
    induction h generalizing k with
    | nil =>
      obtain ⟨rfl, rfl⟩ := List.append_eq_nil_iff.1 hkl
      exact ⟨[], [], rfl, .nil, .nil⟩
    | @term t c form w hc h ih =>
      cases k with
      | nil =>
        obtain rfl : l = .term t :: form := hkl
        exact ⟨[], c :: w, rfl, .nil, .term hc h⟩
      | cons s k =>
        rw [List.cons_append, List.cons.injEq] at hkl
        obtain ⟨rfl, hkl⟩ := hkl
        obtain ⟨u, v, rfl, hu, hv⟩ := ih hkl
        exact ⟨c :: u, v, rfl, .term hc hu, hv⟩
    | @ref n alt form w halt h ih =>
      cases k with
      | nil =>
        obtain rfl : l = .ref n :: form := hkl
        exact ⟨[], w, rfl, .nil, .ref halt h⟩
      | cons s k =>
        rw [List.cons_append, List.cons.injEq] at hkl
        obtain ⟨rfl, rfl⟩ := hkl
        obtain ⟨u, v, rfl, hu, hv⟩ := ih (List.append_assoc alt k l)
        exact ⟨u, v, rfl, .ref halt hu, hv⟩
  · rintro ⟨u, v, rfl, hu, hv⟩
    induction hu with
    | nil => exact hv
    | term hc _ ih => exact .term hc ih
    | ref halt _ ih =>
      rw [List.cons_append]
      refine .ref halt ?_
      rw [← List.append_assoc]
      exact ih

/-- A name says what one of its alternates says. -/
theorem derives_ref_iff : G.Derives (.ref n :: k) w ↔ ∃ alt ∈ G.rules n, G.Derives (alt ++ k) w := by
  constructor
  · intro h
    cases h with
    | ref halt h => exact ⟨_, halt, h⟩
  · rintro ⟨alt, halt, h⟩
    exact .ref halt h

/-- So many times a form, one behind the other. -/
def times (l : List (CfgSymbol ν τ)) (i : Nat) : List (CfgSymbol ν τ) := (List.replicate i l).flatten

@[simp] theorem times_zero (l : List (CfgSymbol ν τ)) : times l 0 = [] := rfl

/-- Once more is the form, and then as often as before. -/
theorem times_succ (l : List (CfgSymbol ν τ)) (i : Nat) : times l (i + 1) = l ++ times l i := by
  rw [times, List.replicate_succ, List.flatten_cons, times]

/-- So often and so often more is one behind the other. -/
theorem times_add (l : List (CfgSymbol ν τ)) (i j : Nat) : times l (i + j) = times l i ++ times l j := by
  rw [times, times, times, ← List.flatten_append, List.replicate_append_replicate]

/-- A rule that is a form and the rule itself, or nothing, is the form any number of times. -/
theorem derives_star_iff (hrule : G.rules n = [l ++ [.ref n], []]) :
    G.Derives (.ref n :: k) w ↔ ∃ i, G.Derives (times l i ++ k) w := by
  constructor
  · intro h
    have hall : ∀ form, G.Derives form w → ∀ pre, form = pre ++ .ref n :: k →
      ∃ i, G.Derives (pre ++ (times l i ++ k)) w := by
      clear h
      intro form h
      induction h with
      | nil => exact fun pre hpre => absurd hpre.symm (List.append_ne_nil_of_right_ne_nil _ (List.cons_ne_nil _ _))
      | term hc _ ih =>
        intro pre hpre
        cases pre with
        | nil => nomatch hpre
        | cons s pre =>
          obtain ⟨rfl, rfl⟩ := List.cons.inj hpre
          obtain ⟨i, hi⟩ := ih pre rfl
          exact ⟨i, .term hc hi⟩
      | @ref m alt form _ halt _ ih =>
        intro pre hpre
        cases pre with
        | nil =>
          -- the rule itself is unfolded: once more, or not again
          obtain ⟨hm, rfl⟩ := List.cons.inj hpre
          obtain rfl := CfgSymbol.ref.inj hm
          rw [hrule] at halt
          rcases List.mem_cons.1 halt with rfl | halt
          · obtain ⟨i, hi⟩ := ih l (by rw [List.append_assoc, List.singleton_append])
            refine ⟨i + 1, ?_⟩
            rw [times_succ, List.append_assoc]
            exact hi
          · obtain rfl := List.mem_singleton.1 halt
            rename_i h
            exact ⟨0, h⟩
        | cons s pre =>
          obtain ⟨rfl, rfl⟩ := List.cons.inj hpre
          obtain ⟨i, hi⟩ := ih (alt ++ pre) (List.append_assoc alt pre _).symm
          rw [List.append_assoc] at hi
          exact ⟨i, .ref halt hi⟩
    exact hall _ h [] rfl
  · rintro ⟨i, h⟩
    induction i generalizing w with
    | zero =>
      have hempty : [] ∈ G.rules n := by
        rw [hrule]
        exact List.mem_cons_of_mem _ List.mem_cons_self
      exact .ref hempty h
    | succ i ih =>
      rw [times_succ, List.append_assoc] at h
      obtain ⟨u, v, rfl, hu, hv⟩ := derives_append_iff.1 h
      have halt : l ++ [.ref n] ∈ G.rules n := by
        rw [hrule]
        exact List.mem_cons_self
      refine .ref halt ?_
      rw [List.append_assoc]
      exact derives_append_iff.2 ⟨u, v, rfl, hu, ih hv⟩

/-- A chain of rules, each a form and the rule before, or nothing: the last one is the form at most so many times. -/
theorem derives_chain_iff {f : Nat → ν} {i : Nat} (hfirst : G.rules (f 0) = [l, []])
    (hnext : ∀ j < i, G.rules (f (j + 1)) = [l ++ [.ref (f j)], []]) :
    G.Derives (.ref (f i) :: k) w ↔ ∃ j ≤ i + 1, G.Derives (times l j ++ k) w := by
  induction i generalizing w with
  | zero =>
    rw [derives_ref_iff, hfirst]
    constructor
    · rintro ⟨alt, halt, h⟩
      rcases List.mem_cons.1 halt with rfl | halt
      · refine ⟨1, Nat.le_refl 1, ?_⟩
        rwa [times_succ, times_zero, List.append_nil]
      · obtain rfl := List.mem_singleton.1 halt
        exact ⟨0, Nat.zero_le 1, h⟩
    · rintro ⟨j, hj, h⟩
      obtain rfl | rfl : j = 0 ∨ j = 1 := by omega
      · exact ⟨[], List.mem_cons_of_mem _ List.mem_cons_self, h⟩
      · rw [times_succ, times_zero, List.append_nil] at h
        exact ⟨l, List.mem_cons_self, h⟩
  | succ i ih =>
    have hrest : ∀ {v}, G.Derives (.ref (f i) :: k) v ↔ ∃ j ≤ i + 1, G.Derives (times l j ++ k) v :=
      ih (fun j hj => hnext j (by omega))
    rw [derives_ref_iff, hnext i (Nat.lt_succ_self i)]
    constructor
    · rintro ⟨alt, halt, h⟩
      rcases List.mem_cons.1 halt with rfl | halt
      · rw [List.append_assoc] at h
        obtain ⟨u, v, rfl, hu, hv⟩ := derives_append_iff.1 h
        obtain ⟨j, hj, hj'⟩ := hrest.1 hv
        refine ⟨j + 1, by omega, ?_⟩
        rw [times_succ, List.append_assoc]
        exact derives_append_iff.2 ⟨u, v, rfl, hu, hj'⟩
      · obtain rfl := List.mem_singleton.1 halt
        exact ⟨0, Nat.zero_le _, h⟩
    · rintro ⟨j, hj, h⟩
      cases j with
      | zero => exact ⟨[], List.mem_cons_of_mem _ List.mem_cons_self, h⟩
      | succ j =>
        rw [times_succ, List.append_assoc] at h
        obtain ⟨u, v, rfl, hu, hv⟩ := derives_append_iff.1 h
        refine ⟨l ++ [.ref (f i)], List.mem_cons_self, ?_⟩
        rw [List.append_assoc]
        exact derives_append_iff.2 ⟨u, v, rfl, hu, hrest.2 ⟨j, by omega, hv⟩⟩

/-- What an unfolded form derives, the form derives. -/
theorem Unfolds.derives (h : G.Unfolds k l) (hl : G.Derives l w) : G.Derives k w := by
  obtain ⟨halt, k⟩ := h
  exact .ref halt hl

/-- A form says what it says when it is unfolded. -/
theorem derives_of_unfolds (h : Relation.ReflTransGen G.Unfolds k l) (hl : G.Derives l w) : G.Derives k w := by
  induction h using Relation.ReflTransGen.head_induction_on with
  | refl => exact hl
  | head hstep _ ih => exact hstep.derives ih

/-- A form that begins with a terminal, or is empty, is its own head. -/
theorem heads_of_headed (h : Headed k) : G.Heads k k := ⟨.refl, h⟩

/-- A form with a head has no other. -/
theorem eq_of_headed (h : Headed k) (hl : Relation.ReflTransGen G.Unfolds k l) : l = k := by
  cases hl using Relation.ReflTransGen.head_induction_on with
  | refl => rfl
  | head hstep _ =>
    obtain ⟨_, _⟩ := hstep
    exact h.elim

/-- A form with a head is its own. -/
theorem heads_iff_of_headed (h : Headed k) : G.Heads k l ↔ l = k := by
  constructor
  · exact fun hl => eq_of_headed h hl.1
  · rintro rfl
    exact heads_of_headed h

/-- The heads of a form that begins with a rule are those of the forms it is unfolded to. -/
theorem heads_ref_iff : G.Heads (.ref n :: k) l ↔ ∃ alt ∈ G.rules n, G.Heads (alt ++ k) l := by
  constructor
  · rintro ⟨h, hl⟩
    cases h using Relation.ReflTransGen.head_induction_on with
    | refl => exact hl.elim
    | head hstep h =>
      obtain ⟨halt, _⟩ := hstep
      exact ⟨_, halt, h, hl⟩
  · rintro ⟨alt, halt, h, hl⟩
    exact ⟨.head (.mk halt k) h, hl⟩

/-- A form derives what its heads derive. -/
theorem derives_iff_heads : G.Derives k w ↔ ∃ l, G.Heads k l ∧ G.Derives l w := by
  constructor
  · intro h
    induction h with
    | nil => exact ⟨[], heads_of_headed trivial, .nil⟩
    | term hc h => exact ⟨_, heads_of_headed trivial, .term hc h⟩
    | ref halt _ ih =>
      obtain ⟨l, hl, hderives⟩ := ih
      exact ⟨l, ⟨.head (.mk halt _) hl.1, hl.2⟩, hderives⟩
  · rintro ⟨l, hl, h⟩
    exact derives_of_unfolds hl.1 h

/-- A form derives no character exactly if it is nullable. -/
theorem derives_nil_iff : G.Derives k [] ↔ G.Heads k [] := by
  rw [derives_iff_heads]
  constructor
  · rintro ⟨l, hl, h⟩
    cases h with
    | nil => exact hl
    | ref => exact hl.2.elim
  · exact fun h => ⟨[], h, .nil⟩

/-- A text that begins with a character is said through a head that begins with a terminal of it. -/
theorem derives_cons_iff : G.Derives k (c :: w) ↔ ∃ t l, G.Heads k (.term t :: l) ∧ G.Holds t c ∧ G.Derives l w := by
  rw [derives_iff_heads]
  constructor
  · rintro ⟨l, hl, h⟩
    cases h with
    | term hc h => exact ⟨_, _, hl, hc, h⟩
    | ref => exact hl.2.elim
  · rintro ⟨t, l, hl, hc, h⟩
    exact ⟨_, hl, .term hc h⟩

/-! ## Reading -/

/-- What is left after a text derives exactly how the text can go on. -/
theorem derives_append_text : G.Derives k (u ++ v) ↔ ∃ l, G.Reads k u l ∧ G.Derives l v := by
  induction u generalizing k with
  | nil => exact derives_iff_heads
  | cons c u ih =>
    rw [List.cons_append, derives_cons_iff]
    constructor
    · rintro ⟨t, k', hheads, hc, h⟩
      obtain ⟨l, hl, hv⟩ := ih.1 h
      exact ⟨l, ⟨t, k', hheads, hc, hl⟩, hv⟩
    · rintro ⟨l, ⟨t, k', hheads, hc, hl⟩, hv⟩
      exact ⟨t, k', hheads, hc, ih.2 ⟨l, hl, hv⟩⟩

/-- A text is derived exactly if nothing can be left after it. -/
theorem reads_nil_iff : G.Reads k w [] ↔ G.Derives k w := by
  induction w generalizing k with
  | nil => exact derives_nil_iff.symm
  | cons c w ih => simp only [Reads, ih, derives_cons_iff]

/-- A text is read from a form as from its heads. -/
theorem reads_iff_heads : G.Reads k w l ↔ ∃ k', G.Heads k k' ∧ G.Reads k' w l := by
  cases w with
  | nil =>
    constructor
    · exact fun h => ⟨l, h, heads_of_headed h.2⟩
    · rintro ⟨k', h, hl⟩
      obtain rfl := (heads_iff_of_headed h.2).1 hl
      exact h
  | cons c w =>
    constructor
    · rintro ⟨t, k', hheads, hc, h⟩
      exact ⟨.term t :: k', hheads, t, k', heads_of_headed hheads.2, hc, h⟩
    · rintro ⟨k', hheads, t, k'', hterm, hc, h⟩
      obtain rfl := (heads_iff_of_headed hheads.2).1 hterm
      exact ⟨t, k'', hheads, hc, h⟩

/-- A text in two parts is read one part after the other. -/
theorem reads_append_iff : G.Reads k (u ++ v) l ↔ ∃ m, G.Reads k u m ∧ G.Reads m v l := by
  induction u generalizing k with
  | nil => exact reads_iff_heads
  | cons c u ih =>
    simp only [List.cons_append, Reads, ih]
    constructor
    · rintro ⟨t, k', hheads, hc, m, hu, hv⟩
      exact ⟨m, ⟨t, k', hheads, hc, hu⟩, hv⟩
    · rintro ⟨m, ⟨t, k', hheads, hc, hu⟩, hv⟩
      exact ⟨t, k', hheads, hc, m, hu, hv⟩

/-- One more character is read. -/
theorem reads_snoc_iff : G.Reads k (w ++ [c]) l ↔ ∃ t k', G.Reads k w (.term t :: k') ∧ G.Holds t c ∧ G.Heads k' l := by
  induction w generalizing k with
  | nil => rfl
  | cons c' w ih =>
    simp only [List.cons_append, Reads, ih]
    constructor
    · rintro ⟨t', k₁, hheads, hc', t, k', hreads, hc, hl⟩
      exact ⟨t, k', ⟨t', k₁, hheads, hc', hreads⟩, hc, hl⟩
    · rintro ⟨t, k', ⟨t', k₁, hheads, hc', hreads⟩, hc, hl⟩
      exact ⟨t', k₁, hheads, hc', t, k', hreads, hc, hl⟩

/-! ## Texts that can go on -/

/-- A form whose symbols all derive something derives something. -/
theorem exists_derives (h : ∀ s ∈ k, ∃ w, G.Derives [s] w) : ∃ w, G.Derives k w := by
  induction k with
  | nil => exact ⟨[], .nil⟩
  | cons s k ih =>
    obtain ⟨⟨u, hu⟩, hk⟩ := List.forall_mem_cons.1 h
    obtain ⟨v, hv⟩ := ih hk
    exact ⟨u ++ v, derives_append_iff.2 ⟨u, v, rfl, hu, hv⟩⟩

/-- The symbols of a head say something if those of the form do. -/
theorem Productive.heads (hG : G.Productive) (h : G.Heads k l) (hk : ∀ s ∈ k, ∃ w, G.Derives [s] w) :
    ∀ s ∈ l, ∃ w, G.Derives [s] w := by
  replace h := h.1
  induction h with
  | refl => exact hk
  | tail _ hstep ih =>
    obtain ⟨halt, post⟩ := hstep
    exact List.forall_mem_append.2 ⟨hG _ _ halt, (List.forall_mem_cons.1 ih).2⟩

/-- What is left after a text derives something, if all symbols do. -/
theorem Productive.reads (hG : G.Productive) (h : G.Reads k w l) (hk : ∀ s ∈ k, ∃ w, G.Derives [s] w) :
    ∃ v, G.Derives l v := by
  induction w generalizing k with
  | nil => exact exists_derives (hG.heads h hk)
  | cons c w ih =>
    obtain ⟨t, k', hheads, _, h⟩ := h
    exact ih h (List.forall_mem_cons.1 (hG.heads hheads hk)).2

/-- A text that is read from a rule goes on to one that the rule derives. -/
theorem Productive.exists_derives_append (hG : G.Productive) (h : G.Reads [.ref n] w l) :
    ∃ v, G.Derives [.ref n] (w ++ v) := by
  obtain ⟨k, hheads, hreads⟩ := reads_iff_heads.1 h
  obtain ⟨alt, halt, hheads⟩ := heads_ref_iff.1 hheads
  rw [List.append_nil] at hheads
  obtain ⟨v, hv⟩ := hG.reads hreads (hG.heads hheads (hG n alt halt))
  exact ⟨v, derives_append_text.2 ⟨l, h, hv⟩⟩

/-! ## Left recursion -/

/-- An unfolded part of a form is an unfolded form. -/
theorem Unfolds.append (h : G.Unfolds k l) (post : List (CfgSymbol ν τ)) : G.Unfolds (k ++ post) (l ++ post) := by
  obtain ⟨halt, k⟩ := h
  rw [List.append_assoc]
  exact .mk halt (k ++ post)

/-- A form is unfolded before anything. -/
theorem unfolds_append (h : Relation.ReflTransGen G.Unfolds k l) (post : List (CfgSymbol ν τ)) :
    Relation.ReflTransGen G.Unfolds (k ++ post) (l ++ post) := by
  induction h with
  | refl => exact .refl
  | tail _ hstep ih => exact ih.tail (hstep.append post)

/-- Two forms that can be unfolded to nothing can be so one behind the other. -/
theorem Nullable.append (hk : G.Nullable k) (hl : G.Nullable l) : G.Nullable (k ++ l) :=
  (unfolds_append hk l).trans hl

/-- Of a form in two parts, the second is unfolded only if the first can be nothing. -/
theorem Halts.append (hk : G.Halts k) (hl : G.Nullable k → G.Halts l) : G.Halts (k ++ l) := by
  induction hk with
  | intro k _ ih =>
    cases k with
    | nil => exact hl .refl
    | cons s k =>
      refine Acc.intro _ (fun form hform => ?_)
      rw [List.cons_append] at hform
      cases hform with
      | mk halt =>
        rw [← List.append_assoc]
        exact ih _ (.mk halt k) (fun hnull => hl (.head (.mk halt k) hnull))

/-- A form without a rule at its beginning is not unfolded. -/
theorem halts_of_headed (h : Headed k) : G.Halts k := by
  refine Acc.intro _ (fun form hform => ?_)
  obtain ⟨_, _⟩ := hform
  exact h.elim

/-- Without left recursion, no form is unfolded forever. -/
theorem halts_of_wellFounded (hwf : WellFounded (fun m n => G.Leads n m)) (k : List (CfgSymbol ν τ)) : G.Halts k := by
  have hrule : ∀ n, G.Halts [.ref n] := by
    intro n
    induction n using hwf.induction with
    | h n ih =>
      have hsuffix : ∀ alt ∈ G.rules n, ∀ post pre, alt = pre ++ post → G.Nullable pre → G.Halts post := by
        intro alt halt post
        induction post with
        | nil => exact fun _ _ _ => halts_of_headed trivial
        | cons s post ihpost =>
          intro pre hpre hnull
          have hhead : G.Halts [s] := by
            cases s with
            | term t => exact halts_of_headed trivial
            | ref m => exact ih m ⟨alt, halt, pre, post, hpre, hnull⟩
          refine hhead.append (fun hs => ihpost (pre ++ [s]) ?_ (hnull.append hs))
          rw [hpre, List.append_assoc, List.singleton_append]
      refine Acc.intro _ (fun form hform => ?_)
      cases hform with
      | mk halt =>
        rw [List.append_nil]
        exact hsuffix _ halt _ [] rfl .refl
  induction k with
  | nil => exact halts_of_headed trivial
  | cons s k ih =>
    refine Halts.append (k := [s]) ?_ (fun _ => ih)
    cases s with
    | term t => exact halts_of_headed trivial
    | ref n => exact hrule n

/-- A rule that leads to another is unfolded to a form that begins with the other. -/
theorem Leads.unfolds (h : G.Leads n m) (k : List (CfgSymbol ν τ)) :
    ∃ post, Relation.TransGen G.Unfolds (.ref n :: k) (.ref m :: post) := by
  obtain ⟨alt, halt, pre, post, rfl, hnull⟩ := h
  refine ⟨post ++ k, .head' (.mk halt k) ?_⟩
  rw [List.append_assoc]
  exact unfolds_append hnull _

/-- What is related to itself is not reached by finitely many steps. -/
theorem not_acc_self {r : ν → ν → Prop} (h : r n n) : ¬Acc r n := by
  intro hacc
  induction hacc with
  | intro n _ ih => exact ih n h h

/-- A rule that is not unfolded forever leads to others only so far. -/
theorem Halts.acc_leads (h : G.Halts (.ref n :: k)) : Acc (fun m n => G.Leads n m) n := by
  have hall : ∀ form, Acc (Relation.TransGen (fun l k => G.Unfolds k l)) form → ∀ n k, form = .ref n :: k →
    Acc (fun m n => G.Leads n m) n := by
    intro form hform
    induction hform with
    | intro form _ ih =>
      rintro n k rfl
      refine Acc.intro _ (fun m hm => ?_)
      obtain ⟨post, hpost⟩ := hm.unfolds k
      exact ih _ (Relation.transGen_swap.1 hpost) m post rfl
  exact hall _ h.transGen n k rfl

/-- Where no rule is unfolded forever, there is no left recursion. -/
theorem wellFounded_of_halts (h : ∀ n, G.Halts [.ref n]) : WellFounded (fun m n => G.Leads n m) :=
  ⟨fun n => (h n).acc_leads⟩

/-- A form can be unfolded to nothing if it says the empty text. -/
theorem nullable_iff_derives : G.Nullable k ↔ G.Derives k [] :=
  ⟨fun h => derives_nil_iff.2 ⟨h, trivial⟩, fun h => (derives_nil_iff.1 h).1⟩

/-- A form can be nothing exactly if each symbol can. -/
theorem nullable_iff_forall : G.Nullable k ↔ ∀ s ∈ k, G.Nullable [s] := by
  induction k with
  | nil => exact ⟨nofun, fun _ => .refl⟩
  | cons s k ih =>
    rw [List.forall_mem_cons, ← ih]
    constructor
    · intro h
      obtain ⟨u, v, huv, hu, hv⟩ := derives_append_iff.1 (nullable_iff_derives.1 (show G.Nullable ([s] ++ k) from h))
      obtain ⟨rfl, rfl⟩ := List.append_eq_nil_iff.1 huv.symm
      exact ⟨nullable_iff_derives.2 hu, nullable_iff_derives.2 hv⟩
    · exact fun h => h.1.append h.2

/-- To lead directly is to lead. -/
theorem LeadsDirectly.leads (h : G.LeadsDirectly n m) : G.Leads n m := by
  obtain ⟨alt, halt, pre, post, rfl, hpre⟩ := h
  refine ⟨_, halt, pre, post, rfl, nullable_iff_forall.2 (fun s hs => ?_)⟩
  obtain ⟨k, rfl, hk⟩ := hpre s hs
  exact .single (.mk hk [])

/-- Where rules that can be nothing have an empty alternative, rules only lead to others directly. -/
theorem leads_iff_directly (hnull : ∀ n, G.Nullable [.ref n] → [] ∈ G.rules n) : G.Leads n m ↔ G.LeadsDirectly n m := by
  refine ⟨?_, fun h => h.leads⟩
  rintro ⟨alt, halt, pre, post, rfl, hpre⟩
  refine ⟨_, halt, pre, post, rfl, fun s hs => ?_⟩
  have hs := nullable_iff_forall.1 hpre s hs
  cases s with
  | term t => exact nomatch eq_of_headed (k := [.term t]) trivial hs
  | ref k => exact ⟨k, rfl, hnull k hs⟩

/-! ## How often a form is unfolded -/

/-- A head needs no unfolding. -/
theorem within_of_headed (h : Headed k) (d : Nat) : G.Within (d + 1) k := by
  intro l hl
  obtain ⟨_, _⟩ := hl
  exact h.elim

/-- What is unfolded so many times at most is so more times at most. -/
theorem Within.mono (h : G.Within d k) {d' : Nat} (hd : d ≤ d') : G.Within d' k := by
  induction d generalizing d' k with
  | zero => exact h.elim
  | succ d ih =>
    obtain ⟨d', rfl⟩ : ∃ e, d' = e + 1 := ⟨d' - 1, by omega⟩
    exact fun l hl => ih (h l hl) (by omega)

/-- What is unfolded so many times at most is not unfolded forever. -/
theorem Within.halts (h : G.Within d k) : G.Halts k := by
  induction d generalizing k with
  | zero => exact h.elim
  | succ d ih => exact Acc.intro _ (fun l hl => ih (h l hl))

/-- A form that is not unfolded forever is unfolded so many times at most, since a rule has finitely many alternatives. -/
theorem Halts.within (h : G.Halts k) : ∃ d, G.Within d k := by
  induction h with
  | intro k _ ih =>
    cases k with
    | nil => exact ⟨1, fun l hl => nomatch hl⟩
    | cons s k =>
      cases s with
      | term t => exact ⟨1, fun l hl => nomatch hl⟩
      | ref n =>
        have hall : ∀ alts : List (List (CfgSymbol ν τ)), (∀ alt ∈ alts, alt ∈ G.rules n) →
          ∃ d, ∀ alt ∈ alts, G.Within d (alt ++ k) := by
          intro alts
          induction alts with
          | nil => exact fun _ => ⟨0, nofun⟩
          | cons alt alts ihalts =>
            intro hmem
            obtain ⟨halt, hmem⟩ := List.forall_mem_cons.1 hmem
            obtain ⟨d, hd⟩ := ih _ (.mk halt k)
            obtain ⟨e, he⟩ := ihalts hmem
            refine ⟨max d e, List.forall_mem_cons.2 ⟨hd.mono (Nat.le_max_left d e), fun a ha => ?_⟩⟩
            exact (he a ha).mono (Nat.le_max_right d e)
        obtain ⟨d, hd⟩ := hall (G.rules n) (fun _ h => h)
        refine ⟨d + 1, fun l hl => ?_⟩
        cases hl with
        | mk halt => exact hd _ halt

end Cfg

end Ollama.Lib
