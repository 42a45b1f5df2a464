import Mathlib.Algebra.BigOperators.Group.List.Lemmas
import Mathlib.Data.UInt
import Mathlib.Tactic.Common

/-!
# Transition systems

A system is a set of first states and a step relation. `Reachable` is what holds after any number of steps, and an invariant
is proved once for all runs: it holds at first and each step keeps it. The steps of a machine that meet a condition are a
system again (`Machine.guarded`), so a statement about the runs whose every step meets a condition is a statement about the
reachable states of that system.
-/

namespace Ollama.Lib

/-- A transition system: its first states and its steps. -/
structure System (σ : Type*) where
  init : σ → Prop
  step : σ → σ → Prop

namespace System

variable {σ τ : Type*}

/-- The states a run of the system reaches. -/
inductive Reachable (S : System σ) : σ → Prop where
  | init {s : σ} : S.init s → Reachable S s
  | step {s s' : σ} : Reachable S s → S.step s s' → Reachable S s'

/-- What holds at first and is kept by every step holds in every reachable state. -/
theorem Reachable.invariant {S : System σ} {I : σ → Prop} (hi : ∀ s, S.init s → I s)
    (hs : ∀ s s', I s → S.step s s' → I s') {s : σ} (h : S.Reachable s) : I s := by
  induction h with
  | init h => exact hi _ h
  | step _ hst ih => exact hs _ _ ih hst

/-- From a state, steps lead to one with `P`. -/
inductive Leads (S : System σ) (P : σ → Prop) : σ → Prop where
  | here {s : σ} : P s → Leads S P s
  | step {s s' : σ} : S.step s s' → Leads S P s' → Leads S P s

/-- What steps from a reachable state lead to is reached. -/
theorem Leads.exists_reachable {S : System σ} {P : σ → Prop} {s : σ} (hl : S.Leads P s) (h : S.Reachable s) :
    ∃ s', S.Reachable s' ∧ P s' := by
  induction hl with
  | here hp => exact ⟨_, h, hp⟩
  | step hst _ ih => exact ih (Reachable.step h hst)

/-- Every run from a state comes to one with `P`, and does not get stuck before. -/
inductive Inevitable (S : System σ) (P : σ → Prop) : σ → Prop where
  | here {s : σ} : P s → Inevitable S P s
  | step {s : σ} : (∃ s', S.step s s') → (∀ s', S.step s s' → Inevitable S P s') → Inevitable S P s

/-- What is inevitable: from the states with `I`, where `P` does not hold yet, there is a step, and every step leads
to a state with `I` and a smaller measure. -/
theorem Inevitable.of_measure {S : System σ} {P I : σ → Prop} (μ : σ → Nat)
    (h : ∀ s, I s → P s ∨ ((∃ s', S.step s s') ∧ ∀ s', S.step s s' → I s' ∧ μ s' < μ s)) {s : σ} (hs : I s) :
    S.Inevitable P s := by
  induction hn : μ s using Nat.strongRecOn generalizing s with
  | ind n ih =>
    rcases h s hs with hp | ⟨hex, hall⟩
    · exact .here hp
    · refine .step hex ?_
      intro s' hstep
      obtain ⟨hs', hlt⟩ := hall s' hstep
      exact ih (μ s') (hn ▸ hlt) hs' rfl

/-- What is not inevitable: the steps from the states with `T` stay there, and `P` holds in none of them. -/
theorem Inevitable.not_of_trap {S : System σ} {P T : σ → Prop} (hstep : ∀ s s', T s → S.step s s' → T s')
    (hno : ∀ s, T s → ¬P s) {s : σ} (hs : T s) : ¬S.Inevitable P s := by
  intro h
  induction h with
  | here hp => exact hno _ hs hp
  | step hex _ ih =>
    obtain ⟨s', hst⟩ := hex
    exact ih s' hst (hstep _ _ hs hst)

/-- A map that takes first states to first states, and each step from a reachable state to a step or to no change,
takes runs to runs. -/
theorem Reachable.map {S : System σ} {T : System τ} {f : σ → τ} (hi : ∀ s, S.init s → T.init (f s))
    (hs : ∀ s s', S.Reachable s → S.step s s' → T.step (f s) (f s') ∨ f s' = f s) {s : σ} (h : S.Reachable s) :
    T.Reachable (f s) := by
  induction h with
  | init h => exact Reachable.init (hi _ h)
  | step hr hst ih =>
    rcases hs _ _ hr hst with h | h
    · exact Reachable.step ih h
    · rw [h]
      exact ih

end System

end Ollama.Lib

/-!
## Machines

A machine is a transition system whose steps are named: an act says who does what, and which answer it gets from
outside. A list of acts is a schedule, and is run by `Machine.run`, so that a run can be evaluated. Under a guard, a
machine takes an act only in a state in which the guard lets it: the runs whose every step meets a condition on the
state before it are those of a machine under a guard.
-/

namespace Ollama.Lib

/-- One entry of a list is replaced. -/
theorem exists_split {α : Type*} {l : List α} {i : Nat} {x : α} (h : l[i]? = some x) :
    ∃ l₁ l₂, l = l₁ ++ x :: l₂ ∧ ∀ y, l.set i y = l₁ ++ y :: l₂ := by
  obtain ⟨hi, rfl⟩ := List.getElem?_eq_some_iff.1 h
  refine ⟨l.take i, l.drop (i + 1), ?_, fun y => List.set_eq_take_append_cons_drop.trans (if_pos hi)⟩
  rw [List.getElem_cons_drop, List.take_append_drop]

/-- What a sum over a list loses and gains when one entry is replaced. -/
theorem sum_map_set {α M : Type*} [AddCommMonoid M] (f : α → M) {l : List α} {i : Nat} {x : α}
    (h : l[i]? = some x) (y : α) :
    ((l.set i y).map f).sum + f x = (l.map f).sum + f y := by
  obtain ⟨l₁, l₂, rfl, hset⟩ := exists_split h
  rw [hset]
  simp only [List.map_append, List.map_cons, List.sum_append, List.sum_cons]
  ac_rfl

/-- A machine: its first states, and the state after an act, where the act can be taken. -/
structure Machine (σ α : Type*) where
  init : σ → Prop
  act : σ → α → Option σ

namespace Machine

variable {σ α : Type*} (M : Machine σ α) (G : σ → α → Prop)

/-- The runs of a machine under a guard. -/
def guarded : System σ where
  init := M.init
  step s s' := ∃ a, G s a ∧ M.act s a = some s'

/-- The runs of a machine. -/
def system : System σ := M.guarded (fun _ _ => True)

/-- The state after a schedule, if the guard lets every act of it. -/
def runGuarded [∀ s a, Decidable (G s a)] (s : σ) : List α → Option σ
  | [] => some s
  | a :: as => if G s a then (M.act s a).bind (fun s' => runGuarded s' as) else none

/-- The state after a schedule. -/
def run (s : σ) : List α → Option σ
  | [] => some s
  | a :: as => (M.act s a).bind (fun s' => run s' as)

variable {M G}

/-- A weaker guard has more runs. -/
theorem Reachable.mono {G' : σ → α → Prop} (hG : ∀ s a, G s a → G' s a) {s : σ} (h : (M.guarded G).Reachable s) :
    (M.guarded G').Reachable s := by
  induction h with
  | init h => exact .init h
  | step _ hstep ih =>
    obtain ⟨a, ha, hact⟩ := hstep
    exact ih.step ⟨a, hG _ a ha, hact⟩

/-- A schedule under a guard leads from a state that is reached to another. -/
theorem reachable_runGuarded [∀ s a, Decidable (G s a)] {as : List α} {s s' : σ} (h : (M.guarded G).Reachable s)
    (hrun : M.runGuarded G s as = some s') : (M.guarded G).Reachable s' := by
  induction as generalizing s with
  | nil => exact Option.some.inj hrun ▸ h
  | cons a as ih =>
    rw [runGuarded] at hrun
    split at hrun
    · rename_i hG
      rw [Option.bind_eq_some_iff] at hrun
      obtain ⟨s₁, hact, hrun⟩ := hrun
      exact ih (h.step ⟨a, hG, hact⟩) hrun
    · nomatch hrun

/-- A schedule leads from a first state to one that is reached. -/
theorem reachable_run {as : List α} {s s' : σ} (h : M.system.Reachable s) (hrun : M.run s as = some s') :
    M.system.Reachable s' := by
  induction as generalizing s with
  | nil => exact Option.some.inj hrun ▸ h
  | cons a as ih =>
    rw [run, Option.bind_eq_some_iff] at hrun
    obtain ⟨s₁, hact, hrun⟩ := hrun
    exact ih (h.step ⟨a, trivial, hact⟩) hrun

end Machine

end Ollama.Lib
