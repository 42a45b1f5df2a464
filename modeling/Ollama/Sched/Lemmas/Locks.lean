import Ollama.Sched.Lemmas.State

/-!
# The locks

A lock of a runner is taken by the goroutine that is in a section of the runner, and by no other (`Exclusive`): a step
takes a lock that is free as it goes into a section, lets go of it as it leaves the section, or does neither. The lock
on the loaded runners is that of `updateFreeSpace` or of `expireRunner` (`LoadedExclusive`). Both hold whatever the
condition on the steps.
-/

namespace Ollama.Sched

open Lib

/-- The runner whose lock `processPending` has. -/
def Pending.lock : Pending → Option Nat
  | .idle => none
  | .trying _ => none
  | .reuse _ _ => none
  | .using _ _ => none
  | .handing _ r => some r
  | .placing _ _ => none
  | .freeing _ _ => none
  | .fitting _ => none
  | .loading _ _ => none
  | .choosing _ => none
  | .scanning _ _ _ => none
  | .expiring _ _ => none
  | .evicting _ r => some r
  | .waiting _ => none

/-- The runner whose lock `processCompleted` has. -/
def Completed.lock : Completed → Option Nat
  | .idle => none
  | .finished _ => none
  | .finishing _ _ => none
  | .idling r => some r
  | .expired _ => none
  | .unloading r => some r
  | .unloaded => none

/-- The runner whose lock the call of `expireRunner` has. -/
def Expirer.lock : Expirer → Option Nat
  | .gone => none
  | .locking _ => none
  | .sending r => some r

/-- The runner whose lock a goroutine has by where it stands. -/
def Scheduler.lockOf (s : Scheduler) : Holder → Option Nat
  | .pending => s.pending.lock
  | .completed => s.completed.lock
  | .loader => none
  | .callback => none
  | .expirer => s.expirer.lock

/-- A goroutine of the kind is in a section of the runner. -/
def Scheduler.inSection (s : Scheduler) (r : Nat) : Holder → Prop
  | .loader => (s.runners r).loader ≠ .gone
  | .callback => (s.runners r).refMu = some .callback
  | m => s.lockOf m = some r

/-- The lock of a runner is that of the goroutine that is in a section of it. -/
def Exclusive (s : Scheduler) : Prop := ∀ r m, (s.runners r).refMu = some m ↔ s.inSection r m

variable {s s' : Scheduler} {a : Action}

/-- A step of `processPending` moves no other goroutine. -/
theorem Scheduler.lockOf_of_pending (hc : s'.completed = s.completed) (he : s'.expirer = s.expirer) :
    ∀ m, m ≠ .pending → s'.lockOf m = s.lockOf m := by
  intro m hm
  cases m with
  | pending => exact absurd rfl hm
  | completed => exact congrArg Completed.lock hc
  | loader | callback => rfl
  | expirer => exact congrArg Expirer.lock he

/-- A step of `processCompleted` moves no other goroutine. -/
theorem Scheduler.lockOf_of_completed (hp : s'.pending = s.pending) (he : s'.expirer = s.expirer) :
    ∀ m, m ≠ .completed → s'.lockOf m = s.lockOf m := by
  intro m hm
  cases m with
  | pending => exact congrArg Pending.lock hp
  | completed => exact absurd rfl hm
  | loader | callback => rfl
  | expirer => exact congrArg Expirer.lock he

/-- A step of `expireRunner` moves no other goroutine. -/
theorem Scheduler.lockOf_of_expirer (hp : s'.pending = s.pending) (hc : s'.completed = s.completed) :
    ∀ m, m ≠ .expirer → s'.lockOf m = s.lockOf m := by
  intro m hm
  cases m with
  | pending => exact congrArg Pending.lock hp
  | completed => exact congrArg Completed.lock hc
  | loader | callback => rfl
  | expirer => exact absurd rfl hm

namespace Exclusive

/-- No lock is taken, and none is let go of. -/
theorem keep (h : Exclusive s) (hp : s'.pending.lock = s.pending.lock) (hc : s'.completed.lock = s.completed.lock)
    (he : s'.expirer.lock = s.expirer.lock) (hmu : ∀ r, (s'.runners r).refMu = (s.runners r).refMu)
    (hl : ∀ r, (s'.runners r).loader = .gone ↔ (s.runners r).loader = .gone) : Exclusive s' := by
  intro r m
  rw [hmu r, h r m]
  cases m with
  | pending => exact Iff.of_eq (congrArg (· = some r) hp.symm)
  | completed => exact Iff.of_eq (congrArg (· = some r) hc.symm)
  | loader => exact (not_congr (hl r)).symm
  | callback =>
    show (s.runners r).refMu = some .callback ↔ (s'.runners r).refMu = some .callback
    rw [hmu r]
  | expirer => exact Iff.of_eq (congrArg (· = some r) he.symm)

/-- A lock that is free is taken. -/
theorem take {r₀ : Nat} {k : Holder} (h : Exclusive s) (hfree : s.free r₀)
    (hmu : ∀ r, (s'.runners r).refMu = if r = r₀ then some k else (s.runners r).refMu)
    (hsec : ∀ r m, m ≠ .callback → (s'.inSection r m ↔ (r = r₀ ∧ m = k) ∨ s.inSection r m)) : Exclusive s' := by
  intro r m
  by_cases hm : m = .callback
  · rw [hm]
    exact Iff.rfl
  · rw [hsec r m hm, ← h r m, hmu r]
    by_cases hr : r = r₀
    · subst hr
      have hnone : (s.runners r).refMu = none := hfree
      rw [if_pos rfl, hnone]
      simp [eq_comm]
    · simp [hr]

/-- A goroutine lets go of a lock. -/
theorem release {r₀ : Nat} {k : Holder} (h : Exclusive s) (hheld : s.inSection r₀ k)
    (hmu : ∀ r, (s'.runners r).refMu = if r = r₀ then none else (s.runners r).refMu)
    (hsec : ∀ r m, m ≠ .callback → (s'.inSection r m ↔ ¬(r = r₀ ∧ m = k) ∧ s.inSection r m)) : Exclusive s' := by
  intro r m
  by_cases hm : m = .callback
  · rw [hm]
    exact Iff.rfl
  · rw [hsec r m hm, ← h r m, hmu r]
    by_cases hr : r = r₀
    · subst hr
      rw [if_pos rfl, (h r k).2 hheld]
      simp [eq_comm]
    · simp [hr]

variable {r₀ : Nat} {k : Holder} {x : RunnerRef}

/-- A runner is changed, but not who has its lock. -/
theorem keep_runner (h : Exclusive s) (hr : s'.runners = (s.setRunner r₀ x).runners)
    (hmu : x.refMu = (s.runners r₀).refMu) (hl : x.loader = (s.runners r₀).loader)
    (hp : s'.pending.lock = s.pending.lock) (hc : s'.completed.lock = s.completed.lock)
    (he : s'.expirer.lock = s.expirer.lock) : Exclusive s' := by
  refine h.keep hp hc he (fun r => ?_) (fun r => ?_)
  · rw [hr]
    exact s.setRunner_same RunnerRef.refMu hmu r
  · rw [hr, s.setRunner_same RunnerRef.loader hl r]

/-- A goroutine goes into a section. -/
theorem enter (h : Exclusive s) (hfree : s.free r₀) (hr : s'.runners = (s.setRunner r₀ x).runners)
    (hmu : x.refMu = some k) (hl : x.loader = (s.runners r₀).loader) (hnone : s.lockOf k = none)
    (hsome : s'.lockOf k = some r₀) (hrest : ∀ m, m ≠ k → s'.lockOf m = s.lockOf m) : Exclusive s' := by
  have hlock : ∀ r m, s'.lockOf m = some r ↔ (r = r₀ ∧ m = k) ∨ s.lockOf m = some r := by
    intro r m
    by_cases hm : m = k
    · rw [hm, hsome, hnone]
      simp [eq_comm]
    · rw [hrest m hm]
      simp [hm]
  have hne : k ≠ .loader := by
    rintro rfl
    cases hsome
  refine h.take (k := k) hfree (fun r => ?_) ?_
  · rw [hr, ← hmu]
    exact s.setRunner_apply RunnerRef.refMu r₀ x r
  intro r m hm
  cases m with
  | pending => exact hlock r .pending
  | completed => exact hlock r .completed
  | loader =>
    rw [Scheduler.inSection, Scheduler.inSection, hr, s.setRunner_same RunnerRef.loader hl r]
    simp [hne.symm]
  | callback => exact absurd rfl hm
  | expirer => exact hlock r .expirer

/-- A goroutine leaves a section. -/
theorem leave (h : Exclusive s) (hr : s'.runners = (s.setRunner r₀ x).runners) (hmu : x.refMu = none)
    (hl : x.loader = (s.runners r₀).loader) (hsome : s.lockOf k = some r₀) (hnone : s'.lockOf k = none)
    (hrest : ∀ m, m ≠ k → s'.lockOf m = s.lockOf m) : Exclusive s' := by
  have hlock : ∀ r m, s'.lockOf m = some r ↔ ¬(r = r₀ ∧ m = k) ∧ s.lockOf m = some r := by
    intro r m
    by_cases hm : m = k
    · rw [hm, hsome, hnone]
      simp [eq_comm]
    · rw [hrest m hm]
      simp [hm]
  have hne : k ≠ .loader := by
    rintro rfl
    cases hsome
  have hheld : s.inSection r₀ k := by
    cases k with
    | pending | completed | expirer => exact hsome
    | loader => exact absurd rfl hne
    | callback => cases hsome
  refine h.release hheld (fun r => ?_) ?_
  · rw [hr, ← hmu]
    exact s.setRunner_apply RunnerRef.refMu r₀ x r
  intro r m hm
  cases m with
  | pending => exact hlock r .pending
  | completed => exact hlock r .completed
  | loader =>
    rw [Scheduler.inSection, Scheduler.inSection, hr, s.setRunner_same RunnerRef.loader hl r]
    simp [hne.symm]
  | callback => exact absurd rfl hm
  | expirer => exact hlock r .expirer

/-- The goroutine that loads a runner ends. -/
theorem leave_loader (h : Exclusive s) (hheld : (s.runners r₀).loader ≠ .gone)
    (hmu : ∀ r, (s'.runners r).refMu = if r = r₀ then none else (s.runners r).refMu)
    (hl : ∀ r, (s'.runners r).loader = if r = r₀ then .gone else (s.runners r).loader)
    (hlock : ∀ m, s'.lockOf m = s.lockOf m) :
    Exclusive s' := by
  refine h.release (k := .loader) hheld hmu ?_
  intro r m hm
  cases m with
  | pending | completed | expirer =>
    refine (Iff.of_eq (congrArg (· = some r) (hlock _))).trans ⟨fun hsec => ⟨(fun heq => by cases heq.2), hsec⟩,
      And.right⟩
  | loader =>
    rw [Scheduler.inSection, Scheduler.inSection, hl r]
    by_cases hr : r = r₀
    · simp [hr]
    · simp [hr]
  | callback => exact absurd rfl hm

end Exclusive

open Scheduler

/-- Who is in a section stays in it while a runner is changed. -/
theorem Scheduler.inSection_of_runner (hlock : ∀ m, s'.lockOf m = s.lockOf m)
    (hl : ∀ r, (s'.runners r).loader = (s.runners r).loader) :
    ∀ r m, m ≠ .callback → (s'.inSection r m ↔ s.inSection r m) := by
  intro r m hm
  cases m with
  | pending | completed | expirer => exact Iff.of_eq (congrArg (· = some r) (hlock _))
  | loader => rw [inSection, inSection, hl r]
  | callback => exact absurd rfl hm

/-- `processPending` goes on outside of its sections. -/
theorem Exclusive.keep_pending (h : Exclusive s) {p : Pending} (hp : s.pending = p) (hnone : p.lock = none)
    (hnone' : s'.pending.lock = none) (hc : s'.completed = s.completed) (he : s'.expirer = s.expirer)
    (hr : s'.runners = s.runners) : Exclusive s' :=
  h.keep (by rw [hp, hnone, hnone']) (by rw [hc]) (by rw [he]) (fun r => by rw [hr]) (fun r => by rw [hr])

/-- `processCompleted` goes on outside of its sections. -/
theorem Exclusive.keep_completed (h : Exclusive s) {c : Completed} (hc : s.completed = c) (hnone : c.lock = none)
    (hnone' : s'.completed.lock = none) (hp : s'.pending = s.pending) (he : s'.expirer = s.expirer)
    (hr : s'.runners = s.runners) :
    Exclusive s' :=
  h.keep (by rw [hp]) (by rw [hc, hnone, hnone']) (by rw [he]) (fun r => by rw [hr]) (fun r => by rw [hr])

theorem Pending.lock_ite {c : Prop} [Decidable c] {p p' : Pending} (hp : p.lock = none) (hp' : p'.lock = none) :
    (if c then p else p').lock = none := by
  split
  · exact hp
  · exact hp'

/-- What the end of a request does to the lock of its runner. -/
theorem RunnerRef.finish_refMu (x : RunnerRef) (hfree : x.refMu = none) :
    x.finish.refMu = none ∨ x.finish.refMu = some .completed := by
  simp only [RunnerRef.finish]
  split_ifs
  · exact .inl hfree
  · exact .inr rfl
  · exact .inl hfree

/-- A step takes a lock as it goes into a section, and lets go of it as it leaves the section. -/
theorem Step.exclusive (hb : Bounds s) (h : Exclusive s) (hs : Step s a s') : Exclusive s' := by
  have hgone : ∀ r, (s.runners r).loader = .gone ↔ (s.runners r).loader = .gone := fun _ => Iff.rfl
  cases hs with
  -- `processPending`
  | takePending hp _ | needsReload _ hp _ => exact h.keep_pending hp rfl (Pending.lock_ite rfl rfl) rfl rfl rfl
  | lookupFound _ hp _ _ | lookupFull hp _ _ _ _ | lookupNone hp _ _ _ | modelError hp
  | updateFreeSpace _ hp _ _ _ | visit hp _ | freed hp
  | delay _ hp | choose hp _ _ | chooseNone hp _ _ | scanIdle hp _ _ | scanBusy hp _ _ | scanNone hp
  | seeUnloaded hp _ =>
    exact h.keep_pending hp rfl rfl rfl rfl rfl
  | serverError _ hp | load _ _ _ hp =>
    obtain ⟨n, hp⟩ | hp := hp
    · exact h.keep_pending hp rfl rfl rfl rfl rfl
    · exact h.keep_pending hp rfl rfl rfl rfl rfl
  | makeRoom _ hp =>
    obtain ⟨n, hp, _⟩ | hp := hp
    · exact h.keep_pending hp rfl rfl rfl rfl rfl
    · exact h.keep_pending hp rfl rfl rfl rfl rfl
  | useLoadedRunner hp hfree =>
    exact h.enter (k := .pending) hfree rfl rfl rfl (congrArg Pending.lock hp) rfl (lockOf_of_pending rfl rfl)
  | handOver hp | evict hp _ =>
    exact h.leave (k := .pending) rfl rfl rfl (congrArg Pending.lock hp) rfl (lockOf_of_pending rfl rfl)
  | @expire q r₀ hp hfree =>
    by_cases hzero : (s.runners r₀).refCount = 0
    · rw [if_pos hzero, if_pos hzero]
      exact h.enter (k := .pending) hfree rfl rfl rfl (congrArg Pending.lock hp) rfl (lockOf_of_pending rfl rfl)
    · rw [if_neg hzero, if_neg hzero]
      have hnone : (s.runners r₀).refMu = none := hfree
      exact h.keep_runner rfl hnone.symm rfl (congrArg Pending.lock hp).symm rfl rfl
  | @store q x hp _ =>
    -- the loader of a runner that is stored has its lock from the start
    have hfree : s.free s.nextRunner := by
      rw [Scheduler.free, hb.fresh _ (Nat.le_refl _)]
    refine h.take (k := .loader) hfree (s.setRunner_apply RunnerRef.refMu _ _) fun r m hm => ?_
    cases m with
    | pending =>
      show (none : Option Nat) = some r ↔ _ ∨ s.pending.lock = some r
      simp [hp, Pending.lock]
    | completed | expirer => exact ⟨.inr, fun hor => hor.elim (fun heq => by cases heq.2) id⟩
    | loader =>
      show ((s.setRunner s.nextRunner _).runners r).loader ≠ .gone ↔ _ ∨ (s.runners r).loader ≠ .gone
      rw [s.setRunner_apply RunnerRef.loader]
      by_cases hr : r = s.nextRunner
      · simp [hr]
      · simp [hr]
    | callback => exact absurd rfl hm
  -- `processCompleted`
  | takeFinished hc _ | lookupFinished hc _ _ | lookupUnloaded hc _ _ | takeExpired hc _ | checkBusy hc _ _
  | sendUnloaded hc _ =>
    exact h.keep_completed hc rfl rfl rfl rfl rfl
  | @finish q r₀ hc hfree =>
    have hloader := RunnerRef.finish_loader (s.runners r₀)
    obtain hnone | hsome := RunnerRef.finish_refMu (s.runners r₀) hfree
    · rw [if_pos hnone]
      exact h.keep_runner rfl (hnone.trans hfree.symm) hloader rfl (congrArg Completed.lock hc).symm rfl
    · rw [if_neg (fun hnone => by rw [hsome] at hnone; cases hnone)]
      exact h.enter (k := .completed) hfree rfl hsome hloader (congrArg Completed.lock hc) rfl
        (lockOf_of_completed rfl rfl)
  | sendIdle hc _ =>
    exact h.leave (k := .completed) rfl rfl rfl (congrArg Completed.lock hc) rfl (lockOf_of_completed rfl rfl)
  | checkIdle hc hfree _ =>
    exact h.enter (k := .completed) hfree rfl rfl rfl (congrArg Completed.lock hc) rfl (lockOf_of_completed rfl rfl)
  | unload hc _ =>
    exact h.leave (k := .completed) rfl rfl rfl (congrArg Completed.lock hc) rfl (lockOf_of_completed rfl rfl)
  -- the goroutines of `load`
  | running hl | failed hl =>
    refine h.keep rfl rfl rfl (s.setRunner_same RunnerRef.refMu rfl) fun r => ?_
    refine (Iff.of_eq (congrArg (· = .gone) (s.setRunner_apply RunnerRef.loader _ _ r))).trans ?_
    split
    · rename_i hr
      rw [hr, hl]
      exact ⟨(fun heq => by cases heq), (fun heq => by cases heq)⟩
    · exact Iff.rfl
  | handLoaded hl | sendFailed hl _ =>
    refine h.leave_loader (fun heq => ?_) (s.setRunner_apply RunnerRef.refMu _ _)
      (s.setRunner_apply RunnerRef.loader _ _)
      fun m => by cases m <;> rfl
    rw [hl] at heq
    cases heq
  -- timers
  | fire _ => exact h.keep_runner rfl rfl rfl rfl rfl rfl
  | callback _ hfree =>
    refine h.take (k := .callback) hfree (s.setRunner_apply RunnerRef.refMu _ _) fun r m hm => ?_
    refine Iff.trans (inSection_of_runner (s := s) ?_ ?_ r m hm) ?_
    · intro m
      cases m <;> rfl
    · exact s.setRunner_same RunnerRef.loader rfl
    · exact ⟨.inr, fun hor => hor.elim (fun heq => absurd heq.2 hm) id⟩
  | sendCallback hm _ =>
    refine h.release (k := .callback) hm (s.setRunner_apply RunnerRef.refMu _ _) fun r m hne => ?_
    refine Iff.trans (inSection_of_runner (s := s) ?_ ?_ r m hne) ?_
    · intro m
      cases m <;> rfl
    · exact s.setRunner_same RunnerRef.loader rfl
    · exact ⟨fun hsec => ⟨fun heq => hne heq.2, hsec⟩, And.right⟩
  -- `expireRunner`
  | expireRunner he _ _ => exact h.keep rfl rfl (congrArg Expirer.lock he).symm (fun _ => rfl) hgone
  | expireIdle he hfree _ =>
    exact h.enter (k := .expirer) hfree rfl rfl rfl (congrArg Expirer.lock he) rfl (lockOf_of_expirer rfl rfl)
  | expireBusy he _ _ => exact h.keep_runner rfl rfl rfl rfl rfl (congrArg Expirer.lock he).symm
  | sendExpire he _ =>
    exact h.leave (k := .expirer) rfl rfl rfl (congrArg Expirer.lock he) rfl (lockOf_of_expirer rfl rfl)
  | _ => exact h.keep rfl rfl rfl (fun _ => rfl) hgone

/-! ## The lock on the loaded runners -/

/-- `processPending` is in `updateFreeSpace`. -/
def Pending.isFreeing : Pending → Prop
  | .freeing _ _ => True
  | _ => False

theorem Pending.isFreeing_iff {p : Pending} : p.isFreeing ↔ ∃ q rs, p = .freeing q rs := by
  cases p with
  | freeing q rs => exact ⟨fun _ => ⟨q, rs, rfl⟩, fun _ => trivial⟩
  | _ =>
    refine ⟨False.elim, ?_⟩
    rintro ⟨q, rs, heq⟩
    cases heq

theorem Pending.isFreeing_ite {c : Prop} [Decidable c] {p p' : Pending} (hp : ¬p.isFreeing) (hp' : ¬p'.isFreeing) :
    ¬(if c then p else p').isFreeing := by
  split
  · exact hp
  · exact hp'

/-- The lock on the loaded runners is that of `updateFreeSpace` or of `expireRunner`. -/
def LoadedExclusive (s : Scheduler) : Prop :=
  ∀ m, s.loadedMu = some m ↔ (m = .pending ∧ s.pending.isFreeing) ∨ (m = .expirer ∧ s.expirer ≠ .gone)

namespace LoadedExclusive

theorem keep (h : LoadedExclusive s) (hmu : s'.loadedMu = s.loadedMu) (hp : s'.pending.isFreeing ↔ s.pending.isFreeing)
    (he : s'.expirer = .gone ↔ s.expirer = .gone) : LoadedExclusive s' := by
  intro m
  rw [hmu, h m, hp, Ne, Ne, he]

theorem keep_pending (h : LoadedExclusive s) {p : Pending} (hp : s.pending = p) (hnot : ¬p.isFreeing)
    (hnot' : ¬s'.pending.isFreeing) (hmu : s'.loadedMu = s.loadedMu) (he : s'.expirer = s.expirer) :
    LoadedExclusive s' :=
  h.keep hmu (by rw [hp]; exact iff_of_false hnot' hnot) (by rw [he])

/-- Nobody has the lock. -/
theorem of_none (hmu : s'.loadedMu = none) (hp : ¬s'.pending.isFreeing) (he : s'.expirer = .gone) :
    LoadedExclusive s' := by
  intro m
  rw [hmu, he]
  simp [hp]

/-- While the lock is free nobody is in a section that has it. -/
theorem free (h : LoadedExclusive s) (hfree : s.loadedMu = none) : ¬s.pending.isFreeing ∧ s.expirer = .gone := by
  refine ⟨fun hp => ?_, by_contra fun he => ?_⟩
  · have hm := (h .pending).2 (.inl ⟨rfl, hp⟩)
    rw [hfree] at hm
    cases hm
  · have hm := (h .expirer).2 (.inr ⟨rfl, he⟩)
    rw [hfree] at hm
    cases hm

end LoadedExclusive

theorem Step.loadedExclusive (h : LoadedExclusive s) (hs : Step s a s') : LoadedExclusive s' := by
  cases hs with
  | takePending hp _ | needsReload _ hp _
  | expire hp _ => exact h.keep_pending hp id (Pending.isFreeing_ite id id) rfl rfl
  | lookupFound _ hp _ _ | lookupFull hp _ _ _ _ | lookupNone hp _ _ _ | useLoadedRunner hp _ | handOver hp
  | modelError hp | store hp _
  | delay _ hp | choose hp _ _ | chooseNone hp _ _ | scanIdle hp _ _ | scanBusy hp _ _ | scanNone hp | evict hp _
  | seeUnloaded hp _ =>
    exact h.keep_pending hp id id rfl rfl
  | serverError _ hp | load _ _ _ hp =>
    obtain ⟨n, hp⟩ | hp := hp
    · exact h.keep_pending hp id id rfl rfl
    · exact h.keep_pending hp id id rfl rfl
  | makeRoom _ hp =>
    obtain ⟨n, hp, _⟩ | hp := hp
    · exact h.keep_pending hp id id rfl rfl
    · exact h.keep_pending hp id id rfl rfl
  | updateFreeSpace _ _ _ hfree _ =>
    intro m
    have hgone := (h.free hfree).2
    show some Holder.pending = some m ↔ (m = .pending ∧ True) ∨ (m = .expirer ∧ s.expirer ≠ .gone)
    simp [hgone, eq_comm]
  | visit hp _ => exact h.keep rfl (by rw [hp]; exact Iff.rfl) Iff.rfl
  | freed hp =>
    refine .of_none rfl id (by_contra fun he => ?_)
    have hpending := (h .pending).2 (.inl ⟨rfl, by rw [hp]; trivial⟩)
    have hexpirer := (h .expirer).2 (.inr ⟨rfl, he⟩)
    rw [hpending] at hexpirer
    cases hexpirer
  | expireRunner _ hfree _ =>
    intro m
    have hnot := (h.free hfree).1
    show some Holder.expirer = some m ↔ (m = .pending ∧ s.pending.isFreeing) ∨
      (m = .expirer ∧ Expirer.locking _ ≠ .gone)
    simp [hnot, eq_comm]
  | expireIdle he _ _ =>
    exact h.keep rfl Iff.rfl (by rw [he]; exact ⟨(fun heq => by cases heq), (fun heq => by cases heq)⟩)
  | expireBusy he _ _ | sendExpire he _ =>
    refine .of_none rfl (fun hp => ?_) rfl
    have hpending := (h .pending).2 (.inl ⟨rfl, hp⟩)
    have hexpirer := (h .expirer).2 (.inr ⟨rfl, by rw [he]; exact (fun heq => by cases heq)⟩)
    rw [hpending] at hexpirer
    cases hexpirer
  | _ => exact h.keep rfl Iff.rfl Iff.rfl

/-! ## Who holds a lock -/

/-- A goroutine in a section has its lock. -/
structure Locks (s : Scheduler) : Prop where
  handing : ∀ q r, s.pending = .handing q r → (s.runners r).refMu = some .pending
  evicting : ∀ q r, s.pending = .evicting q r → (s.runners r).refMu = some .pending
  idling : ∀ r, s.completed = .idling r → (s.runners r).refMu = some .completed
  unloading : ∀ r, s.completed = .unloading r → (s.runners r).refMu = some .completed
  loader : ∀ r, (s.runners r).loader ≠ .gone → (s.runners r).refMu = some .loader
  sending : ∀ r, s.expirer = .sending r → (s.runners r).refMu = some .expirer
  callback : ∀ r, (s.runners r).refMu = some .callback → 0 < (s.runners r).callbacks
  freeing : ∀ q rs, s.pending = .freeing q rs → s.loadedMu = some .pending
  expirer : s.expirer ≠ .gone → s.loadedMu = some .expirer

/-- A lock that is taken is that of a goroutine in its section. -/
structure Holders (s : Scheduler) : Prop where
  pending : ∀ r, (s.runners r).refMu = some .pending → s.pending.lock = some r
  completed : ∀ r, (s.runners r).refMu = some .completed → s.completed.lock = some r
  loader : ∀ r, (s.runners r).refMu = some .loader → (s.runners r).loader ≠ .gone
  expirer : ∀ r, (s.runners r).refMu = some .expirer → s.expirer.lock = some r
  loadedPending : s.loadedMu = some .pending → ∃ q rs, s.pending = .freeing q rs
  loaded : s.loadedMu = none ∨ s.loadedMu = some .pending ∨ s.loadedMu = some .expirer

/-- A timer callback that has a lock is one of those that have not sent their event. -/
theorem Step.callbacks (h : ∀ r, (s.runners r).refMu = some .callback → 0 < (s.runners r).callbacks)
    (hs : Step s a s') :
    ∀ r, (s'.runners r).refMu = some .callback → 0 < (s'.runners r).callbacks := by
  have hset : ∀ {r₀ x}, (x.refMu = some .callback → 0 < x.callbacks) →
      ∀ r, ((s.setRunner r₀ x).runners r).refMu = some .callback → 0 < ((s.setRunner r₀ x).runners r).callbacks := by
    intro r₀ x hx r
    rw [Scheduler.setRunner_runners]
    split
    · exact hx
    · exact h r
  cases hs with
  | useLoadedRunner _ _ | handOver _ | store _ _ | evict _ _ | sendIdle _ _ | checkIdle _ _ _ | unload _ _
  | handLoaded _ | sendFailed _ _
  | sendCallback _ _ | expireIdle _ _ _ | sendExpire _ _ =>
    exact hset fun hm => by cases hm
  | @expire q r₀ _ _ =>
    refine hset fun hm => ?_
    dsimp only at hm
    split at hm
    · cases hm
    · cases hm
  | @finish q r₀ _ hfree =>
    refine hset fun hm => ?_
    obtain hnone | hsome := RunnerRef.finish_refMu (s.runners r₀) hfree
    · rw [hnone] at hm
      cases hm
    · rw [hsome] at hm
      cases hm
  | @running q r₀ _ | @failed q r₀ _ => exact hset (h r₀)
  | fire _ => exact hset fun _ => Nat.succ_pos _
  | callback hpos _ => exact hset fun _ => hpos
  | @expireBusy r₀ _ _ _ => exact hset (h r₀)
  | _ => exact h

/-- The locks in every run. -/
theorem exclusive {ok : Scheduler → Action → Prop} (h : (scheduler ok).Reachable s) : Exclusive s ∧ LoadedExclusive s ∧
    ∀ r, (s.runners r).refMu = some .callback → 0 < (s.runners r).callbacks := by
  induction h with
  | @init s hi =>
    obtain ⟨maxQueue, rfl⟩ := hi
    refine ⟨?_, ?_, ?_⟩
    · intro r m
      cases m <;> simp [inSection, lockOf, Pending.lock, Completed.lock, Expirer.lock]
    · exact .of_none rfl id rfl
    · intro r hm
      cases hm
  | step hr hst ih =>
    obtain ⟨a, _, hs⟩ := hst
    exact ⟨hs.exclusive (bounds hr) ih.1, hs.loadedExclusive ih.2.1, hs.callbacks ih.2.2⟩

theorem locks {ok : Scheduler → Action → Prop} (h : (scheduler ok).Reachable s) : Locks s := by
  obtain ⟨hex, hloaded, hcallback⟩ := exclusive h
  refine ⟨?_, ?_, ?_, ?_, ?_, ?_, hcallback, ?_, ?_⟩
  · exact fun q r hp => (hex r .pending).2 (congrArg Pending.lock hp)
  · exact fun q r hp => (hex r .pending).2 (congrArg Pending.lock hp)
  · exact fun r hc => (hex r .completed).2 (congrArg Completed.lock hc)
  · exact fun r hc => (hex r .completed).2 (congrArg Completed.lock hc)
  · exact fun r hl => (hex r .loader).2 hl
  · exact fun r he => (hex r .expirer).2 (congrArg Expirer.lock he)
  · exact fun q rs hp => (hloaded .pending).2 (.inl ⟨rfl, Pending.isFreeing_iff.2 ⟨q, rs, hp⟩⟩)
  · exact fun he => (hloaded .expirer).2 (.inr ⟨rfl, he⟩)

theorem holders {ok : Scheduler → Action → Prop} (h : (scheduler ok).Reachable s) : Holders s := by
  obtain ⟨hex, hloaded, -⟩ := exclusive h
  refine ⟨?_, ?_, ?_, ?_, ?_, ?_⟩
  · exact fun r hm => (hex r .pending).1 hm
  · exact fun r hm => (hex r .completed).1 hm
  · exact fun r hm => (hex r .loader).1 hm
  · exact fun r hm => (hex r .expirer).1 hm
  · intro hm
    obtain ⟨-, hp⟩ | ⟨heq, -⟩ := (hloaded .pending).1 hm
    · exact Pending.isFreeing_iff.1 hp
    · cases heq
  · cases hm : s.loadedMu with
    | none => exact .inl rfl
    | some m =>
      obtain ⟨rfl, -⟩ | ⟨rfl, -⟩ := (hloaded m).1 hm
      · exact .inr (.inl rfl)
      · exact .inr (.inr rfl)

end Ollama.Sched
