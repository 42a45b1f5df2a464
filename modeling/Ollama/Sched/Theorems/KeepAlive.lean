import Ollama.Sched.Theorems.Loaded

/-!
# Keep alive

A runner that went idle with a duration to stay, and to which nothing was done since, has `kept` set. It is not
unloaded as long as no expired event of a runner is on its way when it goes idle (`goesIdleClean`). An event that
found the runner busy does not unload it, but it is not dropped when the runner is renewed: it is sent again until the
runner is idle, and then it unloads it, however long it was to stay.
-/

namespace Ollama.Sched

open Lib

/-- A runner goes idle with a duration to stay only while no expired event of it is on its way. -/
def goesIdleClean (s : Scheduler) (a : Action) : Prop :=
  a = .finish → ∀ q r, s.completed = .finishing q r → (s.runners r).refCount = 1 → 0 < (s.runners r).sessionDuration →
    ¬s.outstanding r

/-- A runner that is kept is idle, and no expired event of it is on its way or about to be sent. -/
structure Kept (s : Scheduler) : Prop where
  idle : ∀ r, (s.runners r).kept = true → (s.runners r).refCount = 0
  kept : ∀ r, (s.runners r).kept = true → ¬s.outstanding r
  evicting : ∀ q r, s.pending = .evicting q r → (s.runners r).kept = false
  idling : ∀ r, s.completed = .idling r → (s.runners r).kept = false
  loader : ∀ r, (s.runners r).loader ≠ .gone → (s.runners r).kept = false
  sending : ∀ r, s.expirer = .sending r → (s.runners r).kept = false
  loading : ∀ q x, s.pending = .loading q x → x.kept = false

variable {s s' : Scheduler} {a : Action} {r : Nat}

/-- A runner that is to stay after a request was held by that request only. -/
theorem RunnerRef.finish_kept {x : RunnerRef} (h : x.finish.kept = true) :
    x.refCount = 1 ∧ 0 < x.sessionDuration ∧ x.finish.refCount = 0 ∧ x.finish.refMu = x.refMu := by
  simp only [RunnerRef.finish] at h ⊢
  split_ifs at h ⊢ with hbusy hgo
  have hzero : decrement x.refCount = 0 := Nat.eq_zero_of_not_pos hbusy
  refine ⟨?_, by omega, hzero, rfl⟩
  unfold decrement at hzero
  split at hzero
  · cases hzero
  · omega

namespace Kept

variable {q : Nat} {x : RunnerRef}

/-- A runner that is kept was kept before, or goes idle. -/
theorem touch (h : Kept s) (ht : Touch s r a x) (hkept : x.kept = true) : (s.runners r).kept = true ∨
    (a = .finish ∧ s.free r ∧ ∃ q, s.completed = .finishing q r ∧ (s.runners r).refCount = 1 ∧
      0 < (s.runners r).sessionDuration) := by
  cases ht with
  | store hp _ =>
    rw [h.loading _ _ hp] at hkept
    cases hkept
  | grant _ _ | expireNow _ | unload _ | fire _ => cases hkept
  | finish hc hfree =>
    obtain ⟨hone, hpos, -⟩ := RunnerRef.finish_kept hkept
    exact .inr ⟨rfl, hfree, _, hc, hone, hpos⟩
  | _ => exact .inl hkept

/-- A runner that is not kept is so while its lock is taken. -/
theorem keep (h : Kept s) {m : Holder} (hkept : (s.runners r).kept = false) (hmu : (s.runners r).refMu = some m)
    (hs : Step s a s') :
    (s'.runners r).kept = false := by
  rw [← Bool.not_eq_true]
  intro htrue
  obtain hold | ⟨-, hfree, -⟩ := h.touch (hs.touch r) htrue
  · rw [hkept] at hold
    cases hold
  · rw [hfree] at hmu
    cases hmu

/-- A runner that is kept is idle. -/
theorem touch_idle (h : Kept s) (ht : Touch s r a x) (hkept : x.kept = true) : x.refCount = 0 := by
  cases ht with
  | store hp _ =>
    rw [h.loading _ _ hp] at hkept
    cases hkept
  | grant _ _ | expireNow _ | unload _ | fire _ => cases hkept
  | finish _ _ => exact (RunnerRef.finish_kept hkept).2.2.1
  | failed hl =>
    have hnot := h.loader r (fun heq => by rw [hl] at heq; cases heq)
    rw [hnot] at hkept
    cases hkept
  | _ => exact h.idle r hkept

/-- Nobody sends the expired event of a runner that is kept. -/
theorem not_sends (h : Kept s) (hkept : (s.runners r).kept = true) : ¬Step.sends s a r := by
  have hfalse : (s.runners r).kept ≠ false := fun heq => by
    rw [hkept] at heq
    cases heq
  rintro (⟨-, q, hp⟩ | ⟨-, hc⟩ | ⟨-, hl⟩ | ⟨-, he⟩)
  · exact hfalse (h.evicting q r hp)
  · exact hfalse (h.idling r hc)
  · exact hfalse (h.loader r (fun heq => by rw [hl] at heq; cases heq))
  · exact hfalse (h.sending r he)

/-- No expired event of a runner that is kept is on its way. -/
theorem step_kept (h : Kept s) (hl : Locks s) (hok : goesIdleClean s a) (hs : Step s a s') :
    ∀ r, (s'.runners r).kept = true → ¬s'.outstanding r := by
  intro r hkept ho
  obtain hold | hsends | ⟨rfl, rfl⟩ | ⟨rfl, -⟩ := step_outstanding hs (hl.callback r) ho
  · obtain hkept' | ⟨ha, -, q, hc, hone, hpos⟩ := h.touch (hs.touch r) hkept
    · exact h.kept r hkept' hold
    · exact hok ha q r hc hone hpos hold
  · obtain hkept' | ⟨ha, -⟩ := h.touch (hs.touch r) hkept
    · exact h.not_sends hkept' hsends
    · obtain ⟨heq, -⟩ | ⟨heq, -⟩ | ⟨heq, -⟩ | ⟨heq, -⟩ := hsends <;> cases ha.symm.trans heq
  · cases hs with
    | store hp hfree =>
      rw [(step_store (.store hp hfree) hp).2.1] at hkept
      exact absurd hkept (by rw [h.loading _ _ hp]; exact Bool.false_ne_true)
  · cases hs with
    | fire _ =>
      rw [Scheduler.setRunner_runners, if_pos rfl] at hkept
      cases hkept

theorem step_evicting (h : Kept s) (hl : Locks s) (hs : Step s a s') :
    ∀ q r, s'.pending = .evicting q r → (s'.runners r).kept = false := by
  intro q r hp
  obtain hold | ⟨-, -, m, hx⟩ := Sched.step_evicting hs hp
  · exact h.keep (h.evicting q r hold) (hl.evicting q r hold) hs
  · rw [hx]
    rfl

theorem step_idling (h : Kept s) (hl : Locks s) (hs : Step s a s') :
    ∀ r, s'.completed = .idling r → (s'.runners r).kept = false := by
  intro r hc
  obtain hold | ⟨q, -, -, hfree, hx, hmu⟩ := Sched.step_idling hs hc
  · exact h.keep (h.idling r hold) (hl.idling r hold) hs
  · rw [hx, ← Bool.not_eq_true]
    exact fun hkept => hmu ((RunnerRef.finish_kept hkept).2.2.2.trans hfree)

theorem touch_loader (h : Kept s) (hl : Locks s) (ht : Touch s r a x) (hload : x.loader ≠ .gone) : x.kept = false := by
  cases ht with
  | @store q x hp _ => exact h.loading q x hp
  | grant _ _ | expireNow _ | unload _ | fire _ => rfl
  | finish _ hfree =>
    rw [RunnerRef.finish_loader] at hload
    have hmu := hl.loader r hload
    rw [hfree] at hmu
    cases hmu
  | running hstart | failed hstart => exact h.loader r (fun heq => by rw [hstart] at heq; cases heq)
  | gone => exact absurd rfl hload
  | _ => exact h.loader r hload

theorem step_sending (h : Kept s) (hl : Locks s) (hs : Step s a s') :
    ∀ r, s'.expirer = .sending r → (s'.runners r).kept = false := by
  intro r he
  obtain hold | ⟨-, -, hx⟩ := Sched.step_sending hs he
  · exact h.keep (h.sending r hold) (hl.sending r hold) hs
  · rw [hx]
    rfl

theorem step_loading (h : Kept s) (hs : Step s a s') : ∀ q x, s'.pending = .loading q x → x.kept = false := by
  intro q x hp
  obtain hold | ⟨_, _, _, -, -, rfl⟩ := Sched.step_loading hs hp
  · exact h.loading q x hold
  · rfl

theorem step (h : Kept s) (hl : Locks s) (hok : goesIdleClean s a) (hs : Step s a s') : Kept s' :=
  ⟨fun r => h.touch_idle (hs.touch r), h.step_kept hl hok hs, h.step_evicting hl hs, h.step_idling hl hs,
    fun r => h.touch_loader hl (hs.touch r), h.step_sending hl hs, h.step_loading hs⟩

end Kept

theorem kept (h : (scheduler goesIdleClean).Reachable s) : Kept s := by
  induction h with
  | @init s hi =>
    obtain ⟨maxQueue, rfl⟩ := hi
    constructor <;> simp
  | step hr hst ih =>
    obtain ⟨a, hok, hs⟩ := hst
    exact ih.step (locks hr) hok hs

/-- A step closes no runner but the one that is unloaded. -/
theorem llama_of_not_unloading (hlt : r < s.nextRunner) (hunl : s.completed ≠ .unloading r) (hs : Step s a s') :
    (s'.runners r).llama = (s.runners r).llama := by
  obtain hsame | ⟨-, hc, -⟩ := (hs.touch r).llama fun _ => Nat.ne_of_lt hlt
  · exact hsame
  · exact absurd hc hunl

/-- In every run in which a runner goes idle with a duration to stay only while no expired event of it is on its way,
a runner that is kept is idle, `processCompleted` does not have it as expired, and no step closes it. Nor does a step
close a runner that is busy, whatever event of it is on its way. -/
theorem kept_runner_stays (h : (scheduler goesIdleClean).Reachable s) (r : Nat) :
    ((s.runners r).kept = true → (s.runners r).refCount = 0 ∧ s.completed ≠ .expired r ∧ s.completed ≠ .unloading r ∧
      ∀ a s', Step s a s' → (s'.runners r).llama = (s.runners r).llama) ∧
    (0 < (s.runners r).refCount → s.completed ≠ .unloading r ∧
      ∀ a s', Step s a s' → (s'.runners r).llama = (s.runners r).llama) := by
  refine ⟨fun hr => ?_, fun hbusy => ?_⟩
  · have hk := kept h
    have hout : ¬s.outstanding r := hk.kept r hr
    have hexp : s.completed ≠ .expired r := fun hc => hout (by simp [Scheduler.outstanding, hc])
    have hunl : s.completed ≠ .unloading r := fun hc => hout (by simp [Scheduler.outstanding, hc])
    have hlt : r < s.nextRunner := (bounds h).of_touched fun hfresh => by
      rw [hfresh] at hr
      cases hr
    exact ⟨hk.idle r hr, hexp, hunl, fun _ _ hs => llama_of_not_unloading hlt hunl hs⟩
  · have hunl : s.completed ≠ .unloading r := fun hc => Nat.ne_of_gt hbusy (unloading_idle h r hc)
    have hlt : r < s.nextRunner := (bounds h).of_touched fun hfresh => by
      rw [hfresh] at hbusy
      cases hbusy
    exact ⟨hunl, fun _ _ hs => llama_of_not_unloading hlt hunl hs⟩

/-- The event of a timer that fired before the last grant unloads the runner once the request has finished, though it
was to stay. -/
theorem kept_runner_unloaded :
    ¬∀ s, (scheduler anyStep).Reachable s → ∀ r, (s.runners r).kept = true → s.completed ≠ .unloading r := by
  intro h
  have hrun : (scheduler anyStep).Leads (fun s => (s.runners 0).kept = true ∧
    s.completed = .unloading 0) { maxQueue := 512 } := by
    -- a runner is loaded for a request that wants it to stay, the request finishes, and the timer fires
    refine .step ⟨_, trivial, .getRunner (modelAt "a") {} (some 5)⟩ ?_
    refine .step ⟨_, trivial, .takePending rfl rfl⟩ ?_
    refine .step ⟨.lookup 0, trivial, .lookupNone rfl rfl rfl (by simp)⟩ ?_
    refine .step ⟨_, trivial, .load 4 1 0 (.inl ⟨_, rfl⟩)⟩ ?_
    refine .step ⟨_, trivial, .store rfl rfl⟩ ?_
    refine .step ⟨.running 0, trivial, .running rfl⟩ ?_
    refine .step ⟨.handLoaded 0, trivial, .handLoaded rfl⟩ ?_
    refine .step ⟨.cancel 0, trivial, .cancel Nat.zero_lt_one⟩ ?_
    refine .step ⟨.sendFinished 0, trivial, .sendFinished rfl rfl (.inl (by decide))⟩ ?_
    refine .step ⟨_, trivial, .takeFinished rfl rfl⟩ ?_
    refine .step ⟨_, trivial, .lookupFinished rfl rfl rfl⟩ ?_
    refine .step ⟨_, trivial, .finish rfl rfl⟩ ?_
    refine .step ⟨.fire 0, trivial, .fire rfl⟩ ?_
    refine .step ⟨.callback 0, trivial, .callback Nat.zero_lt_one rfl⟩ ?_
    refine .step ⟨.sendCallback 0, trivial, .sendCallback rfl (.inl (by decide))⟩ ?_
    -- the runner is granted again before the event is handled, and the event is put off
    refine .step ⟨_, trivial, .getRunner (modelAt "a") {} (some 5)⟩ ?_
    refine .step ⟨_, trivial, .takePending rfl rfl⟩ ?_
    refine .step ⟨.lookup 0, trivial, .lookupFound 0 rfl rfl rfl⟩ ?_
    refine .step ⟨_, trivial, .needsReload false rfl rfl⟩ ?_
    refine .step ⟨_, trivial, .useLoadedRunner rfl rfl⟩ ?_
    refine .step ⟨_, trivial, .handOver rfl⟩ ?_
    refine .step ⟨_, trivial, .takeExpired rfl rfl⟩ ?_
    refine .step ⟨_, trivial, .checkBusy rfl rfl Nat.zero_lt_one⟩ ?_
    -- the request finishes, the runner is to stay for as long again, and the event is sent again
    refine .step ⟨.cancel 1, trivial, .cancel (by decide)⟩ ?_
    refine .step ⟨.sendFinished 1, trivial, .sendFinished rfl rfl (.inl (by decide))⟩ ?_
    refine .step ⟨_, trivial, .takeFinished rfl rfl⟩ ?_
    refine .step ⟨_, trivial, .lookupFinished rfl rfl rfl⟩ ?_
    refine .step ⟨_, trivial, .finish rfl rfl⟩ ?_
    refine .step ⟨.retry 0, trivial, .retry (List.mem_singleton.2 rfl) (.inl (by decide))⟩ ?_
    refine .step ⟨_, trivial, .takeExpired rfl rfl⟩ ?_
    refine .step ⟨_, trivial, .checkIdle rfl rfl rfl⟩ ?_
    exact .here ⟨rfl, rfl⟩
  obtain ⟨s, hs, hkept, hc⟩ := hrun.exists_reachable (.init ⟨512, rfl⟩)
  exact h s hs 0 hkept hc

/-- A step other than the end of a request is clean. -/
theorem goesIdleClean_of_ne (h : a ≠ .finish) : goesIdleClean s a := fun ha => absurd ha h

/-- A runner stays after its first request. -/
theorem kept_runner_stays_first : ∃ s, (scheduler goesIdleClean).Reachable s ∧ (s.runners 0).kept = true ∧
    (s.runners 0).refCount = 0 ∧ s.completed ≠ .unloading 0 := by
  have hrun : (scheduler goesIdleClean).Leads (fun s => (s.runners 0).kept = true) { maxQueue := 512 } := by
    refine .step ⟨_, goesIdleClean_of_ne (by simp), .getRunner (modelAt "a") {} (some 5)⟩ ?_
    refine .step ⟨_, goesIdleClean_of_ne (by simp), .takePending rfl rfl⟩ ?_
    refine .step ⟨.lookup 0, goesIdleClean_of_ne (by simp), .lookupNone rfl rfl rfl (by simp)⟩ ?_
    refine .step ⟨_, goesIdleClean_of_ne (by simp), .load 4 1 0 (.inl ⟨_, rfl⟩)⟩ ?_
    refine .step ⟨_, goesIdleClean_of_ne (by simp), .store rfl rfl⟩ ?_
    refine .step ⟨.running 0, goesIdleClean_of_ne (by simp), .running rfl⟩ ?_
    refine .step ⟨.handLoaded 0, goesIdleClean_of_ne (by simp), .handLoaded rfl⟩ ?_
    refine .step ⟨.cancel 0, goesIdleClean_of_ne (by simp), .cancel Nat.zero_lt_one⟩ ?_
    refine .step ⟨.sendFinished 0, goesIdleClean_of_ne (by simp), .sendFinished rfl rfl (.inl (by decide))⟩ ?_
    refine .step ⟨_, goesIdleClean_of_ne (by simp), .takeFinished rfl rfl⟩ ?_
    refine .step ⟨_, goesIdleClean_of_ne (by simp), .lookupFinished rfl rfl rfl⟩ ?_
    refine .step ⟨_, ?_, .finish rfl rfl⟩ ?_
    · intro _ q r hc _ _ hout
      have hr : r = 0 := by
        cases hc
        rfl
      subst hr
      rcases hout with hc' | hc' | hc' | hc' | hc' <;> cases hc'
    · exact .here rfl
  obtain ⟨s, hs, hkept⟩ := hrun.exists_reachable (.init ⟨512, rfl⟩)
  obtain ⟨hidle, _, hunl, _⟩ := (kept_runner_stays hs 0).1 hkept
  exact ⟨s, hs, hkept, hidle, hunl⟩

end Ollama.Sched
