import Ollama.Sched.Steps

/-!
# What a step leaves as it is

The fields of a state after a runner or a request of it has changed, and an invariant of every run: only runners that
were made are named anywhere (`Bounds`). It holds whatever the condition on the steps, so it is stated for one step
and for `scheduler ok`.
-/

namespace Ollama.Sched

open Lib

namespace Scheduler

@[simp] theorem setRunner_runners (s : Scheduler) (r r' : Nat) (x : RunnerRef) :
    (s.setRunner r x).runners r' = if r' = r then x else s.runners r' := rfl

@[simp] theorem setRequest_requests (s : Scheduler) (q q' : Nat) (x : LlmRequest) :
    (s.setRequest q x).requests q' = if q' = q then x else s.requests q' := rfl

/-- What is the same of a runner that has changed is the same of every runner. -/
theorem setRunner_same {β : Type*} (f : RunnerRef → β) (s : Scheduler) {r₀ : Nat} {x : RunnerRef}
    (hx : f x = f (s.runners r₀)) (r : Nat) :
    f ((s.setRunner r₀ x).runners r) = f (s.runners r) := by
  rw [setRunner_runners]
  split
  · rename_i hr
    rw [hx, hr]
  · rfl

/-- What is the same of a request that has changed is the same of every request. -/
theorem setRequest_same {β : Type*} (f : LlmRequest → β) (s : Scheduler) {q₀ : Nat} {x : LlmRequest}
    (hx : f x = f (s.requests q₀)) (q : Nat) :
    f ((s.setRequest q₀ x).requests q) = f (s.requests q) := by
  rw [setRequest_requests]
  split
  · rename_i hq
    rw [hx, hq]
  · rfl

/-- A field of the runners after one of them has changed. -/
theorem setRunner_apply {β : Type*} (f : RunnerRef → β) (s : Scheduler) (r₀ : Nat) (x : RunnerRef) (r : Nat) :
    f ((s.setRunner r₀ x).runners r) = if r = r₀ then f x else f (s.runners r) := by
  rw [setRunner_runners]
  exact apply_ite ..

end Scheduler

/-- What the end of a request leaves as it is. -/
theorem RunnerRef.finish_same {β : Type*} (f : RunnerRef → β)
    (hf : ∀ (x : RunnerRef) refCount expireTimer refMu kept, f { x with refCount, expireTimer, refMu, kept } = f x)
    (x : RunnerRef) :
    f x.finish = f x := by
  simp only [RunnerRef.finish]
  split_ifs
  · exact hf x _ x.expireTimer x.refMu false
  · exact hf x _ none _ false
  · exact hf x _ _ x.refMu true

/-- Finishing a request leaves what the loader holds. -/
theorem RunnerRef.finish_loader (x : RunnerRef) : x.finish.loader = x.loader :=
  finish_same RunnerRef.loader (fun _ _ _ _ _ => rfl) x

/-! ## The runners that are named -/

/-- The runners `processPending` has in hand. -/
def Pending.runners : Pending → List Nat
  | .idle => []
  | .trying _ => []
  | .reuse _ r => [r]
  | .using _ r => [r]
  | .handing _ r => [r]
  | .placing _ _ => []
  | .freeing _ rs => rs
  | .fitting _ => []
  | .loading _ _ => []
  | .choosing _ => []
  | .scanning _ first rs => first :: rs
  | .expiring _ r => [r]
  | .evicting _ r => [r]
  | .waiting _ => []

/-- The runners `processCompleted` has in hand. -/
def Completed.runners : Completed → List Nat
  | .idle => []
  | .finished _ => []
  | .finishing _ r => [r]
  | .idling r => [r]
  | .expired r => [r]
  | .unloading r => [r]
  | .unloaded => []

/-- The runners the call of `expireRunner` has in hand. -/
def Expirer.runners : Expirer → List Nat
  | .gone => []
  | .locking r => [r]
  | .sending r => [r]

/-- Every runner that is named was made, and those that were not made are untouched. -/
structure Bounds (s : Scheduler) : Prop where
  loaded : ∀ r ∈ s.loaded.map Prod.snd, r < s.nextRunner
  expiredCh : ∀ r ∈ s.expiredCh, r < s.nextRunner
  retries : ∀ r ∈ s.retries, r < s.nextRunner
  pending : ∀ r ∈ s.pending.runners, r < s.nextRunner
  completed : ∀ r ∈ s.completed.runners, r < s.nextRunner
  expirer : ∀ r ∈ s.expirer.runners, r < s.nextRunner
  fresh : ∀ r, s.nextRunner ≤ r → s.runners r = {}

/-- What a path leads to is loaded. -/
theorem mem_of_lookup {m : List (Bytes × Nat)} {k : Bytes} {r : Nat} (h : m.lookup k = some r) :
    r ∈ m.map Prod.snd := by
  obtain ⟨m₁, m₂, rfl, _⟩ := List.lookup_eq_some_iff.1 h
  simp

variable {s s' : Scheduler} {a : Action}

/-- The runners that `processPending` gets in hand are loaded. -/
theorem step_pendingRunners {r : Nat} (hs : Step s a s') (hr : r ∈ s'.pending.runners) :
    r ∈ s.pending.runners ∨ r ∈ s.loaded.map Prod.snd := by
  have hkept : ∀ {p : Pending}, s.pending = p → r ∈ p.runners → r ∈ s.pending.runners := by
    rintro p rfl hmem
    exact hmem
  cases hs with
  | takePending _ _ =>
    dsimp only at hr
    split at hr
    · exact absurd hr List.not_mem_nil
    · exact absurd hr List.not_mem_nil
  | lookupFound _ _ _ hlook => exact .inr (List.mem_singleton.1 hr ▸ mem_of_lookup hlook)
  | needsReload _ hp _ =>
    dsimp only at hr
    split at hr
    · exact .inl (hkept hp hr)
    · exact .inl (hkept hp hr)
  | updateFreeSpace _ _ _ _ hperm => exact .inr (hperm.mem_iff.1 hr)
  | visit hp _ => exact .inl (hkept hp (List.mem_cons_of_mem _ hr))
  | choose _ _ hperm =>
    obtain rfl | hrest := List.mem_cons.1 hr
    · exact .inr (hperm.mem_iff.1 List.mem_cons_self)
    · exact .inr (hperm.mem_iff.1 hrest)
  | scanIdle hp _ _ => exact .inl (hkept hp (List.mem_singleton.1 hr ▸ List.mem_cons_of_mem _ List.mem_cons_self))
  | scanBusy hp _ _ =>
    obtain rfl | hrest := List.mem_cons.1 hr
    · exact .inl (hkept hp List.mem_cons_self)
    · exact .inl (hkept hp (List.mem_cons_of_mem _ (List.mem_cons_of_mem _ hrest)))
  | useLoadedRunner hp _ | scanNone hp => exact .inl (hkept hp hr)
  | expire hp _ =>
    dsimp only at hr
    split at hr
    · exact .inl (hkept hp hr)
    · exact absurd hr List.not_mem_nil
  | _ => first | exact absurd hr List.not_mem_nil | exact .inl hr

/-- Those that `processCompleted` gets in hand are loaded, or expired. -/
theorem step_completedRunners {r : Nat} (hs : Step s a s') (hr : r ∈ s'.completed.runners) :
    r ∈ s.completed.runners ∨ r ∈ s.loaded.map Prod.snd ∨ r ∈ s.expiredCh := by
  have hkept : ∀ {c : Completed}, s.completed = c → r ∈ c.runners → r ∈ s.completed.runners := by
    rintro c rfl hmem
    exact hmem
  cases hs with
  | lookupFinished _ _ hlook => exact .inr (.inl (List.mem_singleton.1 hr ▸ mem_of_lookup hlook))
  | finish hc _ =>
    dsimp only at hr
    split at hr
    · exact absurd hr List.not_mem_nil
    · exact .inl (hkept hc hr)
  | takeExpired _ hch => exact .inr (.inr (hch ▸ List.mem_singleton.1 hr ▸ List.mem_cons_self))
  | checkIdle hc _ _ => exact .inl (hkept hc hr)
  | _ => first | exact absurd hr List.not_mem_nil | exact .inl hr

/-- The runner that a call of `expireRunner` gets in hand is loaded. -/
theorem step_expirerRunners {r : Nat} (hs : Step s a s') (hr : r ∈ s'.expirer.runners) :
    r ∈ s.expirer.runners ∨ r ∈ s.loaded.map Prod.snd := by
  cases hs with
  | expireRunner _ _ hlook => exact .inr (List.mem_singleton.1 hr ▸ mem_of_lookup hlook)
  | expireIdle he _ _ => exact .inl (he ▸ hr)
  | _ => first | exact absurd hr List.not_mem_nil | exact .inl hr

/-- A runner that was made stays. -/
theorem step_nextRunner (hs : Step s a s') : s.nextRunner ≤ s'.nextRunner := by
  cases hs with
  | store _ _ => exact Nat.le_succ _
  | _ => exact Nat.le_refl _

namespace Bounds

/-- Who has a runner in hand has one that was made. -/
theorem of_pending (h : Bounds s) {p : Pending} (hp : s.pending = p) {r : Nat} (hr : r ∈ p.runners) :
    r < s.nextRunner :=
  h.pending r (hp ▸ hr)

/-- The runners of the completed loop have been made. -/
theorem of_completed (h : Bounds s) {c : Completed} (hc : s.completed = c) {r : Nat} (hr : r ∈ c.runners) :
    r < s.nextRunner :=
  h.completed r (hc ▸ hr)

/-- The runners of the expirer have been made. -/
theorem of_expirer (h : Bounds s) {e : Expirer} (he : s.expirer = e) {r : Nat} (hr : r ∈ e.runners) :
    r < s.nextRunner :=
  h.expirer r (he ▸ hr)

/-- A runner that is not untouched was made. -/
theorem of_touched (h : Bounds s) {r : Nat} (hr : s.runners r ≠ {}) : r < s.nextRunner :=
  Nat.lt_of_not_le fun hle => hr (h.fresh r hle)

/-- A runner with a loader has been made. -/
theorem of_loader (h : Bounds s) {r : Nat} {l : Loader} (hr : (s.runners r).loader = l) (hl : l ≠ .gone) :
    r < s.nextRunner :=
  h.of_touched fun hfresh => hl (by rw [← hr, hfresh])

/-- A runner whose lock is held has been made. -/
theorem of_refMu (h : Bounds s) {r : Nat} {m : Holder} (hr : (s.runners r).refMu = some m) : r < s.nextRunner :=
  h.of_touched fun hfresh => by
    rw [hfresh] at hr
    cases hr

/-- After a step the loaded runners have been made. -/
theorem step_loaded (h : Bounds s) (hs : Step s a s') : ∀ r ∈ s'.loaded.map Prod.snd, r < s'.nextRunner := by
  intro r hr
  cases hs with
  | store _ _ =>
    obtain rfl | hold := Assoc.mem_values_set hr
    · exact Nat.lt_succ_self _
    · exact Nat.lt_succ_of_lt (h.loaded r hold)
  | unload _ _ => exact h.loaded r ((List.filter_sublist.map Prod.snd).subset hr)
  | _ => exact h.loaded r hr

/-- After a step the runners that have expired have been made. -/
theorem step_expiredCh (h : Bounds s) (hs : Step s a s') : ∀ r ∈ s'.expiredCh, r < s'.nextRunner := by
  intro r hr
  -- an event that is sent comes after those that are there
  have hsent : ∀ {r₀}, r₀ < s.nextRunner → r ∈ s.expiredCh ++ [r₀] → r < s.nextRunner := by
    intro r₀ hlt hmem
    obtain hold | hnew := List.mem_append.1 hmem
    · exact h.expiredCh r hold
    · rwa [List.mem_singleton.1 hnew]
  cases hs with
  | store _ _ => exact Nat.lt_succ_of_lt (h.expiredCh r hr)
  | takeExpired _ hch => exact h.expiredCh r (hch ▸ List.mem_cons_of_mem _ hr)
  | evict hp _ => exact hsent (h.of_pending hp List.mem_cons_self) hr
  | sendIdle hc _ => exact hsent (h.of_completed hc List.mem_cons_self) hr
  | sendFailed hl _ => exact hsent (h.of_loader hl (fun heq => by cases heq)) hr
  | sendCallback hm _ => exact hsent (h.of_refMu hm) hr
  | retry hmem _ => exact hsent (h.retries _ hmem) hr
  | sendExpire he _ => exact hsent (h.of_expirer he List.mem_cons_self) hr
  | _ => exact h.expiredCh r hr

/-- After a step the runners that are tried again have been made. -/
theorem step_retries (h : Bounds s) (hs : Step s a s') : ∀ r ∈ s'.retries, r < s'.nextRunner := by
  intro r hr
  cases hs with
  | store _ _ => exact Nat.lt_succ_of_lt (h.retries r hr)
  | checkBusy hc _ _ =>
    obtain rfl | hold := List.mem_cons.1 hr
    · exact h.of_completed hc List.mem_cons_self
    · exact h.retries r hold
  | retry _ _ => exact h.retries r (List.mem_of_mem_erase hr)
  | _ => exact h.retries r hr

/-- After a step the runners of the pending loop have been made. -/
theorem step_pending (h : Bounds s) (hs : Step s a s') : ∀ r ∈ s'.pending.runners, r < s'.nextRunner := by
  intro r hr
  obtain hold | hloaded := step_pendingRunners hs hr
  · exact Nat.lt_of_lt_of_le (h.pending r hold) (step_nextRunner hs)
  · exact Nat.lt_of_lt_of_le (h.loaded r hloaded) (step_nextRunner hs)

/-- After a step the runners of the completed loop have been made. -/
theorem step_completed (h : Bounds s) (hs : Step s a s') : ∀ r ∈ s'.completed.runners, r < s'.nextRunner := by
  intro r hr
  obtain hold | hloaded | hsent := step_completedRunners hs hr
  · exact Nat.lt_of_lt_of_le (h.completed r hold) (step_nextRunner hs)
  · exact Nat.lt_of_lt_of_le (h.loaded r hloaded) (step_nextRunner hs)
  · exact Nat.lt_of_lt_of_le (h.expiredCh r hsent) (step_nextRunner hs)

/-- After a step the runners of the expirer have been made. -/
theorem step_expirer (h : Bounds s) (hs : Step s a s') : ∀ r ∈ s'.expirer.runners, r < s'.nextRunner := by
  intro r hr
  obtain hold | hloaded := step_expirerRunners hs hr
  · exact Nat.lt_of_lt_of_le (h.expirer r hold) (step_nextRunner hs)
  · exact Nat.lt_of_lt_of_le (h.loaded r hloaded) (step_nextRunner hs)

/-- A step changes no runner that was not made. -/
theorem step_fresh (h : Bounds s) (hs : Step s a s') : ∀ r, s'.nextRunner ≤ r → s'.runners r = {} := by
  intro r hr
  have hkeep : ∀ {r₀ x}, s.nextRunner ≤ r → r₀ < s.nextRunner → (s.setRunner r₀ x).runners r = {} := by
    intro r₀ x hle hlt
    rw [Scheduler.setRunner_runners, if_neg (by omega)]
    exact h.fresh r hle
  cases hs with
  | store _ _ =>
    have hle : s.nextRunner + 1 ≤ r := hr
    show (s.setRunner s.nextRunner _).runners r = {}
    rw [Scheduler.setRunner_runners, if_neg (by omega)]
    exact h.fresh r (by omega)
  | useLoadedRunner hp _ | handOver hp | expire hp _ | evict hp _ => exact hkeep hr (h.of_pending hp List.mem_cons_self)
  | finish hc _ | sendIdle hc _ | checkIdle hc _ _ | unload hc _ =>
      exact hkeep hr (h.of_completed hc List.mem_cons_self)
  | running hl | handLoaded hl | failed hl | sendFailed hl _ =>
      exact hkeep hr (h.of_loader hl (fun heq => by cases heq))
  | fire ht =>
    refine hkeep hr (h.of_touched fun hfresh => ?_)
    rw [hfresh] at ht
    cases ht
  | callback hcb _ =>
    refine hkeep hr (h.of_touched fun hfresh => ?_)
    rw [hfresh] at hcb
    cases hcb
  | sendCallback hm _ => exact hkeep hr (h.of_refMu hm)
  | expireIdle he _ _ | expireBusy he _ _ | sendExpire he _ => exact hkeep hr (h.of_expirer he List.mem_cons_self)
  | _ => exact h.fresh r hr

/-- A step keeps the bounds. -/
theorem step (h : Bounds s) (hs : Step s a s') : Bounds s' :=
  ⟨h.step_loaded hs, h.step_expiredCh hs, h.step_retries hs, h.step_pending hs, h.step_completed hs, h.step_expirer hs,
    h.step_fresh hs⟩

end Bounds

/-- Every reachable state has the bounds. -/
theorem bounds {ok : Scheduler → Action → Prop} (h : (scheduler ok).Reachable s) : Bounds s := by
  refine h.invariant ?_ ?_
  · rintro s ⟨maxQueue, rfl⟩
    constructor <;> simp [Pending.runners, Completed.runners, Expirer.runners]
  · rintro s s' hb ⟨a, _, hs⟩
    exact hb.step hs

end Ollama.Sched
