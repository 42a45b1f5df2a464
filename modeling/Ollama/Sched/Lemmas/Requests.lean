import Ollama.Sched.Lemmas.Ledger
import Ollama.Sched.Lemmas.Moves

/-!
# The scheduler keeps its books

`Scheduler.ledger` is what the books say of a state of the scheduler. Each step of a goroutine is one line of them, or
none, so every run of the scheduler is a run of the books, whatever the condition on its steps.
-/

namespace Ollama.Sched

open Lib

/-- The scheduler has the request: in its queue, in the hands of `processPending`, to be queued again, or loading. -/
def Scheduler.held (s : Scheduler) (q : Nat) : Prop :=
  q ∈ s.pendingReqCh ∨ s.pending.request = some q ∨ q ∈ s.requeues ∨
    ∃ r, (s.runners r).loader = .starting q ∨ (s.runners r).loader = .handing q

/-- What is written down of a request. -/
def LlmRequest.life (req : LlmRequest) : Life := ⟨req.done, req.finisher, req.answers, req.granted, req.finished⟩

/-- The request `processPending` has in hand, if it was not granted a runner yet. -/
def Pending.ungranted : Pending → List Nat
  | .handing _ _ => []
  | p => p.request.toList

/-- The request `processPending` sends a runner to. -/
def Pending.handed : Pending → Option (Nat × Nat)
  | .handing q r => some (q, r)
  | _ => none

/-- The request whose finished event `processCompleted` has in hand. -/
def Completed.requests : Completed → List Nat
  | .finished q => [q]
  | .finishing q _ => [q]
  | _ => []

/-- What the books say of a state. -/
def Scheduler.ledger (s : Scheduler) : Ledger where
  nextRequest := s.nextRequest
  waiting := ↑(s.pending.ungranted ++ (s.pendingReqCh ++ s.requeues))
  handing := s.pending.handed
  loader := fun r => (s.runners r).loader
  finishes := ↑(s.completed.requests ++ s.finishedReqCh)
  lives := fun q => (s.requests q).life

namespace Scheduler

@[simp] theorem ledger_loader (s : Scheduler) (r : Nat) : s.ledger.loader r = (s.runners r).loader := rfl

@[simp] theorem ledger_lives (s : Scheduler) (q : Nat) : s.ledger.lives q = (s.requests q).life := rfl

end Scheduler

variable {s s' : Scheduler} {a : Action}

/-- The books of a state are these if they say the same. -/
theorem Scheduler.ledger_eq {l : Ledger} (hn : s'.nextRequest = l.nextRequest)
    (hw : (↑(s'.pending.ungranted ++ (s'.pendingReqCh ++ s'.requeues)) : Multiset Nat) = l.waiting)
    (hh : s'.pending.handed = l.handing) (hl : ∀ r, (s'.runners r).loader = l.loader r)
    (hf : (↑(s'.completed.requests ++ s'.finishedReqCh) : Multiset Nat) = l.finishes)
    (hr : ∀ q, (s'.requests q).life = l.lives q) :
    s'.ledger = l := by
  obtain ⟨n, w, h, f, fs, lives⟩ := l
  simp only [Scheduler.ledger, hn, hw, hh, hf, funext hl, funext hr]

/-- The lives after one of the requests has changed. -/
theorem Scheduler.lives_set (s : Scheduler) (q₀ : Nat) (y : LlmRequest) (q : Nat) :
    ((s.setRequest q₀ y).requests q).life = (s.ledger.write q₀ y.life).lives q := by
  rw [setRequest_requests, Ledger.write_lives]
  split <;> rfl

/-- The loaders after one of the runners has changed. -/
theorem Scheduler.loader_set (s : Scheduler) (r₀ : Nat) (x : RunnerRef) (r : Nat) :
    ((s.setRunner r₀ x).runners r).loader = Function.update s.ledger.loader r₀ x.loader r := by
  rw [s.setRunner_apply RunnerRef.loader, Function.update_apply]
  rfl

/-- The step writes a line of the books or none. Only `processPending` gives a request up, the one it takes from the
queue. -/
def Step.Written (s : Scheduler) (a : Action) (s' : Scheduler) : Prop :=
  (∃ d, Ledger.Step s.ledger d s'.ledger ∧ ∀ q, d = some q → a = .takePending ∧ s.pendingReqCh.head? = some q) ∨
    s'.ledger = s.ledger

/-- The step writes nothing. -/
theorem Step.Written.same (hn : s'.nextRequest = s.nextRequest) (hu : s'.pending.ungranted = s.pending.ungranted)
    (hp : s'.pendingReqCh = s.pendingReqCh) (hq : s'.requeues = s.requeues) (hh : s'.pending.handed = s.pending.handed)
    (hl : ∀ r, (s'.runners r).loader = (s.runners r).loader)
    (hf : s'.completed.requests ++ s'.finishedReqCh = s.completed.requests ++ s.finishedReqCh)
    (hr : ∀ q, (s'.requests q).life = (s.requests q).life) : Step.Written s a s' :=
  .inr (Scheduler.ledger_eq hn (by rw [hu, hp, hq]; rfl) hh hl (congrArg _ hf) hr)

/-- `processPending` goes on with the request it has in hand. -/
theorem Step.Written.pending {p : Pending} (hp : s.pending = p) (hu : s'.pending.ungranted = p.ungranted)
    (hh : s'.pending.handed = p.handed)
    (hn : s'.nextRequest = s.nextRequest) (hch : s'.pendingReqCh = s.pendingReqCh) (hq : s'.requeues = s.requeues)
    (hl : ∀ r, (s'.runners r).loader = (s.runners r).loader)
    (hf : s'.completed.requests ++ s'.finishedReqCh = s.completed.requests ++ s.finishedReqCh)
    (hr : ∀ q, (s'.requests q).life = (s.requests q).life) : Step.Written s a s' :=
  .same hn (by rw [hp, hu]) hch hq (by rw [hp, hh]) hl hf hr

/-- `processCompleted` goes on. -/
theorem Step.Written.completed {c : Completed} (hc : s.completed = c)
    (hf : s'.completed.requests ++ s'.finishedReqCh = c.requests ++ s.finishedReqCh)
    (hn : s'.nextRequest = s.nextRequest)
    (hp : s'.pending = s.pending) (hch : s'.pendingReqCh = s.pendingReqCh) (hq : s'.requeues = s.requeues)
    (hl : ∀ r, (s'.runners r).loader = (s.runners r).loader) (hr : ∀ q, (s'.requests q).life = (s.requests q).life) :
    Step.Written s a s' :=
  .same hn (by rw [hp]) hch hq (by rw [hp]) hl (by rw [hf, hc]) hr

/-- A line on which no request is given up. -/
theorem Step.Written.line {l : Ledger} (h : Ledger.Step s.ledger none l) (heq : s'.ledger = l) : Step.Written s a s' :=
  .inl ⟨none, heq ▸ h, by simp⟩

/-- The line on which a request is given up. -/
theorem Step.Written.dropped {l : Ledger} {q : Nat} (h : Ledger.Step s.ledger (some q) l) (heq : s'.ledger = l)
    (hhead : s.pendingReqCh.head? = some q) : Step.Written s .takePending s' :=
  .inl ⟨some q, heq ▸ h, by simp [hhead]⟩

/-- The first request that waits is the one in hand. -/
theorem Scheduler.waiting_hand {q : Nat} (h : s.pending.ungranted = [q]) :
    s.ledger.waiting = q ::ₘ (↑(s.pendingReqCh ++ s.requeues) : Multiset Nat) := by
  simp [Scheduler.ledger, h]

/-- The first finished event is the one in hand. -/
theorem Scheduler.finishes_hand {q : Nat} (h : s.completed.requests = [q]) :
    s.ledger.finishes = q ::ₘ (↑s.finishedReqCh : Multiset Nat) := by
  simp [Scheduler.ledger, h]

/-- Each step of the scheduler is a line of the books or none. -/
theorem Step.written (hb : Bounds s) (hs : Step s a s') : Step.Written s a s' := by
  cases hs with
  -- clients
  | getRunner model opts d =>
    by_cases hroom : (s.newRequest model opts d).answers = []
    · have hlife : (s.newRequest model opts d).life = {} := by
        rw [LlmRequest.life, hroom]
        rfl
      refine .line .enter (Scheduler.ledger_eq rfl ?_ rfl (fun _ => rfl) rfl fun q => hlife ▸ s.lives_set _ _ q)
      rw [if_pos hroom]
      refine Multiset.coe_eq_coe.2 ?_
      show (s.pending.ungranted ++ (s.pendingReqCh ++ [s.nextRequest] ++ s.requeues)).Perm
        (s.nextRequest :: (s.pending.ungranted ++ (s.pendingReqCh ++ s.requeues)))
      rw [List.append_assoc, List.singleton_append, ← List.append_assoc, ← List.append_assoc]
      exact List.perm_middle
    · have hlife : (s.newRequest model opts d).life = { answers := [.maxQueue] } := by
        rw [LlmRequest.life, Scheduler.newRequest]
        rw [Scheduler.newRequest] at hroom
        rw [if_neg (fun hc => hroom (if_pos hc))]
      refine .line .turnAway (Scheduler.ledger_eq rfl ?_ rfl (fun _ => rfl) rfl fun q => hlife ▸ s.lives_set _ _ q)
      rw [if_neg hroom]
      rfl
  | @cancel q hq =>
    exact .line (Ledger.Step.cancel (l := s.ledger) hq)
      (Scheduler.ledger_eq rfl rfl rfl (fun _ => rfl) rfl (s.lives_set _ _))
  | @sendFinished q hf hd _ =>
    refine .line (Ledger.Step.sendFinished (l := s.ledger) hf hd)
      (Scheduler.ledger_eq rfl rfl rfl (fun _ => rfl) ?_ (s.lives_set _ _))
    rw [← List.append_assoc]
    exact Multiset.coe_eq_coe.2 (List.perm_append_singleton ..)
  -- `processPending`
  | @takePending q rest hp hq =>
    have htaken : ∀ q', ((s.setRequest q (s.requests q).taken).requests q').life = (s.requests q').life :=
      s.setRequest_same LlmRequest.life rfl
    by_cases hd : (s.requests q).done = true
    · have hw : s.ledger.waiting = q ::ₘ (↑(rest ++ s.requeues) : Multiset Nat) := by
        rw [Scheduler.ledger, hp, hq]
        rfl
      refine .dropped (Ledger.Step.drop hw hd) (Scheduler.ledger_eq rfl ?_ ?_ (fun _ => rfl) rfl htaken)
        (by rw [hq]; rfl)
      · rw [if_pos hd]
        rfl
      · rw [if_pos hd, Scheduler.ledger, hp]
    · refine .inr (Scheduler.ledger_eq rfl ?_ ?_ (fun _ => rfl) rfl htaken)
      · rw [if_neg hd, Scheduler.ledger, hp, hq]
        rfl
      · rw [if_neg hd, Scheduler.ledger, hp]
        rfl
  | lookupFound _ hp _ _ | lookupFull hp _ _ _ _ | lookupNone hp _ _ _ | visit hp _ | freed hp | choose hp _ _
  | chooseNone hp _ _
  | scanIdle hp _ _ | scanBusy hp _ _ | scanNone hp | seeUnloaded hp _ =>
    exact .pending hp rfl rfl rfl rfl rfl (fun _ => rfl) rfl (fun _ => rfl)
  | needsReload _ hp _ =>
    refine .pending hp ?_ ?_ rfl rfl rfl (fun _ => rfl) rfl (fun _ => rfl)
    · split <;> rfl
    · split <;> rfl
  | load _ _ _ hp =>
    obtain ⟨_, hp⟩ | hp := hp
    · exact .pending hp rfl rfl rfl rfl rfl (fun _ => rfl) rfl (s.setRequest_same LlmRequest.life rfl)
    · exact .pending hp rfl rfl rfl rfl rfl (fun _ => rfl) rfl (s.setRequest_same LlmRequest.life rfl)
  | updateFreeSpace _ hp _ _ _ =>
      exact .pending hp rfl rfl rfl rfl rfl (fun _ => rfl) rfl (s.setRequest_same LlmRequest.life rfl)
  | makeRoom _ hp =>
    obtain ⟨_, hp, _⟩ | hp := hp
    · exact .pending hp rfl rfl rfl rfl rfl (fun _ => rfl) rfl (s.setRequest_same LlmRequest.life rfl)
    · exact .pending hp rfl rfl rfl rfl rfl (fun _ => rfl) rfl (s.setRequest_same LlmRequest.life rfl)
  | expire hp _ =>
    refine .pending hp ?_ ?_ rfl rfl rfl (s.setRunner_same RunnerRef.loader rfl) rfl (fun _ => rfl)
    · split <;> rfl
    · split <;> rfl
  | evict hp _ => exact .pending hp rfl rfl rfl rfl rfl (s.setRunner_same RunnerRef.loader rfl) rfl (fun _ => rfl)
  | @useLoadedRunner q r hp _ =>
    have hh : s.ledger.handing = none := by
      rw [Scheduler.ledger, hp]
      rfl
    exact .line (Ledger.Step.grant (Scheduler.waiting_hand (by rw [hp]; rfl)) hh)
      (Scheduler.ledger_eq rfl rfl rfl (s.setRunner_same RunnerRef.loader rfl) rfl (s.lives_set _ _))
  | @handOver q r hp =>
    have hh : s.ledger.handing = some (q, r) := by
      rw [Scheduler.ledger, hp]
      rfl
    refine .line (Ledger.Step.handOver hh)
      (Scheduler.ledger_eq rfl ?_ rfl (s.setRunner_same RunnerRef.loader rfl) rfl (s.lives_set _ _))
    rw [Scheduler.ledger, hp]
    rfl
  | @modelError q n hp =>
    refine .line (Ledger.Step.fail (e := .modelError) (Scheduler.waiting_hand (by rw [hp]; rfl))
      (fun _ heq => by cases heq))
      (Scheduler.ledger_eq rfl rfl ?_ (fun _ => rfl) rfl (s.lives_set _ _))
    rw [Scheduler.ledger, hp]
    rfl
  | @serverError q n hp =>
    have hhand : s.pending.ungranted = [q] ∧ s.pending.handed = none := by
      obtain ⟨_, hp⟩ | hp := hp
      · rw [hp]
        exact ⟨rfl, rfl⟩
      · rw [hp]
        exact ⟨rfl, rfl⟩
    refine .line (Ledger.Step.fail (q := q) (e := .serverError) (Scheduler.waiting_hand hhand.1)
      (fun _ heq => by cases heq))
      (Scheduler.ledger_eq rfl rfl hhand.2.symm (fun _ => rfl) rfl fun q' => ?_)
    show (((s.setNumCtx q n).setRequest q _).requests q').life = _
    rw [Scheduler.setRequest_requests, Ledger.write_lives]
    split
    · rw [Scheduler.setNumCtx, Scheduler.setRequest_requests, if_pos rfl]
      rfl
    · refine s.setRequest_same LlmRequest.life ?_ q'
      rfl
  | @store q x hp _ =>
    have hgone : s.ledger.loader s.nextRunner = .gone := by
      rw [Scheduler.ledger_loader, hb.fresh _ (Nat.le_refl _)]
    refine .line (Ledger.Step.load (Scheduler.waiting_hand (by rw [hp]; rfl)) hgone)
      (Scheduler.ledger_eq rfl rfl ?_ (s.loader_set _ _) rfl (s.lives_set _ _))
    rw [Scheduler.ledger, hp]
    rfl
  | @delay q _ hp =>
    refine .inr (Scheduler.ledger_eq rfl ?_ ?_ (fun _ => rfl) rfl (s.setRequest_same LlmRequest.life rfl))
    · refine Multiset.coe_eq_coe.2 ?_
      rw [hp]
      exact List.perm_middle
    · rw [Scheduler.ledger, hp]
      rfl
  | @requeue q hq _ =>
    refine .inr (Scheduler.ledger_eq rfl ?_ rfl (fun _ => rfl) rfl (fun _ => rfl))
    refine Multiset.coe_eq_coe.2 (List.Perm.append_left _ ?_)
    rw [List.append_assoc]
    exact List.Perm.append_left _ (List.perm_cons_erase hq).symm
  -- `processCompleted`
  | takeFinished hc hch => exact .completed hc (by rw [hch]; rfl) rfl rfl rfl rfl (fun _ => rfl) (fun _ => rfl)
  | lookupFinished hc _ _ | takeExpired hc _ | checkBusy hc _ _ | sendUnloaded hc _ =>
    exact .completed hc rfl rfl rfl rfl rfl (fun _ => rfl) (fun _ => rfl)
  | sendIdle hc _ | checkIdle hc _ _ | unload hc _ =>
    exact .completed hc rfl rfl rfl rfl rfl (s.setRunner_same RunnerRef.loader rfl) (fun _ => rfl)
  | @lookupUnloaded q hc _ _ =>
    exact .line (Ledger.Step.finish (Scheduler.finishes_hand (by rw [hc]; rfl)))
      (Scheduler.ledger_eq rfl rfl rfl (fun _ => rfl) rfl (s.lives_set _ _))
  | @finish q r hc _ =>
    refine .line (Ledger.Step.finish (Scheduler.finishes_hand (by rw [hc]; rfl)))
      (Scheduler.ledger_eq rfl rfl rfl (s.setRunner_same RunnerRef.loader (RunnerRef.finish_loader _)) ?_
        (s.lives_set _ _))
    split <;> rfl
  -- the goroutines of `load`
  | @running q r hl =>
    exact .line (Ledger.Step.running (l := s.ledger) hl)
      (Scheduler.ledger_eq rfl rfl rfl (s.loader_set _ _) rfl (s.lives_set _ _))
  | @handLoaded q r hl =>
    exact .line (Ledger.Step.handLoaded (l := s.ledger) hl)
      (Scheduler.ledger_eq rfl rfl rfl (s.loader_set _ _) rfl (s.lives_set _ _))
  | @failed q r hl =>
    exact .line (Ledger.Step.failed (l := s.ledger) hl)
      (Scheduler.ledger_eq rfl rfl rfl (s.loader_set _ _) rfl (s.lives_set _ _))
  | @sendFailed r hl _ =>
    exact .line (Ledger.Step.sendFailed (l := s.ledger) hl)
      (Scheduler.ledger_eq rfl rfl rfl (s.loader_set _ _) rfl (fun _ => rfl))
  -- timers, delayed sends and `expireRunner`
  | fire _ | callback _ _ | sendCallback _ _ | expireIdle _ _ _ | expireBusy _ _ _ | sendExpire _ _ =>
    exact .same rfl rfl rfl rfl rfl (s.setRunner_same RunnerRef.loader rfl) rfl (fun _ => rfl)
  | _ => exact .same rfl rfl rfl rfl rfl (fun _ => rfl) rfl (fun _ => rfl)

/-- A run of the scheduler is a run of its books. -/
theorem ledger_reachable {ok : Scheduler → Action → Prop} (h : (scheduler ok).Reachable s) :
    Ledger.system.Reachable s.ledger := by
  refine h.map ?_ ?_
  · rintro s ⟨maxQueue, rfl⟩
    rfl
  · rintro s s' hr ⟨a, _, hs⟩
    rcases hs.written (bounds hr) with ⟨d, hline, _⟩ | heq
    · exact .inl ⟨d, hline⟩
    · exact .inr heq

/-- The books of the scheduler are in order in every run. -/
theorem ledger_ok {ok : Scheduler → Action → Prop} (h : (scheduler ok).Reachable s) : s.ledger.Ok :=
  Ledger.ok (ledger_reachable h)

/-- The request in hand waits, or is sent a runner. -/
theorem Pending.request_iff {p : Pending} {q : Nat} :
    p.request = some q ↔ q ∈ p.ungranted ∨ ∃ r, p.handed = some (q, r) := by
  cases p <;> simp [Pending.request, Pending.ungranted, Pending.handed, eq_comm]

/-- What the scheduler has is what the books say is held. -/
theorem held_iff (q : Nat) : s.held q ↔ s.ledger.Held q := by
  unfold Scheduler.held Ledger.Held Scheduler.ledger
  rw [Pending.request_iff]
  simp only [Multiset.mem_coe, List.mem_append, or_assoc]
  exact or_left_comm.trans (or_congr_right (or_congr_right or_left_comm))

end Ollama.Sched
