import Mathlib.Data.Finset.Card
import Mathlib.Order.Interval.Finset.Nat
import Ollama.Sched.Lemmas.Loaded

/-!
# The requests that hold a runner

A request holds the runner it was granted, or that is loaded for it, until its finished event is handled; a load that
fails gives the runner back. `Counted` says that a runner counts its holders and is open while it has any. It needs
that runners are stored as in `loadsClean`, since a finished request finds its runner by the path, and that no runner
is unloaded between the time `processPending` found it usable and the time it counts its request (`grantsClean`).
-/

namespace Ollama.Sched

open Lib

/-- The requests that hold the runner. -/
def Scheduler.holders (s : Scheduler) (r : Nat) : Finset Nat :=
  (Finset.range s.nextRequest).filter (fun q => (s.requests q).granted = some r ∧ (s.requests q).finished = false)

/-- A runner that is expired is not taken to be unloaded while `processPending` is about to grant it. -/
def grantsClean (s : Scheduler) (a : Action) : Prop :=
  a = .checkExpired → ∀ r, s.completed = .expired r → (s.runners r).refCount = 0 → ∀ q, s.pending ≠ .using q r

/-- A runner counts the requests that hold it, and is open while they do. -/
structure Counted (s : Scheduler) : Prop where
  count : ∀ r, (s.runners r).refCount = (s.holders r).card
  opened : ∀ q r, (s.requests q).granted = some r → (s.requests q).finished = false →
    (s.runners r).llama = true ∧ (s.runners r).modelPath = s.path q
  options : ∀ r, (s.runners r).options ≠ none → (s.runners r).llama = true
  reuse : ∀ q r, s.pending = .reuse q r → (s.runners r).modelPath = s.path q
  usable : ∀ q r, s.pending = .using q r →
    (s.runners r).llama = true ∧ (s.runners r).modelPath = s.path q ∧ s.completed ≠ .unloading r
  loading : ∀ q x, s.pending = .loading q x → x.modelPath = s.path q ∧ x.refCount = 1
  unloading : ∀ r, s.completed = .unloading r → (s.runners r).refCount = 0
  finishing : ∀ q r, s.completed = .finishing q r → (s.requests q).granted = some r

variable {s s' : Scheduler} {a : Action}

theorem mem_holders {q r : Nat} :
    q ∈ s.holders r ↔ q < s.nextRequest ∧ (s.requests q).granted = some r ∧ (s.requests q).finished = false := by
  simp [Scheduler.holders]

/-- The holders are the same as before. -/
theorem holders_congr (hn : s'.nextRequest = s.nextRequest)
    (h : ∀ q, (s'.requests q).granted = (s.requests q).granted ∧ (s'.requests q).finished = (s.requests q).finished)
    (r : Nat) :
    s'.holders r = s.holders r := by
  ext q
  rw [mem_holders, mem_holders, hn, (h q).1, (h q).2]

/-- A request more holds the runner. -/
theorem card_holders_succ {q r : Nat} (hq : q ∉ s.holders r)
    (h : ∀ q', q' ∈ s'.holders r ↔ q' = q ∨ q' ∈ s.holders r) : (s'.holders r).card = (s.holders r).card + 1 := by
  have heq : s'.holders r = insert q (s.holders r) := by
    ext q'
    rw [h, Finset.mem_insert]
  rw [heq, Finset.card_insert_of_notMem hq]

/-- A request less holds the runner. -/
theorem card_holders_pred {q r : Nat} (hq : q ∈ s.holders r)
    (h : ∀ q', q' ∈ s'.holders r ↔ q' ≠ q ∧ q' ∈ s.holders r) : (s'.holders r).card = decrement (s.holders r).card := by
  have heq : s'.holders r = (s.holders r).erase q := by
    ext q'
    rw [h, Finset.mem_erase]
  have hpos : 0 < (s.holders r).card := Finset.card_pos.2 ⟨q, hq⟩
  rw [heq, Finset.card_erase_of_mem hq, decrement, if_neg (by omega)]

/-- A request that held no runner is granted one. -/
theorem card_holders_grant {q r : Nat} {y : LlmRequest} (hn : s'.nextRequest = s.nextRequest)
    (hr : s'.requests = (s.setRequest q y).requests) (hlt : q < s.nextRequest)
    (hold : (s.requests q).granted = none) (hy : y.granted = some r) (hfin : y.finished = false) (r' : Nat) :
    (s'.holders r').card = if r' = r then (s.holders r').card + 1 else (s.holders r').card := by
  have hnot : q ∉ s.holders r' := by
    rw [mem_holders, hold]
    exact fun hmem => by cases hmem.2.1
  have hother : ∀ q', q' ≠ q → (q' ∈ s'.holders r' ↔ q' ∈ s.holders r') := by
    intro q' hne
    rw [mem_holders, mem_holders, hn, hr, Scheduler.setRequest_requests, if_neg hne]
  have hself : q ∈ s'.holders r' ↔ r' = r := by
    rw [mem_holders, hn, hr, Scheduler.setRequest_requests, if_pos rfl, hy, hfin, Option.some.injEq]
    exact ⟨fun hmem => hmem.2.1.symm, fun heq => ⟨hlt, heq.symm, rfl⟩⟩
  split
  · rename_i heq
    refine card_holders_succ hnot fun q' => ?_
    by_cases hq : q' = q
    · exact iff_of_true (hq ▸ hself.2 heq) (.inl hq)
    · simp [hq, hother q' hq]
  · rename_i hne
    refine congrArg Finset.card (Finset.ext fun q' => ?_)
    by_cases hq : q' = q
    · simp [hq, hself, hne, hnot]
    · exact hother q' hq

/-- A request gives its runner back. -/
theorem card_holders_release {q r : Nat} {y : LlmRequest} (hn : s'.nextRequest = s.nextRequest)
    (hr : s'.requests = (s.setRequest q y).requests) (hhold : q ∈ s.holders r)
    (hy : y.granted = none ∨ y.finished = true) (r' : Nat) :
    (s'.holders r').card = if r' = r then decrement (s.holders r').card else (s.holders r').card := by
  have hother : ∀ q', q' ≠ q → (q' ∈ s'.holders r' ↔ q' ∈ s.holders r') := by
    intro q' hne
    rw [mem_holders, mem_holders, hn, hr, Scheduler.setRequest_requests, if_neg hne]
  have hself : q ∉ s'.holders r' := by
    rw [mem_holders, hr, Scheduler.setRequest_requests, if_pos rfl]
    rintro ⟨-, hgranted, hfin⟩
    obtain hnone | htrue := hy
    · rw [hnone] at hgranted
      cases hgranted
    · rw [htrue] at hfin
      cases hfin
  split
  · rename_i heq
    subst heq
    refine card_holders_pred hhold fun q' => ?_
    by_cases hq : q' = q
    · simp [hq, hself]
    · simp [hq, hother q' hq]
  · rename_i hne
    have hnot : q ∉ s.holders r' := by
      intro hmem
      rw [mem_holders] at hmem hhold
      exact hne (Option.some.inj (hmem.2.1.symm.trans hhold.2.1))
    refine congrArg Finset.card (Finset.ext fun q' => ?_)
    by_cases hq : q' = q
    · simp [hq, hself, hnot]
    · exact hother q' hq

/-- A runner that needs no reload has options. -/
theorem RunnerRef.options_of_needsReload {runner : RunnerRef} {req : LlmRequest} {pingFails : Bool}
    (h : runner.needsReload req pingFails = false) : runner.options ≠ none := by
  intro hnone
  simp [RunnerRef.needsReload, hnone] at h

/-- The end of a request is counted whatever else it does. -/
theorem RunnerRef.finish_refCount (runner : RunnerRef) : runner.finish.refCount = decrement runner.refCount := by
  simp only [RunnerRef.finish]
  split_ifs <;> rfl

/-- The request in hand that was not granted a runner waits. -/
theorem waiting_of_ungranted {q : Nat} (h : s.pending.ungranted = [q]) : q ∈ s.ledger.waiting := by
  rw [Scheduler.waiting_hand h]
  exact Multiset.mem_cons_self ..

/-- A runner that is unloaded is idle. -/
theorem step_unloading_idle (h : ∀ r, s.completed = .unloading r → (s.runners r).refCount = 0) (hl : Locks s)
    (hb : Bounds s) (hs : Step s a s') : ∀ r, s'.completed = .unloading r → (s'.runners r).refCount = 0 := by
  intro r hc
  obtain hold | ⟨rfl, hexpired, hzero⟩ := step_unloading hs hc
  · have hmu := hl.unloading r hold
    have hlt := hb.of_completed hold List.mem_cons_self
    -- whoever changes the count has the lock of the runner, or is `processCompleted`
    obtain hsame | ⟨-, hfree⟩ | ⟨-, q, hfinishing⟩ | ⟨-, hload⟩ := (hs.touch r).refCount fun _ => Nat.ne_of_lt hlt
    · exact hsame.trans (h r hold)
    · rw [hfree] at hmu
      cases hmu
    · cases hold.symm.trans hfinishing
    · rw [hl.loader r hload] at hmu
      cases hmu
  · obtain hsame | ⟨ha, -⟩ | ⟨ha, -⟩ | ⟨ha, -⟩ := (hs.touch r).refCount (fun ha => by cases ha)
    · exact hsame.trans hzero
    · cases ha
    · cases ha
    · cases ha

/-- In every run, under whatever condition, a runner that is unloaded is idle. -/
theorem unloading_idle {ok : Scheduler → Action → Prop} (h : (scheduler ok).Reachable s) :
    ∀ r, s.completed = .unloading r → (s.runners r).refCount = 0 := by
  induction h with
  | @init s hi =>
    obtain ⟨maxQueue, rfl⟩ := hi
    simp
  | step hr hst ih =>
    obtain ⟨a, -, hs⟩ := hst
    exact step_unloading_idle ih (locks hr) (bounds hr) hs

namespace Counted

variable {q r : Nat} {x : RunnerRef} {y : LlmRequest}

/-- A runner that is found open at a path is so after a step that does not unload it. -/
theorem keep_open (hb : Bounds s) (hopen : (s.runners r).llama = true ∧ (s.runners r).modelPath = s.path q)
    (hq : q < s.nextRequest) (hne : a = .unload → s.completed ≠ .unloading r) (hs : Step s a s') :
    (s'.runners r).llama = true ∧ (s'.runners r).modelPath = s'.path q := by
  have hlt : r < s.nextRunner := hb.of_touched fun hfresh => by
    rw [hfresh] at hopen
    cases hopen.1
  have hnew : a = .store → r ≠ s.nextRunner := fun _ => Nat.ne_of_lt hlt
  refine ⟨?_, ((hs.touch r).modelPath hnew).trans (hopen.2.trans (step_path hs hq).symm)⟩
  obtain hsame | ⟨ha, hc, -⟩ := (hs.touch r).llama hnew
  · exact hsame.trans hopen.1
  · exact absurd hc (hne ha)

/-- A runner with options is open. -/
theorem touch_options (h : Counted s) (hst : Stored s) (ht : Touch s r a x) (hopts : x.options ≠ none) :
    x.llama = true := by
  cases ht with
  | store hp _ => exact (hst.loading _ _ hp).2
  | finish _ _ =>
    rw [RunnerRef.finish_same RunnerRef.options (fun _ _ _ _ _ => rfl)] at hopts
    rw [RunnerRef.finish_same RunnerRef.llama (fun _ _ _ _ _ => rfl)]
    exact h.options r hopts
  | unload _ => exact absurd rfl hopts
  | _ => exact h.options r hopts

/-- A runner is reused for the path it is loaded for. -/
theorem step_reuse (h : Counted s) (hst : Stored s) (hb : Bounds s)
    (hlt : ∀ q, s.pending.request = some q → q < s.nextRequest) (hs : Step s a s') :
    ∀ q r, s'.pending = .reuse q r → (s'.runners r).modelPath = s'.path q := by
  intro q r hp
  have hkeep : r < s.nextRunner → s.pending.request = some q → (s.runners r).modelPath = s.path q →
    (s'.runners r).modelPath = s'.path q := by
    intro hr hq hpath
    rw [(hs.touch r).modelPath fun _ => Nat.ne_of_lt hr, hpath, step_path hs (hlt q hq)]
  obtain hold | ⟨htrying, hlook⟩ := Sched.step_reuse hs hp
  · exact hkeep (hb.of_pending hold List.mem_cons_self) (congrArg Pending.request hold) (h.reuse q r hold)
  · exact hkeep (hb.loaded r (mem_of_lookup hlook)) (congrArg Pending.request htrying) (hst.loaded _ r hlook).2

/-- A runner that is about to be granted is open, and is not being unloaded. -/
theorem step_usable (h : Counted s) (hb : Bounds s) (hl : Locks s) (hok : grantsClean s a)
    (hlt : ∀ q, s.pending.request = some q → q < s.nextRequest) (hs : Step s a s') :
    ∀ q r, s'.pending = .using q r →
      (s'.runners r).llama = true ∧ (s'.runners r).modelPath = s'.path q ∧ s'.completed ≠ .unloading r := by
  intro q r hp
  obtain hold | ⟨hreuse, hfree, pingFails, rfl, hneeds⟩ := Sched.step_using hs hp
  · obtain ⟨hopen, hpath, hne⟩ := h.usable q r hold
    obtain ⟨hopen', hpath'⟩ := keep_open hb ⟨hopen, hpath⟩ (hlt q (congrArg Pending.request hold)) (fun _ => hne) hs
    refine ⟨hopen', hpath', fun hc => ?_⟩
    obtain hunloading | ⟨ha, hexpired, hzero⟩ := Sched.step_unloading hs hc
    · exact hne hunloading
    · exact hok ha r hexpired hzero q hold
  · have hopen := h.options r (RunnerRef.options_of_needsReload hneeds)
    obtain ⟨hopen', hpath'⟩ :=
      keep_open hb ⟨hopen, h.reuse q r hreuse⟩ (hlt q (congrArg Pending.request hreuse)) (fun ha => by cases ha) hs
    refine ⟨hopen', hpath', fun hc => ?_⟩
    obtain hunloading | ⟨ha, -⟩ := Sched.step_unloading hs hc
    · have hmu := hl.unloading r hunloading
      rw [hfree] at hmu
      cases hmu
    · cases ha

/-- A runner that is to be stored counts its request. -/
theorem step_loading (h : Counted s) (hlt : ∀ q, s.pending.request = some q → q < s.nextRequest) (hs : Step s a s') :
    ∀ q x, s'.pending = .loading q x → x.modelPath = s'.path q ∧ x.refCount = 1 := by
  intro q x hp
  obtain hold | ⟨_, _, _, -, -, rfl⟩ := Sched.step_loading hs hp
  · rw [step_path hs (hlt q (congrArg Pending.request hold))]
    exact h.loading q x hold
  · exact ⟨rfl, rfl⟩

/-- A request whose finished event is in hand holds the runner that is stored for its path. -/
theorem stored_of_finished (h : Counted s) (hst : Stored s) (hok : s.ledger.Ok) {q : Nat}
    (hq : s.completed.requests = [q]) :
    ∃ r, (s.requests q).granted = some r ∧ (s.requests q).finished = false ∧ s.loaded.lookup (s.path q) = some r := by
  have hmem : q ∈ s.ledger.finishes := by
    rw [Scheduler.finishes_hand hq]
    exact Multiset.mem_cons_self ..
  obtain ⟨_, hgranted, _, hfin⟩ := hok.finishes q hmem
  obtain ⟨r, hr⟩ := Option.ne_none_iff_exists'.1 hgranted
  obtain ⟨hopen, hpath⟩ := h.opened q r hr hfin
  exact ⟨r, hr, hfin, by rw [← hpath]; exact hst.opened r hopen⟩

/-- What a request was granted stays while its finished event is in hand. -/
theorem granted_of_finished (hok : s.ledger.Ok) (hq : s.completed.requests = [q]) (hs : Step s a s') :
    (s'.requests q).granted = (s.requests q).granted := by
  have hmem : q ∈ s.ledger.finishes := by
    rw [Scheduler.finishes_hand hq]
    exact Multiset.mem_cons_self ..
  have hwaits : s.pending.ungranted ≠ [q] := fun heq => (hok.waiting q (waiting_of_ungranted heq)).2.2.2.2.2 hmem
  have hh := hs.handle q
  generalize s'.requests q = y at hh ⊢
  cases hh with
  | make _ _ _ hnew => exact absurd (hok.finishes q hmem).1 (by rw [hnew]; exact Nat.lt_irrefl _)
  | grant hp => exact absurd (congrArg Pending.ungranted hp) hwaits
  | store hp => exact absurd (congrArg Pending.ungranted hp) hwaits
  | failed hl => exact absurd hmem (hok.starting q _ hl).2.2.2.2.2
  | _ => rfl

/-- A finished request finds the runner it holds. -/
theorem step_finishing (h : Counted s) (hst : Stored s) (hok : s.ledger.Ok) (hs : Step s a s') :
    ∀ q r, s'.completed = .finishing q r → (s'.requests q).granted = some r := by
  intro q r hc
  obtain hold | ⟨hfinished, -, hlook⟩ := Sched.step_finishing hs hc
  · exact (granted_of_finished hok (congrArg Completed.requests hold) hs).trans (h.finishing q r hold)
  · obtain ⟨r', hgranted, -, hlook'⟩ := h.stored_of_finished hst hok (congrArg Completed.requests hfinished)
    cases hlook.symm.trans hlook'
    exact (granted_of_finished hok (congrArg Completed.requests hfinished) hs).trans hgranted

/-- A runner that a request holds is not unloaded. -/
theorem not_unloading (h : Counted s) (hmem : q ∈ s.holders r) : s.completed ≠ .unloading r := by
  intro hc
  have hpos : 0 < (s.holders r).card := Finset.card_pos.2 ⟨q, hmem⟩
  rw [← h.count r, h.unloading r hc] at hpos
  exact absurd hpos (Nat.lt_irrefl 0)

/-- A runner that a request holds is open. -/
theorem handle_opened (h : Counted s) (hst : Stored s) (hb : Bounds s) (hok : s.ledger.Ok)
    (hlt : ∀ q, s.pending.request = some q → q < s.nextRequest) (hs : Step s a s') (hh : Handle s q a y)
    (hgranted : y.granted = some r) (hfin : y.finished = false) :
    (s'.runners r).llama = true ∧ (s'.runners r).modelPath = s'.path q := by
  have hold : (s.requests q).granted = some r → (s.requests q).finished = false →
      (s'.runners r).llama = true ∧ (s'.runners r).modelPath = s'.path q := by
    intro hg hf
    have hq : q < s.nextRequest :=
      hok.granted q (by rw [Scheduler.ledger_lives, LlmRequest.life, hg]; exact Option.some_ne_none r)
    exact keep_open hb (h.opened q r hg hf) hq (fun _ => h.not_unloading (mem_holders.2 ⟨hq, hg, hf⟩)) hs
  cases hh with
  | make _ _ _ _ | failed _ => cases hgranted
  | @grant r' hp =>
    cases hgranted
    obtain ⟨hopen, hpath, hne⟩ := h.usable q r hp
    exact keep_open hb ⟨hopen, hpath⟩ (hlt q (congrArg Pending.request hp)) (fun _ => hne) hs
  | @store x hp =>
    cases hgranted
    rw [(step_store hs hp).2.1, step_path hs (hlt q (congrArg Pending.request hp))]
    exact ⟨(hst.loading q x hp).2, (h.loading q x hp).1⟩
  | finished => cases hfin
  | _ => exact hold hgranted hfin

/-- The count of one runner changes as do its holders. -/
theorem count_of {f : Nat → Nat} (h : Counted s) (hr : s'.runners = (s.setRunner r x).runners)
    (hx : x.refCount = f (s.runners r).refCount)
    (hcard : ∀ r', (s'.holders r').card = if r' = r then f (s.holders r').card else (s.holders r').card) :
    ∀ r', (s'.runners r').refCount = (s'.holders r').card := by
  intro r'
  rw [hr, s.setRunner_apply RunnerRef.refCount, hcard, ← h.count r']
  split
  · rename_i heq
    rw [hx, heq]
  · rfl

/-- No count changes. -/
theorem count_same (h : Counted s) (hr : ∀ r, (s'.runners r).refCount = (s.runners r).refCount)
    (hh : ∀ r, s'.holders r = s.holders r) :
    ∀ r, (s'.runners r).refCount = (s'.holders r).card := by
  intro r
  rw [hr, hh]
  exact h.count r

/-- A runner counts the requests that hold it. -/
theorem step_count (h : Counted s) (hst : Stored s) (hb : Bounds s) (hok : s.ledger.Ok) (hs : Step s a s') :
    ∀ r, (s'.runners r).refCount = (s'.holders r).card := by
  have hkeep : ∀ {t : Scheduler} {q₀ y}, y.granted = (t.requests q₀).granted → y.finished = (t.requests q₀).finished →
      ∀ q, ((t.setRequest q₀ y).requests q).granted = (t.requests q).granted ∧
        ((t.setRequest q₀ y).requests q).finished = (t.requests q).finished :=
    fun hg hf q =>
      ⟨Scheduler.setRequest_same LlmRequest.granted _ hg q, Scheduler.setRequest_same LlmRequest.finished _ hf q⟩
  cases hs with
  -- a request is granted a runner
  | useLoadedRunner hp _ =>
    obtain ⟨hlt, -, hnone, -, hfin, -⟩ := hok.waiting _ (waiting_of_ungranted (congrArg Pending.ungranted hp))
    exact h.count_of (f := (· + 1)) rfl rfl (card_holders_grant rfl rfl hlt hnone rfl hfin)
  | @store q x hp _ =>
    obtain ⟨hlt, -, hnone, -, hfin, -⟩ := hok.waiting _ (waiting_of_ungranted (congrArg Pending.ungranted hp))
    have hone : x.refCount = (s.runners s.nextRunner).refCount + 1 := by
      rw [hb.fresh _ (Nat.le_refl _)]
      exact (h.loading q x hp).2
    exact h.count_of (f := (· + 1)) rfl hone (card_holders_grant rfl rfl hlt hnone rfl hfin)
  -- a request gives its runner back
  | failed hl =>
    obtain ⟨hlt, -, hgranted, -, hfin, -⟩ := hok.starting _ _ hl
    exact h.count_of (f := decrement) rfl rfl
      (card_holders_release rfl rfl (mem_holders.2 ⟨hlt, hgranted, hfin⟩) (.inl rfl))
  | @finish q r hc _ =>
    obtain ⟨_, _, hfin, _⟩ := h.stored_of_finished hst hok (congrArg Completed.requests hc)
    have hgranted := h.finishing q r hc
    have hlt : q < s.nextRequest :=
      hok.granted q (by rw [Scheduler.ledger_lives, LlmRequest.life, hgranted]; exact Option.some_ne_none r)
    exact h.count_of (f := decrement) rfl (RunnerRef.finish_refCount _)
      (card_holders_release rfl rfl (mem_holders.2 ⟨hlt, hgranted, hfin⟩) (.inr rfl))
  | lookupUnloaded hc _ hnone =>
    obtain ⟨_, _, _, hlook⟩ := h.stored_of_finished hst hok (congrArg Completed.requests hc)
    cases hnone.symm.trans hlook
  | getRunner model opts d =>
    refine h.count_same (fun _ => rfl) fun r => Finset.ext fun q => ?_
    rw [mem_holders, mem_holders]
    show q < s.nextRequest + 1 ∧ ((s.setRequest s.nextRequest (s.newRequest model opts d)).requests q).granted =
      some r ∧ ((s.setRequest s.nextRequest (s.newRequest model opts d)).requests q).finished = false ↔ _
    rw [Scheduler.setRequest_requests]
    split
    · rename_i hnew
      exact iff_of_false (fun hmem => by cases hmem.2.1) (fun hmem => absurd hmem.1 (by omega))
    · exact and_congr_left fun _ => by omega
  -- other steps do to requests and runners what changes no count
  | cancel _ | sendFinished _ _ _ | takePending _ _ | modelError _ | load _ _ _ _ | updateFreeSpace _ _ _ _ _
  | delay _ _ | makeRoom _ _ =>
    exact h.count_same (fun _ => rfl) (holders_congr rfl (hkeep rfl rfl))
  | @serverError q n _ =>
    refine h.count_same (fun _ => rfl) fun r => ?_
    have hanswer : ((s.setNumCtx q n).answer q .serverError).holders r = (s.setNumCtx q n).holders r :=
      holders_congr (by rfl) (hkeep (by rfl) (by rfl)) r
    have hctx : (s.setNumCtx q n).holders r = s.holders r := holders_congr (by rfl) (hkeep (by rfl) (by rfl)) r
    exact hanswer.trans hctx
  | handOver _ | running _ | handLoaded _ =>
    exact h.count_same (s.setRunner_same RunnerRef.refCount rfl) (holders_congr rfl (hkeep rfl rfl))
  | expire _ _ | evict _ _ | sendIdle _ _ | checkIdle _ _ _ | unload _ _ | sendFailed _ _ | fire _ | callback _ _
  | sendCallback _ _
  | expireIdle _ _ _ | expireBusy _ _ _ | sendExpire _ _ =>
    exact h.count_same (s.setRunner_same RunnerRef.refCount rfl) (fun _ => rfl)
  | _ => exact h.count_same (fun _ => rfl) (fun _ => rfl)

theorem step (h : Counted s) (hst : Stored s) (hb : Bounds s) (hl : Locks s) (hok : s.ledger.Ok)
    (hlt : ∀ q, s.pending.request = some q → q < s.nextRequest) (hgrant : grantsClean s a) (hs : Step s a s') :
    Counted s' where
  count := h.step_count hst hb hok hs
  opened := fun q _ => h.handle_opened hst hb hok hlt hs (hs.handle q)
  options := fun r => h.touch_options hst (hs.touch r)
  reuse := h.step_reuse hst hb hlt hs
  usable := h.step_usable hb hl hgrant hlt hs
  loading := h.step_loading hlt hs
  unloading := step_unloading_idle h.unloading hl hb hs
  finishing := h.step_finishing hst hok hs

end Counted

theorem counted {ok : Scheduler → Action → Prop} (hok : ∀ s a, ok s a → loadsClean s a ∧ grantsClean s a)
    (h : (scheduler ok).Reachable s) : Counted s := by
  induction h with
  | @init s hi =>
    obtain ⟨maxQueue, rfl⟩ := hi
    constructor <;> simp [Scheduler.holders]
  | step hr hst ih =>
    obtain ⟨a, ha, hs⟩ := hst
    have hstored := stored (fun s a h => (hok s a h).1) hr
    exact ih.step hstored (bounds hr) (locks hr) (ledger_ok hr) (request_lt hr) (hok _ _ ha).2 hs

end Ollama.Sched
