import Ollama.Sched.Lemmas.Locks
import Ollama.Sched.Lemmas.Requests
import Ollama.Sched.Lemmas.Touch

/-!
# The loaded runners

An expired event is handled for the runner it names, but the entry it deletes is that of the path. `Stored` is what
holds as long as no runner is stored while an expired event of an earlier runner of its path is on its way
(`loadsClean`): the runners that are open are those that are stored, each for its own path, and whoever has a runner
in hand finds no other one stored for its path.
-/

namespace Ollama.Sched

open Lib

/-- A runner is stored only while no expired event of an earlier runner of its path is on its way. -/
def loadsClean (s : Scheduler) (a : Action) : Prop :=
  a = .store → ∀ q x, s.pending = .loading q x → ∀ r, (s.runners r).modelPath = x.modelPath → ¬s.outstanding r

/-- The runner is the one that is stored for its path. -/
def Scheduler.stored (s : Scheduler) (r : Nat) : Prop := s.loaded.lookup (s.runners r).modelPath = some r

/-- No other runner is stored for the path of the runner. -/
def Scheduler.sole (s : Scheduler) (r : Nat) : Prop := ∀ r', s.loaded.lookup (s.runners r).modelPath = some r' → r' = r

/-- The runners that are open are stored. -/
structure Stored (s : Scheduler) : Prop where
  keys : (s.loaded.map Prod.fst).Nodup
  opened : ∀ r, (s.runners r).llama = true → s.stored r
  loaded : ∀ p r, s.loaded.lookup p = some r → (s.runners r).llama = true ∧ (s.runners r).modelPath = p
  placing : ∀ q n, s.pending = .placing q n → s.loaded.lookup (s.path q) = none
  freeing : ∀ q rs, s.pending = .freeing q rs → s.loaded.lookup (s.path q) = none
  fitting : ∀ q, s.pending = .fitting q → s.loaded.lookup (s.path q) = none
  loading : ∀ q x, s.pending = .loading q x → s.loaded.lookup x.modelPath = none ∧ x.llama = true
  events : ∀ r, s.outstanding r → s.sole r
  hand : ∀ r ∈ s.pending.runners, s.sole r
  finishing : ∀ q r, s.completed = .finishing q r → s.stored r
  idling : ∀ r, s.completed = .idling r → s.stored r
  locking : ∀ r, s.expirer = .locking r → s.stored r
  sending : ∀ r, s.expirer = .sending r → s.stored r
  timer : ∀ r, (s.runners r).expireTimer ≠ none → (s.runners r).llama = true
  loader : ∀ r, (s.runners r).loader ≠ .gone → (s.runners r).llama = true

variable {s s' : Scheduler} {a : Action} {q r : Nat} {x : RunnerRef}

/-! ## Requests that are placed -/

/-- The request `processPending` has in hand was made. -/
theorem request_lt {ok : Scheduler → Action → Prop} (h : (scheduler ok).Reachable s) (q : Nat)
    (hq : s.pending.request = some q) :
    q < s.nextRequest :=
  (((held_iff q).1 (.inr (.inl hq))).unanswered (ledger_ok h)).1

/-- While a place is looked for a request, no runner is loaded for its model. -/
theorem lookup_of_placed {ok : Scheduler → Action → Prop} (h : (scheduler ok).Reachable s) :
    ∀ q, s.pending.placed = some q → s.loaded.lookup (s.path q) = none := by
  induction h with
  | init hi =>
    obtain ⟨maxQueue, rfl⟩ := hi
    intro q hq
    cases hq
  | @step s s' hr hst ih =>
    obtain ⟨a, _, hs⟩ := hst
    intro q hq
    have hnone : s.pending.request = some q ∧ s.loaded.lookup (s.path q) = none := by
      obtain hplaced | ⟨htrying, hnone⟩ := step_placed hs hq
      · exact ⟨Pending.request_of_placed hplaced, ih q hplaced⟩
      · exact ⟨by rw [htrying]; rfl, hnone⟩
    exact step_lookup_none hs (Pending.request_of_placed hq) (request_lt hr q hnone.1) hnone.2

/-! ## Runners that are stored -/

/-- A runner that is stored is the only one at its path. -/
theorem Scheduler.stored.sole (h : s.stored r) : s.sole r := by
  intro r' hlook
  exact Option.some.inj (hlook.symm.trans h)

/-- It stays so until another one is stored for its path. -/
theorem Scheduler.sole.step (h : s.sole r) (hlt : r < s.nextRunner)
    (hstore : ∀ q x, a = .store → s.pending = .loading q x → (s.runners r).modelPath ≠ x.modelPath)
    (hs : Step s a s') : s'.sole r := by
  intro r' hlook
  rw [(hs.touch r).modelPath fun _ => Nat.ne_of_lt hlt] at hlook
  obtain hold | ⟨ha, -, q, x, hp, hpath⟩ := hs.shelf.lookup hlook
  · exact h r' hold
  · exact absurd hpath (hstore q x ha hp)

namespace Stored

/-- A runner that is stored is stored for its path. -/
theorem mem (h : Stored s) (hr : r ∈ s.loaded.map Prod.snd) : s.stored r := by
  obtain ⟨e, he, rfl⟩ := List.mem_map.1 hr
  have hlook : s.loaded.lookup e.1 = some e.2 := Assoc.lookup_of_mem h.keys he
  rw [Scheduler.stored, (h.loaded _ _ hlook).2]
  exact hlook

/-- While an expired event is handled, no other runner is stored for the path. -/
theorem sole_of_unloading (h : Stored s) (hc : s.completed = .unloading r) : s.sole r :=
  h.events r (.inr (.inr (.inr (.inl hc))))

/-- The runner that is to be stored is not for the path of one that is. -/
theorem path_ne (h : Stored s) (hstored : s.stored r) (hp : s.pending = .loading q x) :
    (s.runners r).modelPath ≠ x.modelPath := by
  intro heq
  have hnone := (h.loading q x hp).1
  rw [← heq, hstored] at hnone
  cases hnone

/-- A runner that is stored stays stored until it is unloaded. -/
theorem keep (h : Stored s) (hb : Bounds s) (hstored : s.stored r) (hs : Step s a s') :
    s'.stored r ∨ (a = .unload ∧ s.completed = .unloading r) := by
  rw [Scheduler.stored, (hs.touch r).modelPath fun _ => Nat.ne_of_lt (hb.loaded r (mem_of_lookup hstored))]
  obtain hkeep | ⟨-, q, x, hp, hpath⟩ | ⟨ha, r', hc, hpath⟩ := hs.shelf.keep hstored
  · exact .inl hkeep
  · exact absurd hpath (h.path_ne hstored hp)
  · have heq : r = r' := h.sole_of_unloading hc r (hpath ▸ hstored)
    exact .inr ⟨ha, heq ▸ hc⟩

/-- While `processCompleted` is elsewhere, or somebody has the lock on the loaded runners, no runner is unloaded. -/
theorem keep_of_completed (h : Stored s) (hb : Bounds s) (hstored : s.stored r) {c : Completed} (hc : s.completed = c)
    (hne : c ≠ .unloading r) (hs : Step s a s') : s'.stored r := by
  obtain hkeep | ⟨-, hunloading⟩ := h.keep hb hstored hs
  · exact hkeep
  · exact absurd (hc.symm.trans hunloading) hne

theorem keep_of_expirer (h : Stored s) (hb : Bounds s) (hl : Locks s) (hstored : s.stored r)
    (he : s.expirer ≠ .gone) (hs : Step s a s') :
    s'.stored r := by
  obtain hkeep | ⟨ha, -⟩ := h.keep hb hstored hs
  · exact hkeep
  · have hfree := step_loadedMu hs (.inr ha)
    rw [hl.expirer he] at hfree
    cases hfree

/-- No path is there twice. -/
theorem step_keys (h : Stored s) (hs : Step s a s') : (s'.loaded.map Prod.fst).Nodup := by
  cases hs with
  | store _ _ => exact Assoc.nodup_set h.keys _ _
  | unload _ _ => exact (List.filter_sublist.map Prod.fst).nodup h.keys
  | _ => exact h.keys

/-- The runner that is closed is the one that is unloaded. -/
theorem closed (hs : Step s .unload s') (hc : s.completed = .unloading r) : (s'.runners r).llama = false := by
  cases hs with
  | unload hc' _ =>
    cases hc'.symm.trans hc
    rw [Scheduler.setRunner_runners, if_pos rfl]
    rfl

/-- An open runner is stored. -/
theorem step_opened (h : Stored s) (hb : Bounds s) (hs : Step s a s') :
    ∀ r, (s'.runners r).llama = true → s'.stored r := by
  intro r hopen
  by_cases hnew : a = .store ∧ r = s.nextRunner
  · obtain ⟨rfl, rfl⟩ := hnew
    cases hs with
    | store hp hfree =>
      obtain ⟨-, hx, hlook⟩ := step_store (.store hp hfree) hp
      rw [Scheduler.stored, hx]
      exact hlook
  · obtain hsame | ⟨-, -, hclosed⟩ := (hs.touch r).llama (not_and.1 hnew)
    · obtain hkeep | ⟨rfl, hc⟩ := h.keep hb (h.opened r (hsame ▸ hopen)) hs
      · exact hkeep
      · rw [closed hs hc] at hopen
        cases hopen
    · rw [hclosed] at hopen
      cases hopen

/-- A stored runner is open. -/
theorem step_loaded (h : Stored s) (hb : Bounds s) (hs : Step s a s') :
    ∀ p r, s'.loaded.lookup p = some r → (s'.runners r).llama = true ∧ (s'.runners r).modelPath = p := by
  intro p r hlook
  obtain hold | ⟨rfl, rfl, q, x, hp, rfl⟩ := hs.shelf.lookup hlook
  · have hne : a = .store → r ≠ s.nextRunner := fun _ => Nat.ne_of_lt (hb.loaded r (mem_of_lookup hold))
    obtain ⟨hopen, hpath⟩ := h.loaded p r hold
    refine ⟨?_, ((hs.touch r).modelPath hne).trans hpath⟩
    obtain hsame | ⟨rfl, hc, -⟩ := (hs.touch r).llama hne
    · exact hsame.trans hopen
    · have hnone := (step_unload hs hc).2
      rw [hpath, hlook] at hnone
      cases hnone
  · rw [(step_store hs hp).2.1]
    exact ⟨(h.loading q x hp).2, rfl⟩

/-- The runner that is to be stored is the first of its path. -/
theorem step_loading (h : Stored s) (hlt : ∀ q, s.pending.request = some q → q < s.nextRequest)
    (hplaced : ∀ q, s.pending.placed = some q → s.loaded.lookup (s.path q) = none) (hs : Step s a s') :
    ∀ q x, s'.pending = .loading q x → s'.loaded.lookup x.modelPath = none ∧ x.llama = true := by
  intro q x hp
  have hne : a ≠ .store := by
    rintro rfl
    cases hs with
    | store _ _ => cases hp
  obtain hold | ⟨_, _, _, -, hplacing, rfl⟩ := Sched.step_loading hs hp
  · obtain ⟨hnone, hopen⟩ := h.loading q x hold
    exact ⟨hs.shelf.lookup_none hne hnone, hopen⟩
  · have hq : s.pending.placed = some q := by
      obtain ⟨_, hp⟩ | hp := hplacing
      · rw [hp]
        rfl
      · rw [hp]
        rfl
    exact ⟨step_lookup_none hs (by rw [hp]; rfl) (hlt q (Pending.request_of_placed hq)) (hplaced q hq), rfl⟩

/-- Who sends the expired event of a runner has one that is stored, or is the only one at its path. -/
theorem sole_of_sends (h : Stored s) (hsends : Step.sends s a r) : s.sole r := by
  obtain ⟨-, q, hp⟩ | ⟨-, hc⟩ | ⟨-, hl⟩ | ⟨-, he⟩ := hsends
  · exact h.hand r (by rw [hp]; exact List.mem_cons_self)
  · exact (h.idling r hc).sole
  · exact (h.opened r (h.loader r (fun heq => by rw [hl] at heq; cases heq))).sole
  · exact (h.sending r he).sole

/-- Whose expired event is on its way has no other runner at its path. -/
theorem step_events (h : Stored s) (hb : Bounds s) (hl : Locks s) (hok : loadsClean s a) (hs : Step s a s') :
    ∀ r, s'.outstanding r → s'.sole r := by
  intro r ho
  obtain hold | hsends | ⟨rfl, rfl⟩ | ⟨ha, htimer⟩ := step_outstanding hs (hl.callback r) ho
  · exact (h.events r hold).step (hb.of_outstanding hold) (fun q x ha hp heq => hok ha q x hp r heq hold) hs
  · refine (h.sole_of_sends hsends).step (hb.of_sends hsends) (fun q x ha => ?_) hs
    obtain ⟨heq, -⟩ | ⟨heq, -⟩ | ⟨heq, -⟩ | ⟨heq, -⟩ := hsends <;> cases ha.symm.trans heq
  · cases hs with
    | store hp hfree =>
      obtain ⟨-, hx, hlook⟩ := step_store (.store hp hfree) hp
      refine Scheduler.stored.sole ?_
      rw [Scheduler.stored, hx]
      exact hlook
  · have hstored := h.opened r (h.timer r htimer)
    refine hstored.sole.step (hb.loaded r (mem_of_lookup hstored)) (fun q x hstore => ?_) hs
    cases ha.symm.trans hstore

/-- The runners `processPending` has in hand have no other runner at their paths. -/
theorem step_hand (h : Stored s) (hb : Bounds s) (hs : Step s a s') : ∀ r ∈ s'.pending.runners, s'.sole r := by
  intro r hr
  have hne : ∀ q x, a = .store → s.pending = .loading q x → (s.runners r).modelPath ≠ x.modelPath := by
    rintro q x rfl hp
    rw [(step_store hs hp).1] at hr
    cases hr
  obtain hold | hloaded := step_pendingRunners hs hr
  · exact (h.hand r hold).step (hb.pending r hold) hne hs
  · exact (h.mem hloaded).sole.step (hb.loaded r hloaded) hne hs

/-- The runner of a finished request is stored. -/
theorem step_finishing (h : Stored s) (hb : Bounds s) (hs : Step s a s') :
    ∀ q r, s'.completed = .finishing q r → s'.stored r := by
  intro q r hc
  obtain hold | ⟨hfinished, -, hlook⟩ := Sched.step_finishing hs hc
  · exact h.keep_of_completed hb (h.finishing q r hold) hold (fun heq => by cases heq) hs
  · have hstored : s.stored r := by
      rw [Scheduler.stored, (h.loaded _ _ hlook).2]
      exact hlook
    exact h.keep_of_completed hb hstored hfinished (fun heq => by cases heq) hs

theorem step_idling (h : Stored s) (hb : Bounds s) (hs : Step s a s') :
    ∀ r, s'.completed = .idling r → s'.stored r := by
  intro r hc
  obtain hold | ⟨q, -, hfinishing, -⟩ := Sched.step_idling hs hc
  · exact h.keep_of_completed hb (h.idling r hold) hold (fun heq => by cases heq) hs
  · exact h.keep_of_completed hb (h.finishing q r hfinishing) hfinishing (fun heq => by cases heq) hs

/-- The runner that `expireRunner` found is stored. -/
theorem step_locking (h : Stored s) (hb : Bounds s) (hl : Locks s) (hs : Step s a s') :
    ∀ r, s'.expirer = .locking r → s'.stored r := by
  intro r he
  obtain hold | ⟨p, rfl, hlook⟩ := Sched.step_locking hs he
  · exact h.keep_of_expirer hb hl (h.locking r hold) (fun heq => by rw [hold] at heq; cases heq) hs
  · have hstored := h.mem (mem_of_lookup hlook)
    obtain hkeep | ⟨ha, -⟩ := h.keep hb hstored hs
    · exact hkeep
    · cases ha

theorem step_sending (h : Stored s) (hb : Bounds s) (hl : Locks s) (hs : Step s a s') :
    ∀ r, s'.expirer = .sending r → s'.stored r := by
  intro r he
  obtain hold | ⟨-, hlocking, -⟩ := Sched.step_sending hs he
  · exact h.keep_of_expirer hb hl (h.sending r hold) (fun heq => by rw [hold] at heq; cases heq) hs
  · exact h.keep_of_expirer hb hl (h.locking r hlocking) (fun heq => by rw [hlocking] at heq; cases heq) hs

/-- A runner with a timer is open. -/
theorem touch_timer (h : Stored s) (ht : Touch s r a x) (htimer : x.expireTimer ≠ none) : x.llama = true := by
  cases ht with
  | store hp _ => exact (h.loading _ _ hp).2
  | grant _ _ | expireNow _ | unload _ | callback => exact absurd rfl htimer
  | finish hc _ =>
    rw [RunnerRef.finish_same RunnerRef.llama (fun _ _ _ _ _ => rfl)]
    exact (h.loaded _ r (h.finishing _ r hc)).1
  | fire hset => exact h.timer r (fun hnone => by rw [hset] at hnone; cases hnone)
  | _ => exact h.timer r htimer

/-- A runner that is loading is open. -/
theorem touch_loader (h : Stored s) (hl : Locks s) (ht : Touch s r a x) (hload : x.loader ≠ .gone) :
    x.llama = true := by
  cases ht with
  | store hp _ => exact (h.loading _ _ hp).2
  | finish _ _ =>
    rw [RunnerRef.finish_loader] at hload
    rw [RunnerRef.finish_same RunnerRef.llama (fun _ _ _ _ _ => rfl)]
    exact h.loader r hload
  | unload hc =>
    -- its lock is that of the goroutine that loads it
    have hmu := hl.loader r hload
    rw [hl.unloading r hc] at hmu
    cases hmu
  | running hstart | failed hstart => exact h.loader r (fun heq => by rw [hstart] at heq; cases heq)
  | gone => exact absurd rfl hload
  | _ => exact h.loader r hload

theorem step (h : Stored s) (hb : Bounds s) (hl : Locks s) (hlt : ∀ q, s.pending.request = some q → q < s.nextRequest)
    (hplaced : ∀ q, s.pending.placed = some q → s.loaded.lookup (s.path q) = none)
    (hplaced' : ∀ q, s'.pending.placed = some q → s'.loaded.lookup (s'.path q) = none) (hok : loadsClean s a)
    (hs : Step s a s') :
    Stored s' where
  keys := h.step_keys hs
  opened := h.step_opened hb hs
  loaded := h.step_loaded hb hs
  placing := fun q n hp => hplaced' q (by rw [hp]; rfl)
  freeing := fun q rs hp => hplaced' q (by rw [hp]; rfl)
  fitting := fun q hp => hplaced' q (by rw [hp]; rfl)
  loading := h.step_loading hlt hplaced hs
  events := h.step_events hb hl hok hs
  hand := h.step_hand hb hs
  finishing := h.step_finishing hb hs
  idling := h.step_idling hb hs
  locking := h.step_locking hb hl hs
  sending := h.step_sending hb hl hs
  timer := fun r => h.touch_timer (hs.touch r)
  loader := fun r => h.touch_loader hl (hs.touch r)

end Stored

theorem stored {ok : Scheduler → Action → Prop} (hok : ∀ s a, ok s a → loadsClean s a)
    (h : (scheduler ok).Reachable s) :
    Stored s := by
  induction h with
  | @init s hi =>
    obtain ⟨maxQueue, rfl⟩ := hi
    constructor <;> simp [Scheduler.outstanding, Pending.runners]
  | step hr hst ih =>
    have hplaced' := lookup_of_placed (.step hr hst)
    obtain ⟨a, ha, hs⟩ := hst
    exact ih.step (bounds hr) (locks hr) (request_lt hr) (lookup_of_placed hr) hplaced' (hok _ _ ha) hs

end Ollama.Sched
