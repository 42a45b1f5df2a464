import Ollama.Sched.Lemmas.Locks
import Ollama.Sched.Theorems.Requests
import Ollama.Sched.Waits

/-!
# The order of locks

`processCompleted` takes the lock of a runner and then the one on the loaded runners; `updateFreeSpace` and
`expireRunner` take them in the other order. In the runs in which they do not meet and `expiredCh` has room
(`locksInOrder`), no goroutine that has the lock on the loaded runners waits for a runner whose holder waits for it.
-/

namespace Ollama.Sched

open Lib Goroutine

variable {s s' : Scheduler} {a : Action}

/-! ## Runs in which the locks do not meet -/

/-- `processCompleted` unloads no runner that somebody with the lock on the loaded runners has still to take, and
`expiredCh` has room while that lock is taken. -/
structure InOrder (s : Scheduler) : Prop where
  visit : ∀ r, s.completed = .unloading r → r ∉ s.pending.toVisit
  locking : ∀ r, s.completed = .unloading r → s.expirer ≠ .locking r
  room : s.loadedMu = none ∨ s.expiredCh.length < s.maxQueue

namespace InOrder

theorem step_visit (h : InOrder s) (hok : locksInOrder s a) (hs : Step s a s') :
    ∀ r, s'.completed = .unloading r → r ∉ s'.pending.toVisit := by
  intro r
  have hrest := h.visit r
  obtain ⟨_, hcheck, hfree, _⟩ := hok
  cases hs with
  | @checkIdle r' hc _ _ =>
    intro heq
    obtain rfl := Completed.unloading.inj heq
    exact (hcheck rfl _ hc).1
  | @updateFreeSpace q n rs numCtx hp _ _ hperm =>
    intro hc hmem
    exact hfree numCtx rfl r (hperm.mem_iff.1 hmem) hc
  | visit hp _ =>
    intro hc hmem
    rw [hp] at hrest
    exact hrest hc (List.mem_cons_of_mem _ hmem)
  | takePending _ _ | needsReload _ _ _ | expire _ _ =>
    intro _ hmem
    dsimp only at hmem
    split at hmem
    · exact List.not_mem_nil hmem
    · exact List.not_mem_nil hmem
  | finish _ _ =>
    intro hc
    dsimp only at hc
    split at hc
    · cases hc
    · cases hc
  -- the others leave both as they are, or one of them elsewhere
  | _ => first | exact hrest | exact fun _ => List.not_mem_nil | exact fun hc => by cases hc

theorem step_locking (h : InOrder s) (hok : locksInOrder s a) (hs : Step s a s') :
    ∀ r, s'.completed = .unloading r → s'.expirer ≠ .locking r := by
  intro r
  have hrest := h.locking r
  obtain ⟨_, hcheck, _, hexp⟩ := hok
  cases hs with
  | @checkIdle r' hc _ _ =>
    intro heq
    obtain rfl := Completed.unloading.inj heq
    exact (hcheck rfl _ hc).2
  | @expireRunner modelPath r' _ _ hlook =>
    intro hc heq
    obtain rfl := Expirer.locking.inj heq
    exact hexp modelPath rfl _ hlook hc
  | finish _ _ =>
    intro hc
    dsimp only at hc
    split at hc
    · cases hc
    · cases hc
  | _ => first | exact hrest | exact fun hc => by cases hc | exact fun _ heq => by cases heq

/-- A step sends at most the one event it is for, and no channel changes its size. -/
theorem step_room (hok : locksInOrder s a) (hs : Step s a s') : s'.expiredCh.length < s'.maxQueue := by
  have hroom : s.expiredCh.length + a.sendsExpired.toNat < s.maxQueue := hok.1
  cases hs with
  | @takeExpired r rest _ hch =>
    rw [hch, List.length_cons] at hroom
    show rest.length < s.maxQueue
    omega
  | evict _ _ | sendIdle _ _ | sendFailed _ _ | sendCallback _ _ | retry _ _ | sendExpire _ _ =>
    show (s.expiredCh ++ [_]).length < s.maxQueue
    rw [List.length_append]
    exact hroom
  | _ => exact Nat.lt_of_le_of_lt (Nat.le_add_right _ _) hroom

end InOrder

theorem inOrder (h : (scheduler locksInOrder).Reachable s) : InOrder s := by
  refine h.invariant ?_ ?_
  · rintro s ⟨maxQueue, rfl⟩
    constructor <;> simp
  · rintro s s' hi ⟨a, hok, hs⟩
    exact ⟨hi.step_visit hok hs, hi.step_locking hok hs, .inr (InOrder.step_room hok hs)⟩

/-- A goroutine that has the lock of a runner and waits is `processCompleted`, and is about to unload it, while
`expiredCh` has room. -/
theorem unloading_of_waits (h : Holders s) (hroom : s.expiredRoom) {g g' : Goroutine} {r : Nat} (hg : g.holdsRef s r)
    (hw : Waits s g g') : g = .completed ∧ s.completed = .unloading r := by
  cases g with
  | pending =>
    have hlock := h.pending r hg
    cases hw with
    | loaded hw _ => rcases hw with ⟨_, hp⟩ | ⟨_, _, hp⟩ | ⟨_, _, hp⟩ | ⟨_, hp⟩ <;> simp [hp, Pending.lock] at hlock
    | ref hw _ =>
      rcases hw with ⟨_, hp⟩ | ⟨_, hp⟩ | ⟨_, _, hp⟩ | ⟨_, _, _, hp⟩ | ⟨_, hp⟩ <;> simp [hp, Pending.lock] at hlock
    | expired _ hfull => exact absurd hroom hfull
  | completed =>
    have hlock := h.completed r hg
    refine ⟨rfl, ?_⟩
    cases hw with
    | loaded hw _ =>
      rcases hw with ⟨_, hc⟩ | ⟨r', hc⟩
      · simp [hc, Completed.lock] at hlock
      · rw [hc, Completed.lock, Option.some.injEq] at hlock
        rw [hc, hlock]
    | ref hw _ => rcases hw with ⟨_, hc⟩ | hc <;> simp [hc, Completed.lock] at hlock
    | expired _ hfull => exact absurd hroom hfull
    | unloaded hc _ => simp [hc, Completed.lock] at hlock
  | loader r' =>
    cases hw with
    | loaded hw _ => exact hw.elim
    | ref hw _ => exact hw.elim
    | expired _ hfull => exact absurd hroom hfull
  | callback r' =>
    obtain ⟨rfl, hmu⟩ := hg
    cases hw with
    | loaded hw _ => exact hw.elim
    | ref hw _ =>
      obtain ⟨rfl, _, hne⟩ := hw
      exact absurd hmu hne
    | expired _ hfull => exact absurd hroom hfull
  | expirer =>
    have hlock := h.expirer r hg
    cases hw with
    | loaded hw _ => exact hw.elim
    | ref hw _ =>
      have he : s.expirer = .locking _ := hw
      simp [he, Expirer.lock] at hlock
    | expired _ hfull => exact absurd hroom hfull

/-- In every run in which the locks do not meet and `expiredCh` does not get full, no goroutine with the lock on the
loaded runners waits for a runner whose holder waits for it. -/
theorem no_lock_cycle (h : (scheduler locksInOrder).Reachable s) : ¬LockCycle s := by
  rintro ⟨g, g', r, hloaded, hwants, hholds, hwait⟩
  have hh := holders h
  have hi := inOrder h
  have hne : s.loadedMu ≠ none := by
    intro hnone
    cases g <;> simp [holdsLoaded, hnone] at hloaded
  have hroom : s.expiredRoom := .inl (hi.room.resolve_left hne)
  obtain ⟨g'', hfirst, _⟩ := Relation.TransGen.head'_iff.1 hwait
  obtain ⟨_, hc⟩ := unloading_of_waits hh hroom hholds hfirst
  cases g with
  | pending =>
    obtain ⟨q, rs, hp⟩ := hh.loadedPending hloaded
    have hvisit := hi.visit r hc
    rcases hwants with ⟨_, hw⟩ | ⟨_, hw⟩ | ⟨_, rs', hw⟩ | ⟨_, _, _, hw⟩ | ⟨_, hw⟩
    · rw [hp] at hw; cases hw
    · rw [hp] at hw; cases hw
    · rw [hw] at hvisit
      exact hvisit (List.mem_cons_self ..)
    · rw [hp] at hw; cases hw
    · rw [hp] at hw; cases hw
  | expirer => exact hi.locking r hc hwants
  | completed | loader _ | callback _ =>
    rcases hh.loaded with hl | hl | hl <;> simp [holdsLoaded, hl] at hloaded

/-- `updateFreeSpace` has the lock on the loaded runners and waits for the runner that `processCompleted` is about to
unload. -/
theorem lock_cycle_reached : ¬∀ s, (scheduler anyStep).Reachable s → ¬LockCycle s := by
  intro h
  have hrun : (scheduler anyStep).Leads LockCycle { maxQueue := 512 } := by
    -- a runner is loaded for a request that does not want it to stay
    refine .step ⟨_, trivial, .getRunner (modelAt "a") {} (some 0)⟩ ?_
    refine .step ⟨_, trivial, .takePending rfl rfl⟩ ?_
    refine .step ⟨.lookup 0, trivial, .lookupNone rfl rfl rfl (by simp)⟩ ?_
    refine .step ⟨_, trivial, .load 4 1 0 (.inl ⟨_, rfl⟩)⟩ ?_
    refine .step ⟨_, trivial, .store rfl rfl⟩ ?_
    refine .step ⟨.running 0, trivial, .running rfl⟩ ?_
    refine .step ⟨.handLoaded 0, trivial, .handLoaded rfl⟩ ?_
    refine .step ⟨.cancel 0, trivial, .cancel Nat.zero_lt_one⟩ ?_
    refine .step ⟨.sendFinished 0, trivial, .sendFinished rfl rfl (.inl (by decide))⟩ ?_
    refine .step ⟨_, trivial, .takeFinished rfl rfl⟩ ?_
    refine .step ⟨_, trivial, .lookupFinished rfl rfl rfl⟩ ?_
    refine .step ⟨_, trivial, .finish rfl rfl⟩ ?_
    refine .step ⟨_, trivial, .sendIdle rfl (.inl (by decide))⟩ ?_
    refine .step ⟨_, trivial, .takeExpired rfl rfl⟩ ?_
    -- a request for another model sums up what the loaded runners take, while the first is unloaded
    refine .step ⟨_, trivial, .getRunner (modelAt "b") {} none⟩ ?_
    refine .step ⟨_, trivial, .takePending rfl rfl⟩ ?_
    refine .step ⟨.lookup 0, trivial, .lookupNone rfl rfl rfl (by simp)⟩ ?_
    refine .step ⟨.updateFreeSpace 4, trivial, .updateFreeSpace 4 rfl Nat.zero_lt_one rfl (List.Perm.refl [0])⟩ ?_
    refine .step ⟨_, trivial, .checkIdle rfl rfl rfl⟩ ?_
    refine .here ⟨.pending, .completed, 0, rfl, .inr (.inr (.inl ⟨1, [], rfl⟩)), rfl, .single (.loaded ?_ rfl)⟩
    exact .inr ⟨0, rfl⟩
  obtain ⟨s, hs, hcycle⟩ := hrun.exists_reachable (.init ⟨512, rfl⟩)
  exact h s hs hcycle

/-- `updateFreeSpace` waits for a runner that is loading, which is no cycle. -/
theorem no_lock_cycle_loading : ∃ s, (scheduler locksInOrder).Reachable s ∧ Goroutine.pending.holdsLoaded s ∧
    Goroutine.pending.wantsRef s 0 ∧ (Goroutine.loader 0).holdsRef s 0 ∧ ¬LockCycle s := by
  have hrun : (scheduler locksInOrder).Leads (fun s => Goroutine.pending.holdsLoaded s ∧
    Goroutine.pending.wantsRef s 0 ∧ (Goroutine.loader 0).holdsRef s 0) { maxQueue := 512 } := by
    have hsend : ∀ {s : Scheduler} {a : Action}, s.expiredCh.length + a.sendsExpired.toNat < s.maxQueue →
      a ≠ .checkExpired → s.completed = .idle → locksInOrder s a := by
      intro s a hroom hne hc
      exact ⟨hroom, fun ha => absurd ha hne, fun _ _ _ _ => by rw [hc]; simp, fun _ _ _ _ => by rw [hc]; simp⟩
    refine .step ⟨_, hsend (by decide) (by simp) rfl, .getRunner (modelAt "a") {} (some 0)⟩ ?_
    refine .step ⟨_, hsend (by decide) (by simp) rfl, .takePending rfl rfl⟩ ?_
    refine .step ⟨.lookup 0, hsend (by decide) (by simp) rfl, .lookupNone rfl rfl rfl (by simp)⟩ ?_
    refine .step ⟨_, hsend (by decide) (by simp) rfl, .load 4 1 0 (.inl ⟨_, rfl⟩)⟩ ?_
    refine .step ⟨_, hsend (by decide) (by simp) rfl, .store rfl rfl⟩ ?_
    refine .step ⟨_, hsend (by decide) (by simp) rfl, .getRunner (modelAt "b") {} none⟩ ?_
    refine .step ⟨_, hsend (by decide) (by simp) rfl, .takePending rfl rfl⟩ ?_
    refine .step ⟨.lookup 0, hsend (by decide) (by simp) rfl, .lookupNone rfl rfl rfl (by simp)⟩ ?_
    refine .step ⟨.updateFreeSpace 4, hsend (by decide) (by simp) rfl,
      .updateFreeSpace 4 rfl Nat.zero_lt_one rfl (List.Perm.refl [0])⟩ ?_
    exact .here ⟨rfl, .inr (.inr (.inl ⟨1, [], rfl⟩)), rfl, rfl⟩
  obtain ⟨s, hs, h1, h2, h3⟩ := hrun.exists_reachable (.init ⟨512, rfl⟩)
  exact ⟨s, hs, h1, h2, h3, no_lock_cycle hs⟩

end Ollama.Sched
