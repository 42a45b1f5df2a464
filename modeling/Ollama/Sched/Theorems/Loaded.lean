import Ollama.Sched.Lemmas.Counts
import Ollama.Sched.Lemmas.Loaded
import Ollama.Sched.Theorems.Requests

/-!
# No runner is orphaned

As long as no runner is stored while an expired event of an earlier runner of its path is on its way, every open
runner is the one that is stored for its path, and an expired event removes the entry of its own runner only. The
event of a runner that went idle, after a second one from `expireRunner`, shows what happens otherwise: the first
unloads the runner, and the second takes the entry of the runner that was loaded in its place.
-/

namespace Ollama.Sched

open Lib

variable {s : Scheduler}

/-- In every run in which runners are stored only while no expired event of an earlier runner of the path is on its
way, every open runner is stored for its path, no other runner is open there, and the one that is about to be stored
is the first; and an entry goes only when its runner is unloaded. -/
theorem open_runner_stored (h : (scheduler loadsClean).Reachable s) :
    (∀ r, (s.runners r).llama = true → s.loaded.lookup (s.runners r).modelPath = some r) ∧
    (∀ r r', (s.runners r).llama = true → (s.runners r').llama = true →
      (s.runners r).modelPath = (s.runners r').modelPath → r = r') ∧
    (∀ q x r, s.pending = .loading q x → (s.runners r).llama = true → (s.runners r).modelPath ≠ x.modelPath) ∧
    ∀ a s' p r, Step s a s' → s.loaded.lookup p = some r → s.completed ≠ .unloading r →
      s'.loaded.lookup p = some r := by
  have hst : Stored s := stored (fun _ _ => id) h
  refine ⟨hst.opened, ?_, ?_, ?_⟩
  · intro r r' hr hr' hpath
    have hlook : s.loaded.lookup (s.runners r).modelPath = some r := hst.opened r hr
    have hlook' : s.loaded.lookup (s.runners r').modelPath = some r' := hst.opened r' hr'
    rw [← hpath, hlook] at hlook'
    exact Option.some.inj hlook'
  · intro q x r hp hr hpath
    have hlook : s.loaded.lookup (s.runners r).modelPath = some r := hst.opened r hr
    rw [hpath, (hst.loading q x hp).1] at hlook
    cases hlook
  · intro a s' p r hs hlook hne
    obtain hkeep | ⟨-, q, x, hp, hpath⟩ | ⟨-, r', hc, hpath⟩ := hs.shelf.keep hlook
    · exact hkeep
    · rw [hpath, (hst.loading q x hp).1] at hlook
      cases hlook
    · have heq : r = r' := hst.sole_of_unloading hc r (hpath ▸ hlook)
      exact absurd (heq ▸ hc) hne

/-- The second expired event of a runner takes the entry of the runner that was loaded after the first. -/
theorem open_runner_orphaned :
    ¬∀ s, (scheduler anyStep).Reachable s →
      ∀ r, (s.runners r).llama = true → s.loaded.lookup (s.runners r).modelPath = some r := by
  intro h
  have hrun : (scheduler anyStep).Leads
      (fun s => (s.runners 1).llama = true ∧ s.loaded.lookup (s.runners 1).modelPath = none) { maxQueue := 512 } := by
    -- a runner is loaded for a request that does not want it to stay
    refine .step ⟨_, trivial, .getRunner (modelAt "a") {} (some 0)⟩ ?_
    refine .step ⟨_, trivial, .takePending rfl rfl⟩ ?_
    refine .step ⟨.lookup 0, trivial, .lookupNone rfl rfl rfl (by simp)⟩ ?_
    refine .step ⟨_, trivial, .load 4 1 0 (.inl ⟨_, rfl⟩)⟩ ?_
    refine .step ⟨_, trivial, .store rfl rfl⟩ ?_
    refine .step ⟨.running 0, trivial, .running rfl⟩ ?_
    refine .step ⟨.handLoaded 0, trivial, .handLoaded rfl⟩ ?_
    refine .step ⟨.cancel 0, trivial, .cancel Nat.zero_lt_one⟩ ?_
    refine .step ⟨.sendFinished 0, trivial, .sendFinished rfl rfl (.inl (by decide))⟩ ?_
    refine .step ⟨_, trivial, .takeFinished rfl rfl⟩ ?_
    refine .step ⟨_, trivial, .lookupFinished rfl rfl rfl⟩ ?_
    refine .step ⟨_, trivial, .finish rfl rfl⟩ ?_
    refine .step ⟨_, trivial, .sendIdle rfl (.inl (by decide))⟩ ?_
    -- it is told to expire once more before the event is handled
    refine .step ⟨.expireRunner (ascii "a"), trivial, .expireRunner rfl rfl rfl⟩ ?_
    refine .step ⟨_, trivial, .expireIdle rfl rfl rfl⟩ ?_
    refine .step ⟨_, trivial, .sendExpire rfl (.inl (by decide))⟩ ?_
    refine .step ⟨_, trivial, .takeExpired rfl rfl⟩ ?_
    refine .step ⟨_, trivial, .checkIdle rfl rfl rfl⟩ ?_
    refine .step ⟨_, trivial, .unload rfl rfl⟩ ?_
    refine .step ⟨_, trivial, .sendUnloaded rfl (.inl (by decide))⟩ ?_
    -- another runner is loaded for the model, and the second event deletes its entry
    refine .step ⟨_, trivial, .getRunner (modelAt "a") {} (some 0)⟩ ?_
    refine .step ⟨_, trivial, .takePending rfl rfl⟩ ?_
    refine .step ⟨.lookup 0, trivial, .lookupNone rfl rfl rfl (by simp)⟩ ?_
    refine .step ⟨_, trivial, .load 4 1 0 (.inl ⟨_, rfl⟩)⟩ ?_
    refine .step ⟨_, trivial, .store rfl rfl⟩ ?_
    refine .step ⟨_, trivial, .takeExpired rfl rfl⟩ ?_
    refine .step ⟨_, trivial, .checkIdle rfl rfl rfl⟩ ?_
    refine .step ⟨_, trivial, .unload rfl rfl⟩ ?_
    exact .here ⟨rfl, rfl⟩
  obtain ⟨s, hs, hopen, hnone⟩ := hrun.exists_reachable (.init ⟨512, rfl⟩)
  have hstored := h s hs 1 hopen
  rw [hnone] at hstored
  cases hstored

/-- A step other than the storing of a runner is clean. -/
theorem loadsClean_of_ne {a : Action} (h : a ≠ .store) : loadsClean s a := fun ha => absurd ha h

/-- The first runner that is loaded is stored. -/
theorem open_runner_stored_load : ∃ s, (scheduler loadsClean).Reachable s ∧ (s.runners 0).llama = true ∧
    s.loaded.lookup (s.runners 0).modelPath = some 0 := by
  have hrun : (scheduler loadsClean).Leads (fun s => (s.runners 0).llama = true) { maxQueue := 512 } := by
    refine .step ⟨_, loadsClean_of_ne (by simp), .getRunner (modelAt "a") {} none⟩ ?_
    refine .step ⟨_, loadsClean_of_ne (by simp), .takePending rfl rfl⟩ ?_
    refine .step ⟨.lookup 0, loadsClean_of_ne (by simp), .lookupNone rfl rfl rfl (by simp)⟩ ?_
    refine .step ⟨_, loadsClean_of_ne (by simp), .load 4 1 0 (.inl ⟨_, rfl⟩)⟩ ?_
    refine .step ⟨_, ?_, .store rfl rfl⟩ ?_
    · intro _ q x _ r _ hout
      rcases hout with hc | hc | hc | hc | hc <;> cases hc
    · exact .here rfl
  obtain ⟨s, hs, hopen⟩ := hrun.exists_reachable (.init ⟨512, rfl⟩)
  exact ⟨s, hs, hopen, (open_runner_stored hs).1 0 hopen⟩

end Ollama.Sched

/-!
## Reference counts

As long as runners are stored as in `open_runner_stored`, and none is taken to be unloaded between the section that
found it usable and the section that counts the request, a runner counts exactly the requests that hold it, and a
request that was sent a runner has it open until its context is done. `needsReload` and `useLoadedRunner` are separate
sections: an expired event that is handled between them closes the runner that is then sent to the client.
-/

namespace Ollama.Sched

open Lib

variable {s : Scheduler}

/-- Runners are stored only while no expired event of their path is on its way, and are taken to be unloaded only
while they are not about to be granted. -/
def countsClean (s : Scheduler) (a : Action) : Prop := loadsClean s a ∧ grantsClean s a

/-- In every run that is clean in this sense, a runner counts the requests that hold it, the count is not zero when it
is lowered, and a runner that was sent to a request is open until the context of the request is done. -/
theorem refCount_counts_holders (h : (scheduler countsClean).Reachable s) :
    (∀ r, (s.runners r).refCount = (s.holders r).card) ∧
    (∀ q r, s.completed = .finishing q r ∨ (s.runners r).loader = .starting q → 0 < (s.runners r).refCount) ∧
    ∀ q r, .runner r ∈ (s.requests q).answers → (s.requests q).done = false → (s.runners r).llama = true := by
  have hc : Counted s := counted (fun _ _ => id) h
  have hst : Stored s := stored (fun _ _ hok => hok.1) h
  have hok := ledger_ok h
  refine ⟨hc.count, ?_, ?_⟩
  · intro q r hq
    have hmem : q ∈ s.holders r := by
      rw [mem_holders]
      rcases hq with hq | hq
      · obtain ⟨_, _, hfin, _⟩ := hc.stored_of_finished hst hok (q := q) (by rw [hq]; rfl)
        have hgranted := hc.finishing q r hq
        exact ⟨hok.granted q (by simp [LlmRequest.life, hgranted]), hgranted, hfin⟩
      · obtain ⟨hlt, _, hgranted, _, hfin, _⟩ := hok.starting q r hq
        exact ⟨hlt, hgranted, hfin⟩
    rw [hc.count]
    exact Finset.card_pos.2 ⟨q, hmem⟩
  · intro q r hans hdone
    have hgranted : (s.requests q).granted = some r := hok.answered q r hans
    have hfin : (s.requests q).finished = false := by
      by_contra hfin
      rw [Bool.not_eq_false] at hfin
      have hd : (s.requests q).done = true := (hok.finished q hfin).2
      rw [hdone] at hd
      cases hd
    exact (hc.opened q r hgranted hfin).1

/-- The runner that was found usable is unloaded before the request is counted, and is sent to the client closed. -/
theorem closed_runner_granted :
    ¬∀ s, (scheduler anyStep).Reachable s →
      ∀ q r, .runner r ∈ (s.requests q).answers → (s.requests q).done = false → (s.runners r).llama = true := by
  intro h
  have hrun : (scheduler anyStep).Leads
      (fun s => (s.requests 1).answers = [.runner 0] ∧ (s.requests 1).done = false ∧
        (s.runners 0).llama = false) { maxQueue := 512 } := by
    -- a runner is loaded, its request finishes, and its timer fires
    refine .step ⟨_, trivial, .getRunner (modelAt "a") {} (some 5)⟩ ?_
    refine .step ⟨_, trivial, .takePending rfl rfl⟩ ?_
    refine .step ⟨.lookup 0, trivial, .lookupNone rfl rfl rfl (by simp)⟩ ?_
    refine .step ⟨_, trivial, .load 4 1 0 (.inl ⟨_, rfl⟩)⟩ ?_
    refine .step ⟨_, trivial, .store rfl rfl⟩ ?_
    refine .step ⟨.running 0, trivial, .running rfl⟩ ?_
    refine .step ⟨.handLoaded 0, trivial, .handLoaded rfl⟩ ?_
    refine .step ⟨.cancel 0, trivial, .cancel Nat.zero_lt_one⟩ ?_
    refine .step ⟨.sendFinished 0, trivial, .sendFinished rfl rfl (.inl (by decide))⟩ ?_
    refine .step ⟨_, trivial, .takeFinished rfl rfl⟩ ?_
    refine .step ⟨_, trivial, .lookupFinished rfl rfl rfl⟩ ?_
    refine .step ⟨_, trivial, .finish rfl rfl⟩ ?_
    refine .step ⟨.fire 0, trivial, .fire rfl⟩ ?_
    refine .step ⟨.callback 0, trivial, .callback Nat.zero_lt_one rfl⟩ ?_
    refine .step ⟨.sendCallback 0, trivial, .sendCallback rfl (.inl (by decide))⟩ ?_
    -- the next request finds the runner usable, and the expired event is handled before the request is counted
    refine .step ⟨_, trivial, .getRunner (modelAt "a") {} (some 5)⟩ ?_
    refine .step ⟨_, trivial, .takePending rfl rfl⟩ ?_
    refine .step ⟨.lookup 0, trivial, .lookupFound 0 rfl rfl rfl⟩ ?_
    refine .step ⟨_, trivial, .needsReload false rfl rfl⟩ ?_
    refine .step ⟨_, trivial, .takeExpired rfl rfl⟩ ?_
    refine .step ⟨_, trivial, .checkIdle rfl rfl rfl⟩ ?_
    refine .step ⟨_, trivial, .unload rfl rfl⟩ ?_
    refine .step ⟨_, trivial, .useLoadedRunner rfl rfl⟩ ?_
    refine .step ⟨_, trivial, .handOver rfl⟩ ?_
    exact .here ⟨rfl, rfl, rfl⟩
  obtain ⟨s, hs, hans, hdone, hclosed⟩ := hrun.exists_reachable (.init ⟨512, rfl⟩)
  have hopen := h s hs 1 0 (by rw [hans]; exact List.mem_singleton.2 rfl) hdone
  rw [hclosed] at hopen
  cases hopen

/-- A step other than the storing of a runner and the check of an expired one is clean. -/
theorem countsClean_of_ne {a : Action} (hstore : a ≠ .store) (hcheck : a ≠ .checkExpired) : countsClean s a :=
  ⟨loadsClean_of_ne hstore, fun ha => absurd ha hcheck⟩

/-- The runner of the first request counts it. -/
theorem refCount_counts_holders_first :
    ∃ s, (scheduler countsClean).Reachable s ∧ (s.requests 0).answers = [.runner 0] ∧
    (s.runners 0).refCount = (s.holders 0).card ∧ (s.runners 0).refCount = 1 ∧ (s.runners 0).llama = true := by
  have hrun : (scheduler countsClean).Leads
      (fun s => (s.requests 0).answers = [.runner 0] ∧ (s.requests 0).done = false ∧
        (s.runners 0).refCount = 1) { maxQueue := 512 } := by
    refine .step ⟨_, countsClean_of_ne (by simp) (by simp), .getRunner (modelAt "a") {} (some 5)⟩ ?_
    refine .step ⟨_, countsClean_of_ne (by simp) (by simp), .takePending rfl rfl⟩ ?_
    refine .step ⟨.lookup 0, countsClean_of_ne (by simp) (by simp), .lookupNone rfl rfl rfl (by simp)⟩ ?_
    refine .step ⟨_, countsClean_of_ne (by simp) (by simp), .load 4 1 0 (.inl ⟨_, rfl⟩)⟩ ?_
    refine .step ⟨.store, ⟨?_, fun ha => nomatch ha⟩, .store rfl rfl⟩ ?_
    · intro _ q x _ r _ hout
      rcases hout with hc | hc | hc | hc | hc <;> cases hc
    refine .step ⟨.running 0, countsClean_of_ne (by simp) (by simp), .running rfl⟩ ?_
    refine .step ⟨.handLoaded 0, countsClean_of_ne (by simp) (by simp), .handLoaded rfl⟩ ?_
    exact .here ⟨rfl, rfl, rfl⟩
  obtain ⟨s, hs, hans, hdone, hone⟩ := hrun.exists_reachable (.init ⟨512, rfl⟩)
  obtain ⟨hcount, _, hopen⟩ := refCount_counts_holders hs
  exact ⟨s, hs, hans, hcount 0, hone, hopen 0 0 (by rw [hans]; exact List.mem_singleton.2 rfl) hdone⟩

end Ollama.Sched
