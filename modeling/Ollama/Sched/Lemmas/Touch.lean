import Ollama.Sched.Lemmas.Moves

/-!
# What a step can do to runners

`Touch` says once what a step can do to a runner, and `Shelf` what it can do to the map of the loaded ones. What is
true of the runners in every run follows by cases on these, of which there are fewer than steps.
-/

namespace Ollama.Sched

open Lib

/-- An expired event of the runner is on its way: in the channel, to be sent again, in the hands of
`processCompleted`, or still to be sent by a timer. -/
def Scheduler.outstanding (s : Scheduler) (r : Nat) : Prop :=
  r ∈ s.expiredCh ∨ r ∈ s.retries ∨ s.completed = .expired r ∨ s.completed = .unloading r ∨ 0 < (s.runners r).callbacks

/-- What a step can do to a runner. -/
inductive Touch (s : Scheduler) (r : Nat) : Action → RunnerRef → Prop where
  | same {a : Action} : Touch s r a (s.runners r)
  | store {q : Nat} {x : RunnerRef} : s.pending = .loading q x → r = s.nextRunner →
      Touch s r .store { x with refMu := some .loader, loader := .starting q }
  | grant {q : Nat} : s.pending = .using q r → s.free r →
      Touch s r .useLoadedRunner ((s.runners r).useLoadedRunner (s.requests q))
  | unlock {a : Action} : Touch s r a { s.runners r with refMu := none }
  /-- By `processPending` or by `expireRunner`. -/
  | expireNow {a : Action} (m : Option Holder) : Touch s r a { (s.runners r).expireNow with refMu := m }
  | finish {q : Nat} : s.completed = .finishing q r → s.free r → Touch s r .finish (s.runners r).finish
  | check : s.completed = .expired r → (s.runners r).refCount = 0 →
      Touch s r .checkExpired { s.runners r with refMu := some .completed }
  | unload : s.completed = .unloading r → Touch s r .unload { (s.runners r).unload with refMu := none }
  | running {q : Nat} : (s.runners r).loader = .starting q →
      Touch s r (.running r) { s.runners r with loading := false, loader := .handing q }
  | failed {q : Nat} : (s.runners r).loader = .starting q →
      Touch s r (.failed r) { s.runners r with refCount := decrement (s.runners r).refCount, loader := .failing }
  /-- The goroutine that loads the runner ends. -/
  | gone {a : Action} : Touch s r a { s.runners r with refMu := none, loader := .gone }
  | fire : (s.runners r).expireTimer = some true →
      Touch s r (.fire r) { s.runners r with
      expireTimer := some false, callbacks := (s.runners r).callbacks + 1, kept := false }
  | callback : Touch s r (.callback r) { s.runners r with expireTimer := none, refMu := some .callback }
  | sendCallback : (s.runners r).refMu = some .callback →
      Touch s r (.sendCallback r) { s.runners r with refMu := none, callbacks := (s.runners r).callbacks - 1 }

/-- What a step can do to the loaded runners. -/
inductive Shelf (s : Scheduler) : Action → List (Bytes × Nat) → Prop where
  | same {a : Action} : Shelf s a s.loaded
  | store {q : Nat} {x : RunnerRef} : s.pending = .loading q x →
      Shelf s .store (Assoc.set s.loaded x.modelPath s.nextRunner)
  | unload {r : Nat} : s.completed = .unloading r →
      Shelf s .unload (s.loaded.filter (fun e => e.1 ≠ (s.runners r).modelPath))

variable {s s' : Scheduler} {a : Action} {q r r' : Nat} {x : RunnerRef} {p : Bytes} {m : List (Bytes × Nat)}

/-! ## A runner -/

/-- A step changes one runner at most. -/
theorem Touch.of_setRunner (hr : s'.runners = (s.setRunner r' x).runners) (hx : Touch s r' a x) (r : Nat) :
    Touch s r a (s'.runners r) := by
  rw [hr, Scheduler.setRunner_runners]
  split
  · rename_i heq
    rw [heq]
    exact hx
  · exact .same

theorem Step.touch (hs : Step s a s') : ∀ r, Touch s r a (s'.runners r) := by
  cases hs with
  | store hp _ => exact .of_setRunner rfl (.store hp rfl)
  | useLoadedRunner hp hfree => exact .of_setRunner rfl (.grant hp hfree)
  | handOver _ | evict _ _ | sendIdle _ _ | sendExpire _ _ => exact .of_setRunner rfl .unlock
  | expire _ _ => exact .of_setRunner rfl (.expireNow _)
  | expireIdle _ _ _ => exact .of_setRunner rfl (.expireNow _)
  | @expireBusy r _ _ _ => exact .of_setRunner rfl (.expireNow (s.runners r).refMu)
  | finish hc hfree => exact .of_setRunner rfl (.finish hc hfree)
  | checkIdle hc _ hzero => exact .of_setRunner rfl (.check hc hzero)
  | unload hc _ => exact .of_setRunner rfl (.unload hc)
  | running hl => exact .of_setRunner rfl (.running hl)
  | failed hl => exact .of_setRunner rfl (.failed hl)
  | handLoaded _ | sendFailed _ _ => exact .of_setRunner rfl .gone
  | fire ht => exact .of_setRunner rfl (.fire ht)
  | callback _ _ => exact .of_setRunner rfl .callback
  | sendCallback hm _ => exact .of_setRunner rfl (.sendCallback hm)
  | _ => exact fun _ => .same

namespace Touch

/-- A runner keeps its path. -/
theorem modelPath (ht : Touch s r a x) (hne : a = .store → r ≠ s.nextRunner) :
    x.modelPath = (s.runners r).modelPath := by
  cases ht with
  | store _ hr => exact absurd hr (hne rfl)
  | finish _ _ => exact RunnerRef.finish_same RunnerRef.modelPath (fun _ _ _ _ _ => rfl) _
  | _ => rfl

/-- A runner stays open until it is unloaded. -/
theorem llama (ht : Touch s r a x) (hne : a = .store → r ≠ s.nextRunner) :
    x.llama = (s.runners r).llama ∨ (a = .unload ∧ s.completed = .unloading r ∧ x.llama = false) := by
  cases ht with
  | store _ hr => exact absurd hr (hne rfl)
  | finish _ _ => exact .inl (RunnerRef.finish_same RunnerRef.llama (fun _ _ _ _ _ => rfl) _)
  | unload hc => exact .inr ⟨rfl, hc, rfl⟩
  | _ => exact .inl rfl

/-- So it keeps its options, its model and how many requests it serves at a time. -/
theorem options (ht : Touch s r a x) (hne : a = .store → r ≠ s.nextRunner) :
    (x.options = (s.runners r).options ∧ x.model = (s.runners r).model ∧ x.numParallel = (s.runners r).numParallel) ∨
      (a = .unload ∧ s.completed = .unloading r ∧ x.options = none) := by
  cases ht with
  | store _ hr => exact absurd hr (hne rfl)
  | finish _ _ =>
    exact .inl ⟨RunnerRef.finish_same RunnerRef.options (fun _ _ _ _ _ => rfl) _,
      RunnerRef.finish_same RunnerRef.model (fun _ _ _ _ _ => rfl) _,
      RunnerRef.finish_same RunnerRef.numParallel (fun _ _ _ _ _ => rfl) _⟩
  | unload hc => exact .inr ⟨rfl, hc, rfl⟩
  | _ => exact .inl ⟨rfl, rfl, rfl⟩

/-- The requests of a runner are counted as it is granted, and as they end. -/
theorem refCount (ht : Touch s r a x) (hne : a = .store → r ≠ s.nextRunner) : x.refCount = (s.runners r).refCount ∨
    (a = .useLoadedRunner ∧ s.free r) ∨ (a = .finish ∧ ∃ q, s.completed = .finishing q r) ∨
      (a = .failed r ∧ (s.runners r).loader ≠ .gone) := by
  cases ht with
  | store _ hr => exact absurd hr (hne rfl)
  | grant _ hfree => exact .inr (.inl ⟨rfl, hfree⟩)
  | finish hc _ => exact .inr (.inr (.inl ⟨rfl, _, hc⟩))
  | failed hl => exact .inr (.inr (.inr ⟨rfl, fun heq => by rw [hl] at heq; cases heq⟩))
  | _ => exact .inl rfl

end Touch

/-! ## The loaded runners -/

theorem Step.shelf (hs : Step s a s') : Shelf s a s'.loaded := by
  cases hs with
  | store hp _ => exact .store hp
  | unload hc _ => exact .unload hc
  | _ => exact .same

namespace Shelf

/-- A path leads to the runner it led to, or to the one that is stored for it. -/
theorem lookup (hm : Shelf s a m) (hlook : m.lookup p = some r) : s.loaded.lookup p = some r ∨
    (a = .store ∧ r = s.nextRunner ∧ ∃ q x, s.pending = .loading q x ∧ p = x.modelPath) := by
  cases hm with
  | same => exact .inl hlook
  | @store q x hp =>
    rw [Assoc.lookup_set] at hlook
    split at hlook
    · rename_i heq
      exact .inr ⟨rfl, (Option.some.inj hlook).symm, q, x, hp, heq⟩
    · exact .inl hlook
  | unload _ =>
    rw [Assoc.lookup_filter_ne] at hlook
    split at hlook
    · cases hlook
    · exact .inl hlook

/-- A path that leads nowhere does so until a runner is stored. -/
theorem lookup_none (hm : Shelf s a m) (hne : a ≠ .store) (hnone : s.loaded.lookup p = none) : m.lookup p = none := by
  rw [Option.eq_none_iff_forall_ne_some]
  intro r hlook
  obtain hold | ⟨ha, -⟩ := hm.lookup hlook
  · rw [hnone] at hold
    cases hold
  · exact hne ha

/-- A runner that is stored stays until another one is stored for its path or one of its path is unloaded. -/
theorem keep (hm : Shelf s a m) (hlook : s.loaded.lookup p = some r) : m.lookup p = some r ∨
    (a = .store ∧ ∃ q x, s.pending = .loading q x ∧ p = x.modelPath) ∨
      (a = .unload ∧ ∃ r', s.completed = .unloading r' ∧ p = (s.runners r').modelPath) := by
  cases hm with
  | same => exact .inl hlook
  | @store q x hp =>
    rw [Assoc.lookup_set]
    split
    · rename_i heq
      exact .inr (.inl ⟨rfl, q, x, hp, heq⟩)
    · exact .inl hlook
  | @unload r' hc =>
    rw [Assoc.lookup_filter_ne]
    split
    · rename_i heq
      exact .inr (.inr ⟨rfl, r', hc, heq⟩)
    · exact .inl hlook

end Shelf

/-- A runner is stored with its goroutine, which has its lock. -/
theorem step_store (hs : Step s .store s') (hp : s.pending = .loading q x) : s'.pending = .idle ∧
    s'.runners s.nextRunner = { x with refMu := some .loader, loader := .starting q } ∧
      s'.loaded.lookup x.modelPath = some s.nextRunner := by
  cases hs with
  | store hp' _ =>
    obtain ⟨rfl, rfl⟩ := Pending.loading.inj (hp'.symm.trans hp)
    exact ⟨rfl, if_pos rfl, by rw [Assoc.lookup_set, if_pos rfl]⟩

/-- The path of a runner that is unloaded leads nowhere. -/
theorem step_unload (hs : Step s .unload s') (hc : s.completed = .unloading r) : s'.completed = .unloaded ∧
    s'.loaded.lookup (s.runners r).modelPath = none := by
  cases hs with
  | unload hc' _ =>
    cases hc'.symm.trans hc
    exact ⟨rfl, by rw [Assoc.lookup_filter_ne, if_pos rfl]⟩

/-- Whoever changes the loaded runners found their lock free. -/
theorem step_loadedMu (hs : Step s a s') (ha : a = .store ∨ a = .unload) : s.loadedMu = none := by
  cases hs with
  | store _ hfree | unload _ hfree => exact hfree
  | _ => exact absurd ha (by simp)

/-- What has no runner still has none while a request is in hand. -/
theorem step_lookup_none (hs : Step s a s') (hq : s'.pending.request = some q) (hlt : q < s.nextRequest)
    (hnone : s.loaded.lookup (s.path q) = none) : s'.loaded.lookup (s'.path q) = none := by
  rw [step_path hs hlt]
  refine hs.shelf.lookup_none ?_ hnone
  rintro rfl
  cases hs with
  | store _ _ => cases hq

/-! ## Expired events -/

/-- Somebody sends the expired event of a runner he has in hand. -/
def Step.sends (s : Scheduler) (a : Action) (r : Nat) : Prop :=
  (a = .evict ∧ ∃ q, s.pending = .evicting q r) ∨ (a = .sendIdle ∧ s.completed = .idling r) ∨
    (a = .sendFailed r ∧ (s.runners r).loader = .failing) ∨ (a = .sendExpire ∧ s.expirer = .sending r)

/-- An event is in the channel that was there before, or that is sent. -/
theorem step_expiredCh (hs : Step s a s') (hr : r ∈ s'.expiredCh) : r ∈ s.expiredCh ∨ r ∈ s.retries ∨ Step.sends s a r ∨
    (s.runners r).refMu = some .callback := by
  have hsent : ∀ {r₀} {c : Prop}, (r = r₀ → c) → r ∈ s.expiredCh ++ [r₀] → r ∈ s.expiredCh ∨ c := by
    intro r₀ c hc hmem
    obtain hold | hnew := List.mem_append.1 hmem
    · exact .inl hold
    · exact .inr (hc (List.mem_singleton.1 hnew))
  cases hs with
  | takeExpired _ hch => exact .inl (hch ▸ List.mem_cons_of_mem _ hr)
  | evict hp _ => exact hsent (fun heq => .inr (.inl (.inl ⟨rfl, _, heq ▸ hp⟩))) hr
  | sendIdle hc _ => exact hsent (fun heq => .inr (.inl (.inr (.inl ⟨rfl, heq ▸ hc⟩)))) hr
  | sendFailed hl _ => exact hsent (fun heq => .inr (.inl (.inr (.inr (.inl ⟨by rw [heq], heq ▸ hl⟩))))) hr
  | sendExpire he _ => exact hsent (fun heq => .inr (.inl (.inr (.inr (.inr ⟨rfl, heq ▸ he⟩))))) hr
  | sendCallback hm _ => exact hsent (fun heq => .inr (.inr (heq ▸ hm))) hr
  | retry hmem _ => exact hsent (fun heq => .inl (heq ▸ hmem)) hr
  | _ => exact .inl hr

/-- An event is sent again that found its runner busy. -/
theorem step_retries (hs : Step s a s') (hr : r ∈ s'.retries) : r ∈ s.retries ∨ s.completed = .expired r := by
  cases hs with
  | checkBusy hc _ _ =>
    obtain rfl | hold := List.mem_cons.1 hr
    · exact .inr hc
    · exact .inl hold
  | retry _ _ => exact .inl (List.mem_of_mem_erase hr)
  | _ => exact .inl hr

theorem step_expired (hs : Step s a s') (hc : s'.completed = .expired r) :
    s.completed = .expired r ∨ r ∈ s.expiredCh := by
  cases hs with
  | finish _ _ =>
    dsimp only at hc
    split at hc
    · cases hc
    · cases hc
  | takeExpired _ hch =>
    cases hc
    exact .inr (hch ▸ List.mem_cons_self)
  | _ => first | exact .inl hc | cases hc

/-- A callback is to send its event whose timer fired. -/
theorem Touch.callbacks (ht : Touch s r a x) (hpos : 0 < x.callbacks) :
    0 < (s.runners r).callbacks ∨ (a = .store ∧ r = s.nextRunner) ∨
    (a = .fire r ∧ (s.runners r).expireTimer ≠ none) := by
  cases ht with
  | store _ hr => exact .inr (.inl ⟨rfl, hr⟩)
  | finish _ _ => exact .inl (RunnerRef.finish_same RunnerRef.callbacks (fun _ _ _ _ _ => rfl) (s.runners r) ▸ hpos)
  | fire htimer => exact .inr (.inr ⟨rfl, fun hnone => by rw [htimer] at hnone; cases hnone⟩)
  | sendCallback _ => exact .inl (Nat.lt_of_lt_of_le hpos (Nat.sub_le _ _))
  | _ => exact .inl hpos

/-- The expired event of a runner is on its way that was on its way before, or that somebody sends, or whose timer fires. -/
theorem step_outstanding (hs : Step s a s')
    (hcallback : (s.runners r).refMu = some .callback → 0 < (s.runners r).callbacks) (ho : s'.outstanding r) :
    s.outstanding r ∨ Step.sends s a r ∨ (a = .store ∧ r = s.nextRunner) ∨
      (a = .fire r ∧ (s.runners r).expireTimer ≠ none) := by
  obtain hch | hretry | hc | hc | hpos := ho
  · obtain hch | hretry | hsends | hm := step_expiredCh hs hch
    · exact .inl (.inl hch)
    · exact .inl (.inr (.inl hretry))
    · exact .inr (.inl hsends)
    · exact .inl (.inr (.inr (.inr (.inr (hcallback hm)))))
  · obtain hretry | hc := step_retries hs hretry
    · exact .inl (.inr (.inl hretry))
    · exact .inl (.inr (.inr (.inl hc)))
  · obtain hc | hch := step_expired hs hc
    · exact .inl (.inr (.inr (.inl hc)))
    · exact .inl (.inl hch)
  · obtain hc | ⟨-, hc, -⟩ := step_unloading hs hc
    · exact .inl (.inr (.inr (.inr (.inl hc))))
    · exact .inl (.inr (.inr (.inl hc)))
  · obtain hpos | hnew := (hs.touch r).callbacks hpos
    · exact .inl (.inr (.inr (.inr (.inr hpos))))
    · exact .inr (.inr hnew)

/-- A runner whose expired event somebody sends was made. -/
theorem Bounds.of_sends (h : Bounds s) (hsends : Step.sends s a r) : r < s.nextRunner := by
  obtain ⟨-, q, hp⟩ | ⟨-, hc⟩ | ⟨-, hl⟩ | ⟨-, he⟩ := hsends
  · exact h.of_pending hp List.mem_cons_self
  · exact h.of_completed hc List.mem_cons_self
  · exact h.of_loader hl (fun heq => by cases heq)
  · exact h.of_expirer he List.mem_cons_self

/-- A runner whose expired event is on its way was made. -/
theorem Bounds.of_outstanding (h : Bounds s) (ho : s.outstanding r) : r < s.nextRunner := by
  obtain hch | hretry | hc | hc | hpos := ho
  · exact h.expiredCh r hch
  · exact h.retries r hretry
  · exact h.of_completed hc List.mem_cons_self
  · exact h.of_completed hc List.mem_cons_self
  · exact h.of_touched fun hfresh => by
      rw [hfresh] at hpos
      cases hpos

end Ollama.Sched
