import Ollama.Sched.Lemmas.Fit
import Ollama.Sched.Lemmas.Reload
import Ollama.Sched.Lemmas.Requests

/-!
# No request is lost

A request that was passed to `GetRunner` is held by the scheduler and has no answer, or it has one answer and is no
longer held. The one way to lose a request is the one `TestAlreadyCanceled` tests: a request whose context is done
when it is taken from the queue is skipped, and its client, which waits for nothing but an answer, gets none.
-/

namespace Ollama.Sched

open Lib

variable {s : Scheduler} {q : Nat}

/-- In every run, a request is held without an answer, or was answered once, or was skipped after its context was
done; and the step that lets go of a request answers it or takes it from the queue with its context done. -/
theorem request_answered_once (h : (scheduler anyStep).Reachable s) (hq : q < s.nextRequest) :
    ((s.held q ∧ (s.requests q).answers = []) ∨ (¬s.held q ∧ (s.requests q).answers.length = 1) ∨
      (¬s.held q ∧ (s.requests q).answers = [] ∧ (s.requests q).done = true)) ∧
    ∀ a s', Step s a s' → s.held q → s'.held q ∨ (s'.requests q).answers.length = 1 ∨
      (a = .takePending ∧ s.pendingReqCh.head? = some q ∧ (s.requests q).done = true) := by
  have hok := ledger_ok h
  constructor
  · by_cases hheld : s.held q
    · exact .inl ⟨hheld, (((held_iff q).1 hheld).unanswered hok).2⟩
    · rcases hok.accounted q hq with hr | hr | hr
      · exact absurd ((held_iff q).2 hr) hheld
      · exact .inr (.inl ⟨hheld, hr⟩)
      · exact .inr (.inr ⟨hheld, hr⟩)
  · intro a s' hs hheld
    rw [held_iff] at hheld ⊢
    rcases hs.written (bounds h) with ⟨d, hline, hgiven⟩ | heq
    · by_cases hd : d = some q
      · subst hd
        obtain ⟨ha, hhead⟩ := hgiven q rfl
        exact .inr (.inr ⟨ha, hhead, hline.done_of_given_up⟩)
      · rcases hline.release hok hheld hd with hr | hr
        · exact .inl hr
        · exact .inr (.inl hr)
    · exact .inl (by rw [heq]; exact hheld)

/-- A model that is at a path. -/
def modelAt (p : String) : Model := { modelPath := ascii p }

/-- A request whose context is done before it is taken from the queue gets no answer. -/
theorem request_skipped_unanswered :
    ¬∀ s, (scheduler anyStep).Reachable s → ∀ q < s.nextRequest, s.held q ∨ (s.requests q).answers.length = 1 := by
  intro h
  have hrun : (scheduler anyStep).Leads (fun s => s.nextRequest = 1 ∧ ¬s.held 0 ∧
    (s.requests 0).answers = []) { maxQueue := 512 } := by
    refine .step ⟨_, trivial, .getRunner (modelAt "a") {} none⟩ ?_
    refine .step ⟨.cancel 0, trivial, .cancel Nat.zero_lt_one⟩ ?_
    refine .step ⟨_, trivial, .takePending rfl rfl⟩ ?_
    refine .here ⟨rfl, ?_, rfl⟩
    rintro (hc | hc | hc | ⟨r, hc | hc⟩) <;> cases hc
  obtain ⟨s, hs, hn, hheld, hans⟩ := hrun.exists_reachable (.init ⟨512, rfl⟩)
  rcases h s hs 0 (by omega) with hc | hc
  · exact hheld hc
  · rw [hans] at hc
    cases hc

/-- The request of a load that is done was answered once. -/
theorem request_answered_once_load : ∃ s, (scheduler anyStep).Reachable s ∧ (s.requests 0).answers = [.runner 0] ∧
    ((s.held 0 ∧ (s.requests 0).answers = []) ∨ (¬s.held 0 ∧ (s.requests 0).answers.length = 1) ∨
      (¬s.held 0 ∧ (s.requests 0).answers = [] ∧ (s.requests 0).done = true)) := by
  have hrun : (scheduler anyStep).Leads (fun s => s.nextRequest = 1 ∧ (s.requests 0).answers = [.runner 0])
    { maxQueue := 512 } := by
    refine .step ⟨_, trivial, .getRunner (modelAt "a") {} none⟩ ?_
    refine .step ⟨_, trivial, .takePending rfl rfl⟩ ?_
    refine .step ⟨.lookup 0, trivial, .lookupNone rfl rfl rfl (by simp)⟩ ?_
    refine .step ⟨_, trivial, .load 4 1 0 (.inl ⟨_, rfl⟩)⟩ ?_
    refine .step ⟨_, trivial, .store rfl rfl⟩ ?_
    refine .step ⟨.running 0, trivial, .running rfl⟩ ?_
    refine .step ⟨.handLoaded 0, trivial, .handLoaded rfl⟩ ?_
    exact .here ⟨rfl, rfl⟩
  obtain ⟨s, hs, hn, hans⟩ := hrun.exists_reachable (.init ⟨512, rfl⟩)
  exact ⟨s, hs, hans, (request_answered_once hs (by omega)).1⟩

end Ollama.Sched

/-!
## A model is loaded with the context of its parallel setting

The fit search leaves a context in the options of a request even where it finds nothing, and a request may go through
any number of passes and of queues before its model is loaded. Still, every pass that loads writes the context anew,
or has written that of the setting it loads with (`load_context_consistent`).
-/

namespace Ollama.Sched

open Lib

variable {c : Settings} {f f' : Fitting} {a : Action} {q : Nat}

/-- **Whenever `loadFn` is called, in any run, its parallel setting is at least 1 and the context of the request is
its first context times that setting.** -/
theorem load_context_consistent (h : (fitting c anyFit).Reachable f) (hs : FitStep c f a f')
    (hcall : CallsLoadFn f.s a q) :
    1 ≤ f'.numParallel ∧ (∀ numCtx numParallel keepAlive, a = .load numCtx numParallel keepAlive →
      numParallel = f'.numParallel) ∧
      (f'.s.requests q).opts.numCtx = times (f'.s.requests q).origNumCtx f'.numParallel ∧
      (f'.s.requests q).origNumCtx = (f'.given q).numCtx := by
  have hgiven := given h
  have hhand := hand_of_calls hcall
  have hlt := request_lt (fitting_reachable h) q hhand
  have horig : (f.s.requests q).origNumCtx = (f.given q).numCtx := hgiven.hand q hhand
  obtain ⟨hmin, hmax⟩ := hgiven.bounds q hlt
  obtain ⟨n, hn, hpos, heq, hload⟩ := calls_numCtx hs hcall (by omega) (by omega)
  have horig' : (f'.s.requests q).origNumCtx = (f.s.requests q).origNumCtx := by
    rcases step_origNumCtx hs.step hlt with hsame | ⟨rfl, _⟩
    · exact hsame
    · nomatch hn
  refine ⟨hpos, hload, ?_, ?_⟩
  · rw [step_hand_numCtx hs.step hhand hn, horig', heq]
  · rw [horig', horig, hs.given hlt]

/-- The default settings: no parallel setting. -/
def defaults : Settings := ⟨0, false, fun _ => false, id⟩

/-- The first model on a CPU is loaded with a setting of 4. -/
theorem load_context_consistent_cpu :
    ∃ f f' a, (fitting defaults anyFit).Reachable f ∧ FitStep defaults f a f' ∧ CallsLoadFn f.s a 0 ∧
    1 ≤ f'.numParallel ∧ (f'.s.requests 0).opts.numCtx = times (f'.s.requests 0).origNumCtx f'.numParallel := by
  have hrun : (fitting defaults anyFit).Leads (fun f => f.s.pending = .placing 0 0) { s := { maxQueue := 512 } } := by
    refine .step ⟨_, trivial, .getRunner (by decide) (.getRunner (modelAt "a") { numCtx := 2048 } none)⟩ ?_
    refine .step ⟨_, trivial, .takePending rfl (.takePending rfl rfl)⟩ ?_
    refine .step ⟨.lookup 0, trivial, .plain rfl (.lookupNone rfl rfl rfl (by simp))⟩ ?_
    exact .here rfl
  obtain ⟨f, hf, hp⟩ := hrun.exists_reachable (.init ⟨512, rfl⟩)
  let o : Outside := ⟨fun _ _ => (false, 0), true, false⟩
  let d := place defaults o [⟨[], ascii "cpu", [], 0⟩] 0 (f.s.requests 0).origNumCtx
    (f.s.requests 0).opts.numCtx f.numParallel
  obtain ⟨n, p, hd⟩ : ∃ n p, d = .loadFn n p := ⟨_, _, rfl⟩
  have hcall : CallsLoadFn f.s (.load n p 0) 0 := ⟨.inl ⟨0, hp⟩, .inl ⟨n, p, 0, rfl⟩⟩
  have hfollows : d.Follows (.load n p 0) := by
    rw [hd]
    exact .load n p 0
  have hs : FitStep defaults f (.load n p 0) _ :=
    .place o [⟨[], ascii "cpu", [], 0⟩] [] hp (by simp) (List.nil_sublist _) hfollows (.load n p 0 (.inl ⟨0, hp⟩))
  obtain ⟨hpos, -, heq, -⟩ := load_context_consistent hf hs hcall
  exact ⟨f, _, _, hf, hs, hcall, hpos, heq⟩

end Ollama.Sched

/-!
## When a runner is reused

`needsReload` divides the context of a runner by its parallel setting, and compares it with the context of the request
as it stands. A request that is delayed stands with the context of the last setting that was tried, so that it does
not match a runner that was loaded with its own options meanwhile (`reload_needless`). As long as requests are delayed
with the context they were made with, a runner is reused (`reuse_no_reload`).
-/

namespace Ollama.Sched

open Lib

variable {c : Settings} {f : Fitting} {q r : Nat}

namespace ReloadAux

/-- A runner that was loaded with the options of a request has no other ones. -/
theorem not_needsReload {req : LlmRequest} {x : RunnerRef} {model : Model} {existing : RunnerOptions}
    (hmodel : x.model = some model) (hparallel : 1 ≤ x.numParallel)
    (hoptions : x.options = some { existing with numCtx := existing.numCtx * x.numParallel })
    (hadapters : model.adapterPaths = req.model.adapterPaths)
    (hprojectors : model.projectorPaths = req.model.projectorPaths) (hmatches : req.opts.Matches existing) :
    x.needsReload req false = false := by
  have hctx : (existing.numCtx * x.numParallel).tdiv x.numParallel = existing.numCtx := Int.mul_tdiv_cancel _ (by omega)
  have hopts : { existing with
      numGPU := if req.opts.numGPU < 0 then -1 else existing.numGPU
      numCtx := (existing.numCtx * x.numParallel).tdiv x.numParallel } =
      if req.opts.numGPU < 0 then { req.opts with numGPU := -1 } else req.opts := by
    rw [hctx]
    unfold RunnerOptions.Matches at hmatches
    split at hmatches
    · rename_i hopen
      rw [if_pos hopen, if_pos hopen]
      exact (congrArg (fun o : RunnerOptions => { o with numGPU := -1 }) hmatches).symm
    · rename_i hclosed
      rw [if_neg hclosed, if_neg hclosed, hmatches]
  rw [RunnerRef.needsReload, hoptions, hmodel]
  simp only [hopts, hadapters, hprojectors]
  simp

end ReloadAux

open ReloadAux in
/-- **In every run in which requests are delayed with the context they were made with, a runner that is loaded is not
reloaded for a request that was made with the adapters, the projectors and the options of the one it was loaded for.**
-/
theorem reuse_no_reload (h : (fitting c contextKept).Reachable f) (hp : f.s.pending = .reuse q r)
    (hloaded : f.s.loaded.lookup (f.s.path q) = some r) (halike : f.Alike q (f.origin r)) :
    (f.s.runners r).needsReload (f.s.requests q) false = false := by
  have hsched := fitting_reachable h
  have hlt := request_lt hsched q (by rw [hp]; rfl)
  have hrunner := (keepsContext h).runners r ((placed hsched).loaded _ r hloaded).1
  have hopts : (f.s.requests q).opts = f.given q := options_eq ((given h).opts q hlt) ((keepsContext h).reuse q r hp)
  refine not_needsReload hrunner.model hrunner.parallel hrunner.options halike.adapters.symm halike.projectors.symm ?_
  rw [hopts]
  exact halike.options

/-- Options match themselves. -/
theorem RunnerOptions.matches_self (o : RunnerOptions) : o.Matches o := by
  unfold RunnerOptions.Matches
  split <;> rfl

/-- Two GPUs. -/
def twoGpus : List Gpu := [⟨ascii "0", ascii "cuda", [], 0⟩, ⟨ascii "1", ascii "cuda", [], 0⟩]

/-- What a pass is given if predictions are always the same. -/
def always (fits : Bool) : Outside := ⟨fun _ _ => (fits, 0), true, true⟩

/-- A step that gives no context. -/
theorem contextKept_of {a : Action} (ha : a.numCtx = none) : contextKept f a := by
  refine ⟨?_, ?_⟩
  · rintro n rfl
    nomatch ha
  · rintro n p k rfl
    nomatch ha

/-- A request for a model that is loaded reuses its runner. -/
theorem reuse_no_reload_second :
    ∃ f, (fitting ⟨2, false, fun _ => false, id⟩ contextKept).Reachable f ∧ f.s.pending = .reuse 1 0 ∧
    (f.s.runners 0).needsReload (f.s.requests 1) false = false := by
  have hrun : (fitting ⟨2, false, fun _ => false, id⟩ contextKept).Leads
      (fun f => f.s.pending = .reuse 1 0 ∧ f.s.loaded.lookup (f.s.path 1) = some 0 ∧
        f.Alike 1 (f.origin 0)) { s := { maxQueue := 512 } } := by
    refine .step ⟨_, contextKept_of (by rfl),
      .getRunner (by decide) (.getRunner (modelAt "a") { numCtx := 2048 } none)⟩ ?_
    refine .step ⟨_, contextKept_of (by rfl), .takePending rfl (.takePending rfl rfl)⟩ ?_
    refine .step ⟨.lookup 0, contextKept_of (by rfl), .plain rfl (.lookupNone rfl rfl rfl (by simp))⟩ ?_
    refine .step ⟨.load 4096 2 0, ⟨nofun, ?_⟩,
      .place (always true) twoGpus [] rfl (by simp [twoGpus]) (List.nil_sublist _) (.load 4096 2 0)
      (.load 4096 2 0 (.inl ⟨0, rfl⟩))⟩ ?_
    · rintro _ _ _ ⟨⟩ q (⟨n, hp⟩ | hp) <;> cases hp
      decide
    refine .step ⟨_, contextKept_of (by rfl), .store rfl (.store rfl rfl)⟩ ?_
    refine .step ⟨.running 0, contextKept_of (by rfl), .plain rfl (.running rfl)⟩ ?_
    refine .step ⟨.handLoaded 0, contextKept_of (by rfl), .plain rfl (.handLoaded rfl)⟩ ?_
    refine .step ⟨_, contextKept_of (by rfl),
      .getRunner (by decide) (.getRunner (modelAt "a") { numCtx := 2048 } none)⟩ ?_
    refine .step ⟨_, contextKept_of (by rfl), .takePending rfl (.takePending rfl rfl)⟩ ?_
    refine .step ⟨.lookup 0, contextKept_of (by rfl), .plain rfl (.lookupFound 0 rfl rfl rfl)⟩ ?_
    exact .here ⟨rfl, rfl, rfl, rfl, RunnerOptions.matches_self _⟩
  obtain ⟨f, hf, hp, hloaded, halike⟩ := hrun.exists_reachable (.init ⟨512, rfl⟩)
  exact ⟨f, hf, hp, reuse_no_reload hf hp hloaded halike⟩

/-- With a parallel setting of 2, a request that was delayed does not match the runner that was loaded meanwhile for
one of the same model and the same options. -/
theorem reload_needless :
    ¬∀ f, (fitting ⟨2, false, fun _ => false, id⟩ anyFit).Reachable f → ∀ q r, f.s.pending = .reuse q r →
      f.s.loaded.lookup (f.s.path q) = some r → f.Alike q (f.origin r) →
        (f.s.runners r).needsReload (f.s.requests q) false = false := by
  intro h
  have hrun : (fitting ⟨2, false, fun _ => false, id⟩ anyFit).Leads
      (fun f => f.s.pending = .reuse 1 1 ∧ f.s.loaded.lookup (f.s.path 1) = some 1 ∧ f.Alike 1 (f.origin 1) ∧
        (f.s.runners 1).needsReload (f.s.requests 1) false = true) { s := { maxQueue := 512 } } := by
    -- a first model is loading on one of two GPUs
    refine .step ⟨_, trivial, .getRunner (by decide) (.getRunner (modelAt "b") { numCtx := 2048 } none)⟩ ?_
    refine .step ⟨_, trivial, .takePending rfl (.takePending rfl rfl)⟩ ?_
    refine .step ⟨.lookup 0, trivial, .plain rfl (.lookupNone rfl rfl rfl (by simp))⟩ ?_
    refine .step ⟨.load 4096 2 0, trivial,
      .place (always true) twoGpus [] rfl (by simp [twoGpus]) (List.nil_sublist _) (.load 4096 2 0)
      (.load 4096 2 0 (.inl ⟨0, rfl⟩))⟩ ?_
    refine .step ⟨_, trivial, .store rfl (.store rfl rfl)⟩ ?_
    -- a request for another model does not fit on the GPU that is left, and is delayed with the context of two requests
    refine .step ⟨_, trivial, .getRunner (by decide) (.getRunner (modelAt "a") { numCtx := 2048 } none)⟩ ?_
    refine .step ⟨_, trivial, .takePending rfl (.takePending rfl rfl)⟩ ?_
    refine .step ⟨.lookup 0, trivial, .plain rfl (.lookupNone rfl rfl rfl (by simp))⟩ ?_
    refine .step ⟨.updateFreeSpace 2048, trivial,
      .place (always true) twoGpus twoGpus.tail rfl (by simp [twoGpus]) ((List.tail_sublist _).map _)
      (.updateFreeSpace 2048 2)
        (.updateFreeSpace 2048 rfl Nat.zero_lt_one rfl (.refl [0]))⟩ ?_
    refine .step ⟨.running 0, trivial, .plain rfl (.running rfl)⟩ ?_
    refine .step ⟨.handLoaded 0, trivial, .plain rfl (.handLoaded rfl)⟩ ?_
    refine .step ⟨.visit, trivial, .plain rfl (.visit rfl rfl)⟩ ?_
    refine .step ⟨.freed, trivial, .plain rfl (.freed rfl)⟩ ?_
    refine .step ⟨.delay 4096, trivial, .fit (always false).predict rfl (.delay 4096 2) (.delay 4096 rfl)⟩ ?_
    -- the same request of another client is loaded on both GPUs
    refine .step ⟨_, trivial, .getRunner (by decide) (.getRunner (modelAt "a") { numCtx := 2048 } none)⟩ ?_
    refine .step ⟨_, trivial, .takePending rfl (.takePending rfl rfl)⟩ ?_
    refine .step ⟨.lookup 0, trivial, .plain rfl (.lookupNone rfl rfl rfl (by simp))⟩ ?_
    refine .step ⟨.updateFreeSpace 2048, trivial,
      .place (always true) twoGpus twoGpus rfl (by simp [twoGpus]) (.refl _) (.updateFreeSpace 2048 2)
        (.updateFreeSpace 2048 rfl Nat.zero_lt_one rfl (.refl [0]))⟩ ?_
    refine .step ⟨.visit, trivial, .plain rfl (.visit rfl rfl)⟩ ?_
    refine .step ⟨.freed, trivial, .plain rfl (.freed rfl)⟩ ?_
    refine .step ⟨.load 4096 2 0, trivial,
      .fit (always true).predict rfl (.load 4096 2 0) (.load 4096 2 0 (.inr rfl))⟩ ?_
    refine .step ⟨_, trivial, .store rfl (.store rfl rfl)⟩ ?_
    refine .step ⟨.running 1, trivial, .plain rfl (.running rfl)⟩ ?_
    refine .step ⟨.handLoaded 1, trivial, .plain rfl (.handLoaded rfl)⟩ ?_
    -- the first one comes again
    refine .step ⟨.requeue 1, trivial, .plain rfl (.requeue (List.mem_singleton_self 1) (.inl (by decide)))⟩ ?_
    refine .step ⟨_, trivial, .takePending rfl (.takePending rfl rfl)⟩ ?_
    refine .step ⟨.lookup 0, trivial, .plain rfl (.lookupFound 0 rfl rfl rfl)⟩ ?_
    exact .here ⟨rfl, rfl, ⟨rfl, rfl, RunnerOptions.matches_self _⟩, rfl⟩
  obtain ⟨f, hf, hp, hloaded, halike, hreload⟩ := hrun.exists_reachable (.init ⟨512, rfl⟩)
  rw [h f hf 1 1 hp hloaded halike] at hreload
  cases hreload

end Ollama.Sched
