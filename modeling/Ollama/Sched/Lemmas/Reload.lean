import Ollama.Sched.Lemmas.Fit

/-!
# What a runner was loaded with

As long as requests are delayed with the context they were made with, the requests in the queue have it, and so has
the request in hand unless no runner is loaded for its model (`KeepsContext`). A runner has the options of the request
it was loaded for, with a context that is a multiple of the one that request was made with.
-/

namespace Ollama.Sched

open Lib

variable {c : Settings} {s s' : Scheduler} {a : Action} {f f' : Fitting} {q r : Nat}

/-! ## Requests that are placed -/

/-- While a place is looked for, no runner is loaded for the model; and a loaded runner has its options, and is that
of its path. -/
structure Placed (s : Scheduler) : Prop where
  unloaded : ∀ q, s.pending.placed = some q → s.loaded.lookup (s.path q) = none
  options : ∀ q x, s.pending = .loading q x → x.options ≠ none
  loaded : ∀ p r, s.loaded.lookup p = some r → (s.runners r).options ≠ none ∧ (s.runners r).modelPath = p

namespace Placed

/-- A runner that is to be stored has the options of its request. -/
theorem step_options (h : Placed s) (hs : Step s a s') : ∀ q x, s'.pending = .loading q x → x.options ≠ none := by
  intro q x hp
  obtain hold | ⟨_, _, _, -, -, rfl⟩ := step_loading hs hp
  · exact h.options q x hold
  · exact Option.some_ne_none _

/-- A runner keeps its options while its path leads to it. -/
theorem step_loaded (h : Placed s) (hb : Bounds s) (hs : Step s a s') :
    ∀ p r, s'.loaded.lookup p = some r → (s'.runners r).options ≠ none ∧ (s'.runners r).modelPath = p := by
  intro p r hlook
  obtain hold | ⟨rfl, rfl, q, x, hp, rfl⟩ := hs.shelf.lookup hlook
  · have hne : a = .store → r ≠ s.nextRunner := fun _ => Nat.ne_of_lt (hb.loaded r (mem_of_lookup hold))
    obtain ⟨hopts, hpath⟩ := h.loaded p r hold
    refine ⟨?_, ((hs.touch r).modelPath hne).trans hpath⟩
    obtain ⟨hsame, -⟩ | ⟨rfl, hc, -⟩ := (hs.touch r).options hne
    · rw [hsame]
      exact hopts
    · have hnone := (step_unload hs hc).2
      rw [hpath, hlook] at hnone
      cases hnone
  · rw [(step_store hs hp).2.1]
    exact ⟨h.options q x hp, rfl⟩

end Placed

theorem placed (h : (scheduler anyStep).Reachable s) : Placed s := by
  induction h with
  | @init s hi =>
    obtain ⟨maxQueue, rfl⟩ := hi
    constructor <;> simp [Pending.placed]
  | step hr hst ih =>
    have hunloaded := lookup_of_placed (.step hr hst)
    obtain ⟨a, _, hs⟩ := hst
    exact ⟨hunloaded, ih.step_options hs, ih.step_loaded (bounds hr) hs⟩

/-- A runner keeps its options until it is unloaded; a new one has those of the runner that was to be stored. -/
theorem step_runner (hs : Step s a s') (hopts : (s'.runners r).options ≠ none) :
    ((s'.runners r).options = (s.runners r).options ∧ (s'.runners r).model = (s.runners r).model ∧
        (s'.runners r).numParallel = (s.runners r).numParallel ∧ (a = .store → r ≠ s.nextRunner)) ∨
      (a = .store ∧ r = s.nextRunner ∧ ∃ q x, s.pending = .loading q x ∧ (s'.runners r).options = x.options ∧
        (s'.runners r).model = x.model ∧ (s'.runners r).numParallel = x.numParallel) := by
  by_cases hnew : a = .store ∧ r = s.nextRunner
  · obtain ⟨rfl, rfl⟩ := hnew
    cases hs with
    | store hp hfree =>
      rw [(step_store (.store hp hfree) hp).2.1]
      exact .inr ⟨rfl, rfl, _, _, hp, rfl, rfl, rfl⟩
  · have hne := not_and.1 hnew
    obtain ⟨hopts', hmodel, hparallel⟩ | ⟨-, -, hnone⟩ := (hs.touch r).options hne
    · exact .inl ⟨hopts', hmodel, hparallel, hne⟩
    · exact absurd hnone hopts

/-! ## What is kept -/

/-- A runner that was loaded for a request: it has its model and its options, with a context for each of the requests
it serves at a time. -/
structure LoadedFor (f : Fitting) (q : Nat) (x : RunnerRef) : Prop where
  made : q < f.s.nextRequest
  model : x.model = some (f.s.requests q).model
  parallel : 1 ≤ x.numParallel
  options : x.options = some { f.given q with numCtx := (f.given q).numCtx * x.numParallel }

/-- The request has the context it was made with. -/
def Fresh (f : Fitting) (q : Nat) : Prop := (f.s.requests q).opts.numCtx = (f.given q).numCtx

/-- What holds as long as requests are delayed with the context they were made with. -/
structure KeepsContext (f : Fitting) : Prop where
  queued : ∀ q, q ∈ f.s.pendingReqCh ∨ q ∈ f.s.requeues → Fresh f q
  hand : ∀ q, f.s.pending.request = some q → Fresh f q ∨ f.s.loaded.lookup (f.s.path q) = none
  reuse : ∀ q r, f.s.pending = .reuse q r → Fresh f q
  loading : ∀ q x, f.s.pending = .loading q x → LoadedFor f q x
  runners : ∀ r, (f.s.runners r).options ≠ none → LoadedFor f (f.origin r) (f.s.runners r)

/-- What a runner was loaded with stays. -/
theorem LoadedFor.step {x : RunnerRef} (h : LoadedFor f q x) (hs : FitStep c f a f') : LoadedFor f' q x where
  made := step_made hs.step h.made
  model := by rw [h.model, (step_request hs.step h.made).1]
  parallel := h.parallel
  options := by rw [h.options, hs.given h.made]

/-- A request that no place is looked for keeps its context. -/
theorem Fresh.step (h : Fresh f q) (hlt : q < f.s.nextRequest) (hplaced : f.s.pending.placed ≠ some q)
    (hs : FitStep c f a f') :
    Fresh f' q := by
  rw [Fresh, hs.given hlt]
  rcases step_numCtx hs.step hlt with hctx | ⟨hhand, hn⟩
  · rw [hctx]
    exact h
  · exact absurd (placed_of_numCtx hs.step hhand hn) hplaced

/-- A request that a place is looked for is not in the queue. -/
theorem not_queued (h : (scheduler anyStep).Reachable s) (hq : s.pending.placed = some q) :
    ¬(q ∈ s.pendingReqCh ∨ q ∈ s.requeues) := by
  have hungranted : s.pending.ungranted = [q] := by
    cases hp : s.pending <;> rw [hp] at hq <;> cases hq <;> rfl
  have honce := (ledger_ok h).once
  rw [Scheduler.waiting_hand hungranted, Multiset.nodup_cons] at honce
  intro hmem
  exact honce.1 (Multiset.mem_coe.2 (List.mem_append.2 hmem))

/-- A runner with the same options is loaded for the same request. -/
theorem LoadedFor.congr {x y : RunnerRef} (h : LoadedFor f q x) (hopts : y.options = x.options)
    (hmodel : y.model = x.model) (hparallel : y.numParallel = x.numParallel) : LoadedFor f q y :=
  ⟨h.made, hmodel.trans h.model, hparallel ▸ h.parallel, by rw [hopts, hparallel, h.options]⟩

/-- The request of a runner changes only as it is stored. -/
theorem FitStep.origin (h : FitStep c f a f') (hr : a = .store → r ≠ f.s.nextRunner) : f'.origin r = f.origin r := by
  cases h with
  | store _ _ => exact if_neg (hr rfl)
  | _ => rfl

theorem FitStep.origin_store (h : FitStep c f .store f') {x : RunnerRef} (hp : f.s.pending = .loading q x) :
    f'.origin f.s.nextRunner = q := by
  cases h with
  | plain hplain _ => nomatch hplain
  | place _ _ _ _ _ _ hfollows _ | fit _ _ hfollows _ =>
    obtain ⟨n, hn⟩ := hfollows.numCtx
    nomatch hn
  | store hp' _ =>
    obtain ⟨rfl, -⟩ := Pending.loading.inj (hp'.symm.trans hp)
    exact if_pos rfl

/-- Options that are the same but for the context. -/
theorem options_eq {x y : RunnerOptions} (h : { x with numCtx := 0 } = { y with numCtx := 0 }) {n : Int}
    (hn : x.numCtx = n) :
    x = { y with numCtx := n } := by
  cases x
  cases y
  simp only [RunnerOptions.mk.injEq] at h hn ⊢
  exact ⟨hn, h.2⟩

/-- A product that does not wrap around. -/
theorem times_eq {n p : Int} (hn : 0 ≤ n) (hp : 0 ≤ p) (h : n * p < 2 ^ 63) : times n p = n * p := by
  have hpos : 0 ≤ n * p := Int.mul_nonneg hn hp
  exact Int.bmod_eq_of_le (by omega) (by omega)

namespace KeepsContext

/-- A request that is delayed has the context it was made with. -/
theorem delayed (hgiven : Given f) (hlt : q < f.s.nextRequest) (hok : contextKept f a) (hs : FitStep c f a f')
    (hp : f.s.pending = .fitting q) {n : Int} (ha : a = .delay n) : n = (f.given q).numCtx := by
  subst ha
  have horig : (f.s.requests q).origNumCtx = (f.given q).numCtx := hgiven.hand q (by rw [hp]; rfl)
  obtain ⟨hmin, hmax⟩ := hgiven.bounds q hlt
  cases hs with
  | plain hplain _ => nomatch hplain
  | place _ _ _ hp' _ _ _ _ => nomatch hp'.symm.trans hp
  | @fit q' _ _ predict hp' hfollows _ =>
    obtain rfl : q' = q := Pending.fitting.inj (hp'.symm.trans hp)
    generalize hd : fit c predict f.gpus f.availGpus (f.s.requests q').origNumCtx
      (f.s.requests q').opts.numCtx f.numParallel = d at hfollows
    cases hfollows
    rw [fit_delay hd, ← horig]
    rcases hok.delay n rfl q' hp with ⟨hgpus, hpar⟩ | ⟨hgpus, hctx⟩
    · have hlast : lastTried f.numParallel = 1 := by
        unfold lastTried
        split <;> omega
      rw [if_neg hgpus, hlast, times_one (by omega) (by omega)]
    · rw [if_pos hgpus, hctx]

theorem step_queued (h : KeepsContext f) (hr : (scheduler anyStep).Reachable f.s)
    (hr' : (scheduler anyStep).Reachable f'.s) (hgiven : Given f) (hok : contextKept f a) (hs : FitStep c f a f') :
    ∀ q, q ∈ f'.s.pendingReqCh ∨ q ∈ f'.s.requeues → Fresh f' q := by
  intro q hq
  have hold : q ∈ f.s.pendingReqCh ∨ q ∈ f.s.requeues → Fresh f' q := fun hq =>
    (h.queued q hq).step (waiting_lt hr hq) (fun hp => not_queued hr hp hq) hs
  rcases Sched.step_queued hs.step hq with hq' | hq' | rfl | ⟨hp, n, ha⟩
  · exact hold (.inl hq')
  · exact hold (.inr hq')
  · rcases hs.made (waiting_lt hr' hq) with hlt | ⟨hopts, _⟩
    · exact absurd hlt (Nat.lt_irrefl _)
    · rw [Fresh, hopts]
  · have hhand : f.s.pending.request = some q := by
      rw [hp]
      rfl
    have hlt := request_lt hr q hhand
    rw [Fresh, hs.given hlt, step_hand_numCtx hs.step hhand (n := n) (by rw [ha]; rfl)]
    exact delayed hgiven hlt hok hs hp ha

theorem step_hand (h : KeepsContext f) (hr : (scheduler anyStep).Reachable f.s) (hs : FitStep c f a f') :
    ∀ q, f'.s.pending.request = some q → Fresh f' q ∨ f'.s.loaded.lookup (f'.s.path q) = none := by
  intro q hq
  rcases Sched.step_hand hs.step hq with hhand | ⟨_, hhead, hreq⟩
  · have hlt := request_lt hr q hhand
    by_cases hplaced : f.s.pending.placed = some q
    · exact .inr (step_lookup_none hs.step hq hlt ((placed hr).unloaded q hplaced))
    · rcases h.hand q hhand with hfresh | hnone
      · exact .inl (hfresh.step hlt hplaced hs)
      · exact .inr (step_lookup_none hs.step hq hlt hnone)
  · have hmem : q ∈ f.s.pendingReqCh := List.mem_of_head? hhead
    left
    rw [Fresh, hreq, hs.given (waiting_lt hr (.inl hmem))]
    exact h.queued q (.inl hmem)

theorem step_reuse (h : KeepsContext f) (hr : (scheduler anyStep).Reachable f.s) (hs : FitStep c f a f') :
    ∀ q r, f'.s.pending = .reuse q r → Fresh f' q := by
  intro q r hp
  rcases Sched.step_reuse hs.step hp with hp' | ⟨hp', hlook⟩
  · exact (h.reuse q r hp').step (request_lt hr q (by rw [hp']; rfl)) (by rw [hp']; exact nofun) hs
  · have hhand : f.s.pending.request = some q := by
      rw [hp']
      rfl
    rcases h.hand q hhand with hfresh | hnone
    · exact hfresh.step (request_lt hr q hhand) (by rw [hp']; exact nofun) hs
    · nomatch hlook.symm.trans hnone

theorem step_loading (h : KeepsContext f) (hr : (scheduler anyStep).Reachable f.s) (hgiven : Given f)
    (hgiven' : Given f') (hok : contextKept f a) (hs : FitStep c f a f') :
    ∀ q x, f'.s.pending = .loading q x → LoadedFor f' q x := by
  intro q x hp
  rcases Sched.step_loading hs.step hp with hp' | ⟨n, p, keepAlive, ha, hplacing, rfl⟩
  · exact (h.loading q x hp').step hs
  · have hcall : CallsLoadFn f.s a q := ⟨hplacing, .inl ⟨n, p, keepAlive, ha⟩⟩
    have hhand := hand_of_calls hcall
    have hlt := request_lt hr q hhand
    have horig : (f.s.requests q).origNumCtx = (f.given q).numCtx := hgiven.hand q hhand
    obtain ⟨hmin, hmax⟩ := hgiven.bounds q hlt
    obtain ⟨n', hn, hpos, heq, hload⟩ := calls_numCtx hs hcall (by omega) (by omega)
    have hpar := hload n p keepAlive ha
    have hprod : (f.given q).numCtx * p < 2 ^ 63 := horig ▸ hok.load n p keepAlive ha q hplacing
    have hparallel : (newRunner (f'.s.requests q) p keepAlive).numParallel = p := by
      rw [newRunner]
      exact if_neg (by omega)
    refine ⟨step_made hs.step hlt, rfl, by omega, ?_⟩
    rw [hparallel, newRunner, Option.some.injEq]
    refine options_eq (hgiven'.opts q (step_made hs.step hlt)) ?_
    rw [step_hand_numCtx hs.step hhand hn, heq, horig, ← hpar, hs.given hlt, times_eq (by omega) (by omega) hprod]

theorem step_runners (h : KeepsContext f) (hs : FitStep c f a f') :
    ∀ r, (f'.s.runners r).options ≠ none → LoadedFor f' (f'.origin r) (f'.s.runners r) := by
  intro r hopts
  rcases step_runner hs.step hopts with ⟨hopts', hmodel, hparallel, hstore⟩ |
    ⟨ha, rfl, q, x, hp, hopts', hmodel, hparallel⟩
  · rw [hs.origin hstore]
    exact ((h.runners r (hopts' ▸ hopts)).step hs).congr hopts' hmodel hparallel
  · subst ha
    rw [hs.origin_store hp]
    exact ((h.loading q x hp).step hs).congr hopts' hmodel hparallel

end KeepsContext

theorem keepsContext (h : (fitting c contextKept).Reachable f) : KeepsContext f := by
  induction h with
  | @init f hi =>
    obtain ⟨maxQueue, rfl⟩ := hi
    constructor <;> simp [Pending.request]
  | step hr hst ih =>
    obtain ⟨a, hok, hs⟩ := hst
    have hsched := fitting_reachable hr
    have hsched' := fitting_reachable (.step hr ⟨a, hok, hs⟩)
    exact ⟨ih.step_queued hsched hsched' (given hr) hok hs, ih.step_hand hsched hs, ih.step_reuse hsched hs,
      ih.step_loading hsched (given hr) (given (.step hr ⟨a, hok, hs⟩)) hok hs, ih.step_runners hs⟩

end Ollama.Sched
