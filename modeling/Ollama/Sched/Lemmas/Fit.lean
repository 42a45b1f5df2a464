import Ollama.Sched.Fit
import Ollama.Sched.Lemmas.Loaded

/-!
# What the fit search leaves

Where the search finds GPUs, the context is that of the parallel setting it found them for. Where it finds none, the
context is that of the last setting it tried, unless there were no GPUs to try (`fullFit_none`). `Given` is what this
leaves of a request: its options are those it was made with, but for the context, and the number that the contexts are
multiples of is the first one.
-/

namespace Ollama.Sched

open Lib

section

variable {c : Settings} {predict : Predict} {origNumCtx numCtx numParallel : Int} {gpus availGpus : List Gpu}

/-! ## The fit search -/

/-- A product with 1 of an `int`. -/
theorem times_one {n : Int} (h : -2 ^ 63 ≤ n) (h' : n < 2 ^ 63) : times n 1 = n := by
  rw [times, Int.mul_one]
  exact Int.bmod_eq_of_le (by omega) (by omega)

/-- GPUs are of some library. -/
theorem byLibrary_ne_nil (h : gpus ≠ []) : byLibrary gpus ≠ [] := by
  cases gpus with
  | nil => exact absurd rfl h
  | cons g gpus =>
    rw [byLibrary, List.map_cons, List.eraseDups_cons, List.map_cons]
    exact List.cons_ne_nil _ _

/-- A setting that is found is one of those that were tried, with its context. -/
theorem tryEach_some {pick : Int → Option (List Gpu)} {ps : List Int} {n p : Int} {found : List Gpu}
    (h : tryEach origNumCtx pick ps numCtx = (n, some (p, found))) : p ∈ ps ∧ n = times origNumCtx p := by
  induction ps generalizing numCtx with
  | nil => nomatch h
  | cons p' ps ih =>
    rw [tryEach] at h
    split at h
    · cases h
      exact ⟨List.mem_cons_self, rfl⟩
    · obtain ⟨hp, hn⟩ := ih h
      exact ⟨List.mem_cons_of_mem _ hp, hn⟩

/-- If none is found, the context is that of the last one. -/
theorem tryEach_none {pick : Int → Option (List Gpu)} {ps : List Int} {n : Int}
    (h : tryEach origNumCtx pick ps numCtx = (n, none)) :
    n = (ps.getLast?.map (times origNumCtx)).getD numCtx := by
  induction ps generalizing numCtx with
  | nil => exact (congrArg Prod.fst h).symm
  | cons p ps ih =>
    rw [tryEach] at h
    split at h
    · nomatch h
    · rw [ih h, List.getLast?_cons]
      cases ps.getLast? <;> rfl

/-- A fit that was found is for one of the numbers of requests, with their context. -/
theorem tryLibraries_some {ps : List Int} {gls : List (List Gpu)} {n p : Int} {found : List Gpu}
    (h : tryLibraries c predict origNumCtx ps gls numCtx = (n, some (p, found))) : p ∈ ps ∧ n = times origNumCtx p := by
  induction gls generalizing numCtx with
  | nil => nomatch h
  | cons gl gls ih =>
    simp only [tryLibraries] at h
    split at h
    · rename_i hsingle
      cases h
      exact tryEach_some hsingle
    · split at h
      · rename_i hall
        cases h
        exact tryEach_some hall
      · exact ih h

/-- Where none was found the context is that of the last number that was tried. -/
theorem tryLibraries_none {p : Int} {ps : List Int} {gls : List (List Gpu)} {n : Int} (hlast : ps.getLast? = some p)
    (h : tryLibraries c predict origNumCtx ps gls numCtx = (n, none)) :
    n = if gls = [] then numCtx else times origNumCtx p := by
  induction gls generalizing numCtx with
  | nil => exact (congrArg Prod.fst h).symm
  | cons gl gls ih =>
    simp only [tryLibraries] at h
    split at h
    · nomatch h
    · split at h
      · nomatch h
      · rename_i hall
        have hn := tryEach_none hall
        rw [hlast] at hn
        rw [ih h, hn, if_neg (List.cons_ne_nil _ _)]
        exact ite_self _

/-- The last setting that is tried. -/
def lastTried (numParallel : Int) : Int := if numParallel ≤ 0 then 1 else numParallel

/-- The context of GPUs that are found is that of their setting. -/
theorem fullFit_some {n p : Int} {found : List Gpu}
    (h : pickBestFullFitByLibrary c predict origNumCtx gpus numCtx numParallel = (n, p, some found)) :
    1 ≤ p ∧ n = times origNumCtx p := by
  rw [pickBestFullFitByLibrary] at h
  split at h
  · rename_i heq
    cases h
    obtain ⟨hp, hn⟩ := tryLibraries_some heq
    refine ⟨?_, hn⟩
    split at hp
    · simp only [List.mem_cons, List.not_mem_nil, or_false, defaultParallel] at hp
      omega
    · rw [List.mem_singleton.1 hp]
      omega
  · nomatch h

/-- If no GPUs are found, the context is that of the last setting, if there were GPUs to try. -/
theorem fullFit_none {n p : Int}
    (h : pickBestFullFitByLibrary c predict origNumCtx gpus numCtx numParallel = (n, p, none)) :
    p = numParallel ∧ n = if gpus = [] then numCtx else times origNumCtx (lastTried numParallel) := by
  rw [pickBestFullFitByLibrary] at h
  split at h
  · nomatch h
  · rename_i heq
    cases h
    refine ⟨rfl, ?_⟩
    rw [tryLibraries_none (p := lastTried numParallel) ?_ heq]
    · by_cases hgpus : gpus = []
      · subst hgpus
        rfl
      · rw [if_neg hgpus, if_neg (byLibrary_ne_nil hgpus)]
    · unfold lastTried
      split <;> rfl

/-- A partial fit is loaded with the last setting that was tried. -/
theorem partialFit_eq (predict : Predict) (origNumCtx : Int) (gpus : List Gpu) (numCtx numParallel : Int) :
    (pickBestPartialFitByLibrary predict origNumCtx gpus numCtx numParallel).1 =
      (if numParallel ≤ 0 then origNumCtx else numCtx) ∧
    (pickBestPartialFitByLibrary predict origNumCtx gpus numCtx numParallel).2.1 = lastTried numParallel := by
  unfold pickBestPartialFitByLibrary lastTried
  by_cases hpos : numParallel ≤ 0
  · simp only [hpos, if_true]
    split <;> exact ⟨rfl, rfl⟩
  · simp only [hpos, if_false]
    split <;> exact ⟨rfl, rfl⟩

/-- `loadFn` is called with the context of its parallel setting. -/
theorem place_loadFn {o : Outside} {loadedCount : Nat} {n p : Int} (hgpus : gpus ≠ []) (hmin : -2 ^ 63 ≤ origNumCtx)
    (hmax : origNumCtx < 2 ^ 63) (h : place c o gpus loadedCount origNumCtx numCtx numParallel = .loadFn n p) :
    1 ≤ p ∧ n = times origNumCtx p := by
  simp only [place] at h
  generalize (if o.completion then numParallel else 1) = start at h
  split at h
  · split at h
    · cases h
      refine ⟨?_, rfl⟩
      unfold defaultParallel
      split <;> omega
    · nomatch h
  · split at h
    · split at h
      · rename_i hfull
        cases h
        exact fullFit_some hfull
      · rename_i n' p' hfull
        obtain ⟨rfl, hn⟩ := fullFit_none hfull
        rw [if_neg hgpus] at hn
        obtain ⟨hctx, hpar⟩ := partialFit_eq o.predict origNumCtx gpus n' p'
        cases h
        rw [hctx, hpar, lastTried]
        rw [lastTried] at hn
        by_cases hstart : p' ≤ 0
        · rw [if_pos hstart, if_pos hstart, times_one hmin hmax]
          exact ⟨Int.le_refl 1, rfl⟩
        · rw [if_neg hstart] at hn
          rw [if_neg hstart, if_neg hstart]
          exact ⟨by omega, hn⟩
    · nomatch h

/-- A load is for one request at least, with their context. -/
theorem fit_loadFn {n p : Int} (h : fit c predict gpus availGpus origNumCtx numCtx numParallel = .loadFn n p) :
    1 ≤ p ∧ n = times origNumCtx p := by
  rw [fit] at h
  split at h
  · rename_i hfull
    cases h
    exact fullFit_some hfull
  · split at h <;> nomatch h

/-- A request that is delayed has the context of the last setting that was tried. -/
theorem fit_delay {n p : Int} (h : fit c predict gpus availGpus origNumCtx numCtx numParallel = .delay n p) :
    n = if availGpus = [] then numCtx else times origNumCtx (lastTried numParallel) := by
  rw [fit] at h
  split at h
  · nomatch h
  · rename_i hfull
    split at h
    · cases h
      exact (fullFit_none hfull).2
    · nomatch h

end

/-! ## What steps with a parallel setting do -/

variable {c : Settings} {s s' : Scheduler} {a : Action} {f f' : Fitting} {q : Nat}

/-- What follows a decision gives the request in hand a context. -/
theorem Decision.Follows.numCtx {d : Decision} (h : d.Follows a) : ∃ n, a.numCtx = some n := by
  cases h <;> exact ⟨_, rfl⟩

/-- They are steps of the scheduler. -/
theorem FitStep.step (h : FitStep c f a f') : Step f.s a f'.s := by
  cases h <;> assumption

/-- A run with the parallel setting is a run of the scheduler. -/
theorem fitting_reachable {ok : Fitting → Action → Prop} (h : (fitting c ok).Reachable f) :
    (scheduler anyStep).Reachable f.s := by
  refine h.map (f := Fitting.s) ?_ ?_
  · rintro f ⟨maxQueue, rfl⟩
    exact ⟨maxQueue, rfl⟩
  · rintro f f' _ ⟨a, _, hs⟩
    exact .inl ⟨a, trivial, hs.step⟩

/-- What is written down of a request that was made stays. -/
theorem FitStep.given (h : FitStep c f a f') (hq : q < f.s.nextRequest) : f'.given q = f.given q := by
  cases h with
  | getRunner _ _ => exact if_neg (Nat.ne_of_lt hq)
  | _ => rfl

/-- A request was there before, or it is made, with at least 4 tokens of context. -/
theorem FitStep.made (h : FitStep c f a f') (hq : q < f'.s.nextRequest) : q < f.s.nextRequest ∨
    (f'.given q = (f'.s.requests q).opts ∧ (f'.s.requests q).origNumCtx = 0 ∧ 4 ≤ (f'.given q).numCtx ∧
      (f'.given q).numCtx < 2 ^ 63) := by
  cases h with
  | @getRunner model opts sessionDuration s' hmax hs =>
    cases hs
    rcases Nat.lt_succ_iff_lt_or_eq.1 hq with hlt | rfl
    · exact .inl hlt
    · refine .inr ⟨?_, ?_, ?_⟩
      · simp
      · simp [Scheduler.newRequest]
      · simp only [if_true, Scheduler.newRequest]
        split
        · exact ⟨Int.le_refl 4, (by decide : (4 : Int) < 2 ^ 63)⟩
        · exact ⟨by omega, hmax⟩
  | plain hplain hs =>
    rcases step_nextRequest hs with hn | ⟨_, _, _, rfl⟩
    · exact .inl (hn ▸ hq)
    · cases hplain
  | takePending _ hs | store _ hs =>
    rcases step_nextRequest hs with hn | ⟨_, _, _, ha⟩
    · exact .inl (hn ▸ hq)
    · cases ha
  | place _ _ _ _ _ _ hfollows hs | fit _ _ hfollows hs =>
    rcases step_nextRequest hs with hn | ⟨_, _, _, rfl⟩
    · exact .inl (hn ▸ hq)
    · obtain ⟨n, hctx⟩ := hfollows.numCtx
      cases hctx

/-! ## What a request was made with -/

/-- The options of a request are those it was made with, but for the context, and the number that the contexts of the
request in hand are multiples of is the one it was made with. -/
structure Given (f : Fitting) : Prop where
  bounds : ∀ q < f.s.nextRequest, 4 ≤ (f.given q).numCtx ∧ (f.given q).numCtx < 2 ^ 63
  opts : ∀ q < f.s.nextRequest, { (f.s.requests q).opts with numCtx := 0 } = { f.given q with numCtx := 0 }
  orig : ∀ q < f.s.nextRequest, (f.s.requests q).origNumCtx = (f.given q).numCtx ∨
    ((f.s.requests q).origNumCtx = 0 ∧ (f.s.requests q).opts.numCtx = (f.given q).numCtx)
  hand : ∀ q, f.s.pending.request = some q → (f.s.requests q).origNumCtx = (f.given q).numCtx

namespace Given

/-- A step keeps the bounds of the context that requests are given. -/
theorem step_bounds (h : Given f) (hs : FitStep c f a f') :
    ∀ q < f'.s.nextRequest, 4 ≤ (f'.given q).numCtx ∧ (f'.given q).numCtx < 2 ^ 63 := by
  intro q hq
  rcases hs.made hq with hlt | ⟨_, _, hbounds⟩
  · rw [hs.given hlt]
    exact h.bounds q hlt
  · exact hbounds

/-- A step keeps the options that requests are given, except for the context. -/
theorem step_opts (h : Given f) (hs : FitStep c f a f') :
    ∀ q < f'.s.nextRequest, { (f'.s.requests q).opts with numCtx := 0 } = { f'.given q with numCtx := 0 } := by
  intro q hq
  rcases hs.made hq with hlt | ⟨hopts, _⟩
  · rw [(step_request hs.step hlt).2, hs.given hlt]
    exact h.opts q hlt
  · rw [hopts]

/-- A request that was not taken from the queue yet has the context it was made with. -/
theorem taken (h : Given f) (hq : q < f.s.nextRequest) : (f.s.requests q).taken.origNumCtx = (f.given q).numCtx := by
  rw [LlmRequest.taken]
  rcases h.orig q hq with horig | ⟨horig, hopts⟩
  · have hpos := (h.bounds q hq).1
    rw [if_neg (by omega)]
    exact horig
  · rw [if_pos horig]
    exact hopts

/-- A step keeps the context that requests are given, as their own or the original one. -/
theorem step_orig (h : Given f) (hs : FitStep c f a f') :
    ∀ q < f'.s.nextRequest, (f'.s.requests q).origNumCtx = (f'.given q).numCtx ∨
      ((f'.s.requests q).origNumCtx = 0 ∧ (f'.s.requests q).opts.numCtx = (f'.given q).numCtx) := by
  intro q hq
  rcases hs.made hq with hq | ⟨hopts, horig, _⟩
  · rw [hs.given hq]
    rcases step_origNumCtx hs.step hq with horig | ⟨_, htaken⟩
    · rcases step_numCtx hs.step hq with hctx | ⟨hhand, _⟩
      · rw [horig, hctx]
        exact h.orig q hq
      · exact .inl (horig.trans (h.hand q hhand))
    · exact .inl (htaken.trans (h.taken hq))
  · exact .inr ⟨horig, by rw [hopts]⟩

/-- A step keeps the context of the request that the pending loop has in hand. -/
theorem step_hand (h : Given f) (hlt : ∀ q, f.s.pending.request = some q → q < f.s.nextRequest)
    (hqueue : ∀ q ∈ f.s.pendingReqCh, q < f.s.nextRequest) (hs : FitStep c f a f') :
    ∀ q, f'.s.pending.request = some q → (f'.s.requests q).origNumCtx = (f'.given q).numCtx := by
  intro q hq
  rcases Sched.step_hand hs.step hq with hhand | ⟨_, hhead, hreq⟩
  · rw [hs.given (hlt q hhand)]
    rcases step_origNumCtx hs.step (hlt q hhand) with horig | ⟨_, htaken⟩
    · rw [horig]
      exact h.hand q hhand
    · rw [htaken]
      exact h.taken (hlt q hhand)
  · have hmem := hqueue q (List.mem_of_head? hhead)
    rw [hreq, hs.given hmem]
    exact h.taken hmem

end Given

/-- A request that waits was made. -/
theorem waiting_lt (h : (scheduler anyStep).Reachable s) (hq : q ∈ s.pendingReqCh ∨ q ∈ s.requeues) :
    q < s.nextRequest := by
  have hheld : s.held q := hq.elim .inl (fun hr => .inr (.inr (.inl hr)))
  exact (((held_iff q).1 hheld).unanswered (ledger_ok h)).1

/-- What requests are given holds in every reachable state. -/
theorem given {ok : Fitting → Action → Prop} (h : (fitting c ok).Reachable f) : Given f := by
  induction h with
  | @init f hi =>
    obtain ⟨maxQueue, rfl⟩ := hi
    constructor <;> simp [Pending.request]
  | step hr hst ih =>
    obtain ⟨a, _, hs⟩ := hst
    have hsched := fitting_reachable hr
    have hqueue : ∀ q ∈ _, _ := fun q hq => waiting_lt hsched (.inl hq)
    exact ⟨ih.step_bounds hs, ih.step_opts hs, ih.step_orig hs, ih.step_hand (request_lt hsched) hqueue hs⟩

/-! ## Calls of `loadFn` -/

/-- The request in hand as `loadFn` is called. -/
theorem hand_of_calls (h : CallsLoadFn f.s a q) : f.s.pending.request = some q := by
  rcases h.1 with ⟨n, hp⟩ | hp
  · rw [hp]
    rfl
  · rw [hp]
    rfl

/-- What follows a decision and calls `loadFn` follows the decision to load. -/
theorem follows_loadFn {d : Decision} (h : d.Follows a) (hcall : CallsLoadFn f.s a q) :
    ∃ n, d = .loadFn n d.numParallel ∧ a.numCtx = some n ∧
      ∀ numCtx numParallel keepAlive, a = .load numCtx numParallel keepAlive → numParallel = d.numParallel := by
  cases h with
  | load n p keepAlive => exact ⟨n, rfl, rfl, fun _ _ _ heq => by cases heq; rfl⟩
  | serverError n p => exact ⟨n, rfl, rfl, nofun⟩
  | makeRoom | updateFreeSpace | delay => rcases hcall.2 with ⟨_, _, _, heq⟩ | ⟨_, heq⟩ <;> nomatch heq

/-- As `loadFn` is called, the context is that of the parallel setting. -/
theorem calls_numCtx (hs : FitStep c f a f') (hcall : CallsLoadFn f.s a q)
    (hmin : -2 ^ 63 ≤ (f.s.requests q).origNumCtx) (hmax : (f.s.requests q).origNumCtx < 2 ^ 63) :
    ∃ n, a.numCtx = some n ∧ 1 ≤ f'.numParallel ∧ n = times (f.s.requests q).origNumCtx f'.numParallel ∧
      ∀ numCtx numParallel keepAlive, a = .load numCtx numParallel keepAlive → numParallel = f'.numParallel := by
  cases hs with
  | plain hplain _ => rcases hcall.2 with ⟨_, _, _, rfl⟩ | ⟨_, rfl⟩ <;> nomatch hplain
  | getRunner _ _ | takePending _ _ | store _ _ => rcases hcall.2 with ⟨_, _, _, heq⟩ | ⟨_, heq⟩ <;> nomatch heq
  | @place q' loadedCount _ _ o gpus availGpus hp hgpus _ hfollows _ =>
    obtain ⟨n, hd, hn, hload⟩ := follows_loadFn hfollows hcall
    obtain rfl : q' = q := Option.some.inj ((congrArg Pending.request hp).symm.trans (hand_of_calls hcall))
    obtain ⟨hpos, heq⟩ := place_loadFn hgpus hmin hmax hd
    exact ⟨n, hn, hpos, heq, hload⟩
  | @fit q' _ _ predict hp hfollows _ =>
    obtain ⟨n, hd, hn, hload⟩ := follows_loadFn hfollows hcall
    obtain rfl : q' = q := Option.some.inj ((congrArg Pending.request hp).symm.trans (hand_of_calls hcall))
    obtain ⟨hpos, heq⟩ := fit_loadFn hd
    exact ⟨n, hn, hpos, heq, hload⟩

end Ollama.Sched
