import Ollama.Sched.Ledger

/-!
# The books stay in order

`Turn` says what a line can do to one request, with where this takes the request; the places a request can be in are
read off the lines by one lemma each. Each field of `Ledger.Ok` is kept by each line, by cases on these.
-/

namespace Ollama.Sched.Ledger

variable {l l' : Ledger} {d : Option Nat} {q r : Nat}

/-- What a line can do to a request, and where it takes it. -/
inductive Turn (l l' : Ledger) (q : Nat) : Prop where
  | same : l'.lives q = l.lives q → Turn l l' q
  | enter : q = l.nextRequest → l'.lives q = {} → Turn l l' q
  | turnAway : q = l.nextRequest → l'.lives q = { answers := [.maxQueue] } → Turn l l' q
  | cancel : l'.lives q = { l.lives q with done := true } → Turn l l' q
  | sendFinished : (l.lives q).finisher = true → (l.lives q).done = true →
      l'.lives q = { l.lives q with finisher := false } → Turn l l' q
  | grant {r : Nat} : l.waiting = q ::ₘ l'.waiting → l'.lives q = { l.lives q with granted := some r } → Turn l l' q
  | handOver {r : Nat} : l.handing = some (q, r) → l'.handing = none →
      l'.lives q = { l.lives q with answers := (l.lives q).answers ++ [.runner r], finisher := true } → Turn l l' q
  | fail {e : Answer} : l.waiting = q ::ₘ l'.waiting → (∀ r, e ≠ .runner r) →
      l'.lives q = { l.lives q with answers := (l.lives q).answers ++ [e] } → Turn l l' q
  | running {r : Nat} : l.loader r = .starting q → l'.loader r = .handing q →
      l'.lives q = { l.lives q with finisher := true } → Turn l l' q
  | handLoaded {r : Nat} : l.loader r = .handing q → l'.loader r = .gone →
      l'.lives q = { l.lives q with answers := (l.lives q).answers ++ [.runner r] } → Turn l l' q
  | failed {r : Nat} : l.loader r = .starting q → l'.loader r = .failing →
      l'.lives q = { l.lives q with granted := none, answers := (l.lives q).answers ++ [.runningError] } → Turn l l' q
  | finish : l.finishes = q ::ₘ l'.finishes → l'.lives q = { l.lives q with finished := true } → Turn l l' q

/-- A line writes the life of one request at most. -/
theorem Turn.of_write {q₀ : Nat} {x : Life} (hl : l'.lives = (l.write q₀ x).lives)
    (hx : l'.lives q₀ = x → Turn l l' q₀) (q : Nat) :
    Turn l l' q := by
  by_cases hq : q = q₀
  · subst hq
    exact hx (by rw [hl, write_lives, if_pos rfl])
  · exact .same (by rw [hl, write_lives, if_neg hq])

theorem Step.turn (hs : Step l d l') : ∀ q, Turn l l' q := by
  cases hs with
  | enter => exact .of_write rfl (.enter rfl)
  | turnAway => exact .of_write rfl (.turnAway rfl)
  | cancel _ => exact .of_write rfl .cancel
  | sendFinished hf hd => exact .of_write rfl (.sendFinished hf hd)
  | drop _ _ | sendFailed _ => exact fun _ => .same rfl
  | grant hw _ => exact .of_write rfl (.grant hw)
  | handOver hh => exact .of_write rfl (.handOver hh rfl)
  | fail hw he => exact .of_write rfl (.fail hw he)
  | load hw _ => exact .of_write rfl (.grant hw)
  | running hr => exact .of_write rfl (.running hr (Function.update_self ..))
  | handLoaded hr => exact .of_write rfl (.handLoaded hr (Function.update_self ..))
  | failed hr => exact .of_write rfl (.failed hr (Function.update_self ..))
  | finish hf => exact .of_write rfl (.finish hf)

/-! ## The places of a request -/

theorem Step.nextRequest (hs : Step l d l') : l.nextRequest ≤ l'.nextRequest := by
  cases hs with
  | enter | turnAway => exact Nat.le_succ _
  | _ => exact Nat.le_refl _

/-- A request waits that waited, or is new. -/
theorem Step.waiting (hs : Step l d l') (hq : q ∈ l'.waiting) :
    q ∈ l.waiting ∨ (q = l.nextRequest ∧ q < l'.nextRequest ∧ l'.lives q = {}) := by
  cases hs with
  | enter =>
    obtain rfl | hold := Multiset.mem_cons.1 hq
    · exact .inr ⟨rfl, Nat.lt_succ_self _, by rw [write_lives, if_pos rfl]⟩
    · exact .inl hold
  | drop hw _ | grant hw _ | fail hw _ | load hw _ => exact .inl (hw ▸ Multiset.mem_cons_of_mem hq)
  | _ => exact .inl hq

/-- A request is sent a runner that it is granted. -/
theorem Step.handing (hs : Step l d l') (hh : l'.handing = some (q, r)) : l.handing = some (q, r) ∨
    (l.waiting = q ::ₘ l'.waiting ∧ l'.loader = l.loader ∧ l'.lives q = { l.lives q with granted := some r }) := by
  cases hs with
  | grant hw _ =>
    cases hh
    exact .inr ⟨hw, rfl, by rw [write_lives, if_pos rfl]⟩
  | handOver _ => cases hh
  | _ => exact .inl hh

/-- A loader after one of them has changed. -/
theorem loader_of_update {f : Nat → Loader} {r₀ : Nat} {v w : Loader} (h : Function.update f r₀ v r = w) :
    f r = w ∨ (r = r₀ ∧ v = w) := by
  rw [Function.update_apply] at h
  split at h
  · rename_i hr
    exact .inr ⟨hr, h⟩
  · exact .inl h

/-- A runner is loaded for a request that waited. -/
theorem Step.starting (hs : Step l d l') (hl : l'.loader r = .starting q) : l.loader r = .starting q ∨
    (l.waiting = q ::ₘ l'.waiting ∧ l'.lives q = { l.lives q with granted := some r }) := by
  cases hs with
  | load hw _ =>
    obtain hold | ⟨rfl, hv⟩ := loader_of_update hl
    · exact .inl hold
    · cases hv
      exact .inr ⟨hw, by rw [write_lives, if_pos rfl]⟩
  | running _ | handLoaded _ | failed _ | sendFailed _ =>
    obtain hold | ⟨-, hv⟩ := loader_of_update hl
    · exact .inl hold
    · cases hv
  | _ => exact .inl hl

/-- The request of a load that ended is sent the runner. -/
theorem Step.loaded (hs : Step l d l') (hl : l'.loader r = .handing q) : l.loader r = .handing q ∨
    (l.loader r = .starting q ∧ l'.lives q = { l.lives q with finisher := true }) := by
  cases hs with
  | running hstart =>
    obtain hold | ⟨rfl, hv⟩ := loader_of_update hl
    · exact .inl hold
    · cases hv
      exact .inr ⟨hstart, by rw [write_lives, if_pos rfl]⟩
  | load _ _ | handLoaded _ | failed _ | sendFailed _ =>
    obtain hold | ⟨-, hv⟩ := loader_of_update hl
    · exact .inl hold
    · cases hv
  | _ => exact .inl hl

/-- A finished event is sent once the context of its request is done. -/
theorem Step.finishes (hs : Step l d l') (hq : q ∈ l'.finishes) : q ∈ l.finishes ∨
    ((l.lives q).finisher = true ∧ (l.lives q).done = true ∧ l'.lives q = { l.lives q with finisher := false }) := by
  cases hs with
  | sendFinished hf hd =>
    obtain rfl | hold := Multiset.mem_cons.1 hq
    · exact .inr ⟨hf, hd, by rw [write_lives, if_pos rfl]⟩
    · exact .inl hold
  | finish hf => exact .inl (hf ▸ Multiset.mem_cons_of_mem hq)
  | _ => exact .inl hq

/-! ## Requests without an answer -/

/-- The request was made and has no answer, its end is not awaited, and it was granted this. -/
def Quiet (l : Ledger) (q : Nat) (granted : Option Nat) : Prop :=
  q < l.nextRequest ∧ (l.lives q).answers = [] ∧ (l.lives q).granted = granted ∧ (l.lives q).finisher = false ∧
    (l.lives q).finished = false ∧ q ∉ l.finishes

/-- No finished event of such a request is sent. -/
theorem Quiet.not_finishes {g : Option Nat} (h : Quiet l q g) (hs : Step l d l') : q ∉ l'.finishes := by
  intro hq
  obtain ⟨-, -, -, hfinisher, -, hnot⟩ := h
  obtain hold | ⟨htrue, -⟩ := hs.finishes hq
  · exact hnot hold
  · rw [hfinisher] at htrue
    cases htrue

/-- A request that is granted a runner still has no answer. -/
theorem Quiet.grant {g : Option Nat} (h : Quiet l q g) (hs : Step l d l')
    (hx : l'.lives q = { l.lives q with granted := some r }) :
    Quiet l' q (some r) := by
  have hnot := h.not_finishes hs
  obtain ⟨hlt, hans, -, hfinisher, hfin, -⟩ := h
  exact ⟨Nat.lt_of_lt_of_le hlt hs.nextRequest,
    by rw [hx]; exact hans, by rw [hx], by rw [hx]; exact hfinisher, by rw [hx]; exact hfin, hnot⟩

/-- A request that stays where it is has no answer as before. -/
theorem Quiet.step {g : Option Nat} (h : Quiet l q g) (hs : Step l d l') (hw : l.waiting ≠ q ::ₘ l'.waiting)
    (hh : ∀ r, l.handing = some (q, r) → l'.handing ≠ none)
    (hstart : ∀ r, l.loader r = .starting q → l'.loader r = .starting q) (hload : ∀ r, l.loader r ≠ .handing q) :
    Quiet l' q g := by
  have hnot' := h.not_finishes hs
  obtain ⟨hlt, hans, hgranted, hfinisher, hfin, hnot⟩ := h
  have hkeep : (l'.lives q).answers = (l.lives q).answers → (l'.lives q).granted = (l.lives q).granted →
      (l'.lives q).finisher = (l.lives q).finisher → (l'.lives q).finished = (l.lives q).finished → Quiet l' q g :=
    fun ha hg hf hd => ⟨Nat.lt_of_lt_of_le hlt hs.nextRequest, ha.trans hans, hg.trans hgranted, hf.trans hfinisher,
      hd.trans hfin, hnot'⟩
  cases hs.turn q with
  | same hx | cancel hx => exact hkeep (by rw [hx]) (by rw [hx]) (by rw [hx]) (by rw [hx])
  | enter hnew _ | turnAway hnew _ => exact absurd hnew (Nat.ne_of_lt hlt)
  | sendFinished hf _ _ =>
    rw [hfinisher] at hf
    cases hf
  | grant hwait _ | fail hwait _ _ => exact absurd hwait hw
  | handOver hhand hnone _ => exact absurd hnone (hh _ hhand)
  | running hl hl' _ | failed hl hl' _ =>
    rw [hstart _ hl] at hl'
    cases hl'
  | handLoaded hl _ _ => exact absurd hl (hload _)
  | finish hf _ => exact absurd (hf ▸ Multiset.mem_cons_self ..) hnot

namespace Ok

/-- The place of a request says what it was granted. -/
theorem granted_of_loader (h : Ok l) (hl : l.loader r = .starting q ∨ l.loader r = .handing q) :
    (l.lives q).granted = some r := by
  obtain hl | hl := hl
  · exact (h.starting q r hl).2.2.1
  · exact (h.loaded q r hl).2.2

/-- A request that waits is nowhere else. -/
theorem not_handing (h : Ok l) (hq : q ∈ l.waiting) (r : Nat) : l.handing ≠ some (q, r) := by
  intro hh
  have hnone := (h.waiting q hq).2.2.1
  rw [(h.handing q r hh).2.2.1] at hnone
  cases hnone

theorem not_loading (h : Ok l) (hq : q ∈ l.waiting) (r : Nat) : l.loader r ≠ .starting q ∧ l.loader r ≠ .handing q := by
  have hnot : ¬(l.loader r = .starting q ∨ l.loader r = .handing q) := by
    intro hl
    have hnone := (h.waiting q hq).2.2.1
    rw [h.granted_of_loader hl] at hnone
    cases hnone
  exact not_or.1 hnot

/-- The first of the requests that wait leaves them. -/
theorem not_waiting (h : Ok l) (hw : l.waiting = q ::ₘ l'.waiting) : q ∉ l'.waiting :=
  (Multiset.nodup_cons.1 (hw ▸ h.once)).1

/-- No request waits twice. -/
theorem step_once (h : Ok l) (hs : Step l d l') : l'.waiting.Nodup := by
  cases hs with
  | enter => exact Multiset.nodup_cons.2 ⟨fun hq => absurd (h.waiting _ hq).1 (Nat.lt_irrefl _), h.once⟩
  | drop hw _ | grant hw _ | fail hw _ | load hw _ => exact (Multiset.nodup_cons.1 (hw ▸ h.once)).2
  | _ => exact h.once

/-- A request that waits has nothing yet. -/
theorem step_waiting (h : Ok l) (hs : Step l d l') (hq : q ∈ l'.waiting) : Quiet l' q none := by
  obtain hold | ⟨hnew, hlt, hx⟩ := hs.waiting hq
  · refine Quiet.step (h.waiting q hold) hs (fun hw => h.not_waiting hw hq) ?_ ?_ ?_
    · exact fun r hh => absurd hh (h.not_handing hold r)
    · exact fun r hl => absurd hl (h.not_loading hold r).1
    · exact fun r => (h.not_loading hold r).2
  · refine ⟨hlt, by rw [hx], by rw [hx], by rw [hx], by rw [hx], fun hf => ?_⟩
    obtain hf | ⟨hf, -⟩ := hs.finishes hf
    · exact absurd hnew (Nat.ne_of_lt (h.finishes q hf).1)
    · exact absurd hnew (Nat.ne_of_lt (h.finisher q hf).1)

/-- The request of a load that has not ended was granted the runner. -/
theorem step_starting (h : Ok l) (hs : Step l d l') (hl : l'.loader r = .starting q) : Quiet l' q (some r) := by
  obtain hold | ⟨hw, hx⟩ := hs.starting hl
  · have hquiet : Quiet l q (some r) := h.starting q r hold
    have hruns : ∀ r', l.loader r' = .starting q ∨ l.loader r' = .handing q → r' = r :=
      fun r' hl => Option.some.inj ((h.granted_of_loader hl).symm.trans hquiet.2.2.1)
    refine hquiet.step hs (fun hw => ?_) (fun r' hh => ?_) (fun r' hl' => ?_) (fun r' hl' => ?_)
    · exact (h.not_loading (hw ▸ Multiset.mem_cons_self ..) r).1 hold
    · -- it is sent no runner by `processPending`
      obtain ⟨-, -, hgranted, -, -, -, hne, -⟩ := h.handing q r' hh
      cases hgranted.symm.trans hquiet.2.2.1
      exact absurd hold hne
    · rw [hruns r' (.inl hl')]
      exact hl
    · rw [hruns r' (.inr hl'), hold] at hl'
      cases hl'
  · exact Quiet.grant (h.waiting q (hw ▸ Multiset.mem_cons_self ..)) hs hx

/-- The request that is sent a runner was granted it, and it is not loaded for it. -/
theorem step_handing (h : Ok l) (hs : Step l d l') (hh : l'.handing = some (q, r)) :
    Quiet l' q (some r) ∧ l'.loader r ≠ .starting q ∧ l'.loader r ≠ .handing q := by
  obtain hold | ⟨hw, hloader, hx⟩ := hs.handing hh
  · obtain ⟨hlt, hans, hgranted, hfinisher, hfin, hnot, hstart, hload⟩ := h.handing q r hold
    have hruns : ∀ r', ¬(l.loader r' = .starting q ∨ l.loader r' = .handing q) := by
      intro r' hl
      cases (h.granted_of_loader hl).symm.trans hgranted
      exact hl.elim hstart hload
    have hmem : l.waiting ≠ q ::ₘ l'.waiting := fun hw => h.not_handing (hw ▸ Multiset.mem_cons_self ..) r hold
    refine ⟨Quiet.step ⟨hlt, hans, hgranted, hfinisher, hfin, hnot⟩ hs hmem ?_ ?_ ?_, fun hl => ?_, fun hl => ?_⟩
    · exact fun _ _ hnone => by
        rw [hh] at hnone
        cases hnone
    · exact fun r' hl => absurd (.inl hl) (hruns r')
    · exact fun r' hl => hruns r' (.inr hl)
    · obtain hl | ⟨hw, -⟩ := hs.starting hl
      · exact hstart hl
      · exact hmem hw
    · obtain hl | ⟨hl, -⟩ := hs.loaded hl
      · exact hload hl
      · exact hstart hl
  · have hmem : q ∈ l.waiting := hw ▸ Multiset.mem_cons_self ..
    rw [hloader]
    exact ⟨Quiet.grant (h.waiting q hmem) hs hx, h.not_loading hmem r⟩

/-- The request of a load that ended is still to be sent the runner. -/
theorem step_loaded (h : Ok l) (hs : Step l d l') (hl : l'.loader r = .handing q) :
    q < l'.nextRequest ∧ (l'.lives q).answers = [] ∧
    (l'.lives q).granted = some r := by
  obtain hold | ⟨hstart, hx⟩ := hs.loaded hl
  · obtain ⟨hlt, hans, hgranted⟩ := h.loaded q r hold
    have hkeep : (l'.lives q).answers = (l.lives q).answers → (l'.lives q).granted = (l.lives q).granted →
        q < l'.nextRequest ∧ (l'.lives q).answers = [] ∧ (l'.lives q).granted = some r :=
      fun ha hg => ⟨Nat.lt_of_lt_of_le hlt hs.nextRequest, ha.trans hans, hg.trans hgranted⟩
    cases hs.turn q with
    | enter hnew _ | turnAway hnew _ => exact absurd hnew (Nat.ne_of_lt hlt)
    | grant hw _ | fail hw _ _ => exact absurd hold (h.not_loading (hw ▸ Multiset.mem_cons_self ..) r).2
    | handOver hh _ _ =>
      obtain ⟨-, -, hgranted', -, -, -, -, hne⟩ := h.handing q _ hh
      cases hgranted'.symm.trans hgranted
      exact absurd hold hne
    | handLoaded hl' hgone _ =>
      cases (h.granted_of_loader (.inr hl')).symm.trans hgranted
      rw [hl] at hgone
      cases hgone
    | running hl' _ _ | failed hl' _ _ =>
      cases (h.granted_of_loader (.inl hl')).symm.trans hgranted
      rw [hold] at hl'
      cases hl'
    | same hx | cancel hx | sendFinished _ _ hx | finish _ hx => exact hkeep (by rw [hx]) (by rw [hx])
  · obtain ⟨hlt, hans, hgranted, -⟩ := h.starting q r hstart
    exact ⟨Nat.lt_of_lt_of_le hlt hs.nextRequest, by rw [hx]; exact hans, by rw [hx]; exact hgranted⟩

/-- A request whose end is awaited was granted a runner. -/
theorem step_finisher (h : Ok l) (hs : Step l d l') (hq : (l'.lives q).finisher = true) : q < l'.nextRequest ∧
    (l'.lives q).granted ≠ none ∧ (l'.lives q).finished = false ∧ q ∉ l'.finishes := by
  have hle := hs.nextRequest
  -- one whose end was awaited before
  have hold : (l.lives q).finisher = true → (l'.lives q).granted = (l.lives q).granted →
    (l'.lives q).finished = (l.lives q).finished →
      q < l'.nextRequest ∧ (l'.lives q).granted ≠ none ∧ (l'.lives q).finished = false ∧ q ∉ l'.finishes := by
    intro hf hg hd
    obtain ⟨hlt, hgranted, hfin, hnot⟩ := h.finisher q hf
    refine ⟨Nat.lt_of_lt_of_le hlt hle, by rw [hg]; exact hgranted, by rw [hd]; exact hfin, fun hmem => ?_⟩
    obtain hmem | ⟨-, -, hx⟩ := hs.finishes hmem
    · exact hnot hmem
    · rw [hx] at hq
      cases hq
  -- one whose end is awaited from now on
  have hnew : ∀ {r}, Quiet l q (some r) → (l'.lives q).granted = (l.lives q).granted →
    (l'.lives q).finished = (l.lives q).finished →
      q < l'.nextRequest ∧ (l'.lives q).granted ≠ none ∧ (l'.lives q).finished = false ∧ q ∉ l'.finishes := by
    intro r hquiet hg hd
    have hnot := hquiet.not_finishes hs
    obtain ⟨hlt, -, hgranted, -, hfin, -⟩ := hquiet
    exact ⟨Nat.lt_of_lt_of_le hlt hle, by rw [hg, hgranted]; exact Option.some_ne_none r, hd.trans hfin, hnot⟩
  have hquiet : ∀ {g}, Quiet l q g → (l.lives q).finisher ≠ true := fun hquiet hf => by
    rw [hquiet.2.2.2.1] at hf
    cases hf
  cases hs.turn q with
  | same hx | cancel hx | handLoaded _ _ hx => exact hold (by rw [hx] at hq; exact hq) (by rw [hx]) (by rw [hx])
  | enter _ hx | turnAway _ hx | sendFinished _ _ hx =>
    rw [hx] at hq
    cases hq
  | grant hw hx | fail hw _ hx =>
    rw [hx] at hq
    exact absurd hq (hquiet (h.waiting q (hw ▸ Multiset.mem_cons_self ..)))
  | handOver hh _ hx =>
    obtain ⟨hlt, hans, hgranted, hfinisher, hfin, hnot, -⟩ := h.handing q _ hh
    exact hnew ⟨hlt, hans, hgranted, hfinisher, hfin, hnot⟩ (by rw [hx]) (by rw [hx])
  | running hl _ hx => exact hnew (h.starting q _ hl) (by rw [hx]) (by rw [hx])
  | failed hl _ hx =>
    rw [hx] at hq
    exact absurd hq (hquiet (h.starting q _ hl))
  | finish hf hx =>
    rw [hx] at hq
    exact absurd (hf ▸ Multiset.mem_cons_self ..) (h.finisher q hq).2.2.2

/-- No finished event is sent twice. -/
theorem step_sentOnce (h : Ok l) (hs : Step l d l') : l'.finishes.Nodup := by
  cases hs with
  | sendFinished hfinisher _ => exact Multiset.nodup_cons.2 ⟨(h.finisher _ hfinisher).2.2.2, h.sentOnce⟩
  | finish hf => exact (Multiset.nodup_cons.1 (hf ▸ h.sentOnce)).2
  | _ => exact h.sentOnce

/-- A finished event is that of a request that was granted a runner. -/
theorem step_finishes (h : Ok l) (hs : Step l d l') (hq : q ∈ l'.finishes) : q < l'.nextRequest ∧
    (l'.lives q).granted ≠ none ∧ (l'.lives q).done = true ∧ (l'.lives q).finished = false := by
  have hle := hs.nextRequest
  obtain hold | ⟨hfinisher, hdone, hx⟩ := hs.finishes hq
  · obtain ⟨hlt, hgranted, hdone, hfin⟩ := h.finishes q hold
    have hquiet : ∀ {g}, Quiet l q g → False := fun hquiet => hquiet.2.2.2.2.2 hold
    have hkeep : (l'.lives q).granted = (l.lives q).granted → (l'.lives q).done = (l.lives q).done →
        (l'.lives q).finished = (l.lives q).finished →
        q < l'.nextRequest ∧ (l'.lives q).granted ≠ none ∧ (l'.lives q).done = true ∧ (l'.lives q).finished = false :=
      fun hg hd hf => ⟨Nat.lt_of_lt_of_le hlt hle, by rw [hg]; exact hgranted, hd.trans hdone, hf.trans hfin⟩
    cases hs.turn q with
    | same hx | sendFinished _ _ hx | handOver _ _ hx | fail _ _ hx | running _ _ hx | handLoaded _ _ hx =>
      exact hkeep (by rw [hx]) (by rw [hx]) (by rw [hx])
    | cancel hx =>
      rw [hx]
      exact ⟨Nat.lt_of_lt_of_le hlt hle, hgranted, rfl, hfin⟩
    | enter hnew _ | turnAway hnew _ => exact absurd hnew (Nat.ne_of_lt hlt)
    | grant hw _ => exact (hquiet (h.waiting q (hw ▸ Multiset.mem_cons_self ..))).elim
    | failed hl _ _ => exact (hquiet (h.starting q _ hl)).elim
    | finish hf _ => exact absurd hq (Multiset.nodup_cons.1 (hf ▸ h.sentOnce)).1
  · obtain ⟨hlt, hgranted, hfin, -⟩ := h.finisher q hfinisher
    rw [hx]
    exact ⟨Nat.lt_of_lt_of_le hlt hle, hgranted, hdone, hfin⟩

/-- A finished event is handled after the context is done. -/
theorem step_finished (h : Ok l) (hs : Step l d l') (hq : (l'.lives q).finished = true) :
    q < l'.nextRequest ∧ (l'.lives q).done = true := by
  have hle := hs.nextRequest
  have hkeep : (l.lives q).finished = true → (l'.lives q).done = (l.lives q).done →
      q < l'.nextRequest ∧ (l'.lives q).done = true :=
    fun hf hd => ⟨Nat.lt_of_lt_of_le (h.finished q hf).1 hle, hd.trans (h.finished q hf).2⟩
  cases hs.turn q with
  | same hx | sendFinished _ _ hx | grant _ hx | handOver _ _ hx | fail _ _ hx | running _ _ hx
  | handLoaded _ _ hx | failed _ _ hx =>
    exact hkeep (by rw [hx] at hq; exact hq) (by rw [hx])
  | enter _ hx | turnAway _ hx =>
    rw [hx] at hq
    cases hq
  | cancel hx =>
    rw [hx] at hq ⊢
    exact ⟨Nat.lt_of_lt_of_le (h.finished q hq).1 hle, rfl⟩
  | finish hf hx =>
    obtain ⟨hlt, -, hdone, -⟩ := h.finishes q (hf ▸ Multiset.mem_cons_self ..)
    rw [hx]
    exact ⟨Nat.lt_of_lt_of_le hlt hle, hdone⟩

/-- Only requests are granted runners. -/
theorem step_granted (h : Ok l) (hs : Step l d l') (hq : (l'.lives q).granted ≠ none) : q < l'.nextRequest := by
  refine Nat.lt_of_lt_of_le ?_ hs.nextRequest
  cases hs.turn q with
  | same hx | cancel hx | sendFinished _ _ hx | handOver _ _ hx | fail _ _ hx | running _ _ hx
  | handLoaded _ _ hx | finish _ hx =>
    rw [hx] at hq
    exact h.granted q hq
  | enter _ hx | turnAway _ hx | failed _ _ hx =>
    rw [hx] at hq
    exact absurd rfl hq
  | grant hw _ => exact (h.waiting q (hw ▸ Multiset.mem_cons_self ..)).1

/-- The runner a request is sent is the one it was granted. -/
theorem step_answered (h : Ok l) (hs : Step l d l') (hq : .runner r ∈ (l'.lives q).answers) :
    (l'.lives q).granted = some r := by
  -- a request that gets its first answer
  have hfirst : ∀ {e}, (l.lives q).answers = [] → .runner r ∈ (l.lives q).answers ++ [e] → e = .runner r := by
    intro e hnone hmem
    rw [hnone] at hmem
    exact (List.mem_singleton.1 hmem).symm
  cases hs.turn q with
  | same hx | cancel hx | sendFinished _ _ hx | running _ _ hx | finish _ hx =>
    rw [hx] at hq ⊢
    exact h.answered q r hq
  | enter _ hx =>
    rw [hx] at hq
    cases hq
  | turnAway _ hx =>
    rw [hx] at hq
    cases List.mem_singleton.1 hq
  | grant hw hx =>
    rw [hx] at hq
    rw [(h.waiting q (hw ▸ Multiset.mem_cons_self ..)).2.1] at hq
    cases hq
  | handOver hh _ hx =>
    obtain ⟨-, hans, hgranted, -⟩ := h.handing q _ hh
    rw [hx] at hq ⊢
    cases hfirst hans hq
    exact hgranted
  | fail hw he hx =>
    rw [hx] at hq
    exact absurd (hfirst (h.waiting q (hw ▸ Multiset.mem_cons_self ..)).2.1 hq) (he r)
  | handLoaded hl _ hx =>
    obtain ⟨-, hans, hgranted⟩ := h.loaded q _ hl
    rw [hx] at hq ⊢
    cases hfirst hans hq
    exact hgranted
  | failed hl _ hx =>
    rw [hx] at hq
    cases hfirst (h.starting q _ hl).2.1 hq

end Ok

/-- A request is held where it was. -/
theorem Held.mono {q : Nat} (h : l.Held q) (hw : q ∈ l.waiting → q ∈ l'.waiting)
    (hh : ∀ r, l.handing = some (q, r) → l'.handing = some (q, r))
    (hl : ∀ r, l.loader r = .starting q ∨ l.loader r = .handing q → l'.loader r = .starting q ∨
      l'.loader r = .handing q) :
    l'.Held q := by
  rcases h with h | ⟨r, h⟩ | ⟨r, h⟩
  · exact .inl (hw h)
  · exact .inr (.inl ⟨r, hh r h⟩)
  · exact .inr (.inr ⟨r, hl r h⟩)

/-- A request that is held has no answer. -/
theorem Held.unanswered {q : Nat} (h : Ok l) (hq : l.Held q) : q < l.nextRequest ∧ (l.lives q).answers = [] := by
  rcases hq with hq | ⟨r, hq⟩ | ⟨r, hq | hq⟩
  · exact ⟨(h.waiting q hq).1, (h.waiting q hq).2.1⟩
  · exact ⟨(h.handing q r hq).1, (h.handing q r hq).2.1⟩
  · exact ⟨(h.starting q r hq).1, (h.starting q r hq).2.1⟩
  · exact ⟨(h.loaded q r hq).1, (h.loaded q r hq).2.1⟩

/-- A request other than the first one still waits. -/
theorem mem_of_ne {q₀ : Nat} {rest : Multiset Nat} (hw : l.waiting = q₀ ::ₘ rest) (hne : q ≠ q₀)
    (hq : q ∈ l.waiting) : q ∈ rest :=
  (Multiset.mem_cons.1 (hw ▸ hq)).resolve_left hne

/-- A request is loaded for where it was, while a loader of another one changes. -/
theorem loads_of_ne {r₀ : Nat} {v : Loader} (hne : l.loader r₀ ≠ .starting q ∧ l.loader r₀ ≠ .handing q) :
    ∀ r, l.loader r = .starting q ∨ l.loader r = .handing q →
      Function.update l.loader r₀ v r = .starting q ∨ Function.update l.loader r₀ v r = .handing q := by
  intro r hl
  have hr : r ≠ r₀ := by
    rintro rfl
    exact hl.elim hne.1 hne.2
  rw [Function.update_of_ne hr]
  exact hl

/-- A request that is held is let go of with an answer, unless it is the one that is given up. -/
theorem Step.release (h : Ok l) (hs : Step l d l') {q : Nat} (hq : l.Held q) (hne : d ≠ some q) :
    l'.Held q ∨ (l'.lives q).answers.length = 1 := by
  have hans : (l.lives q).answers = [] := (hq.unanswered h).2
  have hother : ∀ {q₀ r} {v : Loader}, v = .starting q₀ ∨ v = .handing q₀ → l.loader r = v → q ≠ q₀ →
      l.loader r ≠ .starting q ∧ l.loader r ≠ .handing q := by
    rintro q₀ r v hv hr hq₀
    rw [hr]
    obtain rfl | rfl := hv
    · exact ⟨(fun heq => by cases heq; exact hq₀ rfl), (fun heq => by cases heq)⟩
    · exact ⟨(fun heq => by cases heq), (fun heq => by cases heq; exact hq₀ rfl)⟩
  cases hs with
  | enter => exact .inl (hq.mono Multiset.mem_cons_of_mem (fun _ => id) (fun _ => id))
  | turnAway | cancel _ | sendFinished _ _ | finish _ => exact .inl (hq.mono id (fun _ => id) (fun _ => id))
  | drop hw _ => exact .inl (hq.mono (mem_of_ne hw fun heq => hne (congrArg some heq.symm)) (fun _ => id) (fun _ => id))
  | @grant q₀ r rest hw hh =>
    left
    by_cases hq₀ : q = q₀
    · exact .inr (.inl ⟨r, by rw [hq₀]⟩)
    · refine hq.mono (mem_of_ne hw hq₀) (fun r' hr' => ?_) (fun _ => id)
      rw [hh] at hr'
      cases hr'
  | @handOver q₀ r hh =>
    by_cases hq₀ : q = q₀
    · exact .inr (by simp [← hq₀, hans])
    · refine .inl (hq.mono id (fun r' hr' => ?_) (fun _ => id))
      cases hh.symm.trans hr'
      exact absurd rfl hq₀
  | @fail q₀ rest e hw he =>
    by_cases hq₀ : q = q₀
    · exact .inr (by simp [← hq₀, hans])
    · exact .inl (hq.mono (mem_of_ne hw hq₀) (fun _ => id) (fun _ => id))
  | @load q₀ r rest hw hr =>
    left
    by_cases hq₀ : q = q₀
    · exact .inr (.inr ⟨r, .inl (by simp [hq₀])⟩)
    · refine hq.mono (mem_of_ne hw hq₀) (fun _ => id) (loads_of_ne ?_)
      rw [hr]
      exact ⟨(fun heq => by cases heq), (fun heq => by cases heq)⟩
  | @running q₀ r hr =>
    left
    by_cases hq₀ : q = q₀
    · exact .inr (.inr ⟨r, .inr (by simp [hq₀])⟩)
    · exact hq.mono id (fun _ => id) (loads_of_ne (hother (.inl rfl) hr hq₀))
  | @handLoaded q₀ r hr =>
    by_cases hq₀ : q = q₀
    · exact .inr (by simp [← hq₀, hans])
    · exact .inl (hq.mono id (fun _ => id) (loads_of_ne (hother (.inr rfl) hr hq₀)))
  | @failed q₀ r hr =>
    by_cases hq₀ : q = q₀
    · exact .inr (by simp [← hq₀, hans])
    · exact .inl (hq.mono id (fun _ => id) (loads_of_ne (hother (.inl rfl) hr hq₀)))
  | @sendFailed r hr =>
    refine .inl (hq.mono id (fun _ => id) (loads_of_ne ?_))
    rw [hr]
    exact ⟨(fun heq => by cases heq), (fun heq => by cases heq)⟩

/-- The context of a request that is given up is done. -/
theorem Step.done_of_given_up {q : Nat} (hs : Step l (some q) l') : (l.lives q).done = true := by
  cases hs with
  | drop _ hdone => exact hdone

/-- A request that is not held gets no more answers. -/
theorem Step.settled (hs : Step l d l') {q : Nat} (hlt : q < l.nextRequest) (hq : ¬l.Held q) :
    (l'.lives q).answers = (l.lives q).answers ∧ ((l.lives q).done = true → (l'.lives q).done = true) := by
  have hw : q ∉ l.waiting := fun hmem => hq (.inl hmem)
  cases hs.turn q with
  | same hx | sendFinished _ _ hx | finish _ hx =>
    rw [hx]
    exact ⟨rfl, id⟩
  | cancel hx =>
    rw [hx]
    exact ⟨rfl, fun _ => rfl⟩
  | enter hnew _ | turnAway hnew _ => exact absurd hnew (Nat.ne_of_lt hlt)
  | grant hwait _ | fail hwait _ _ => exact absurd (hwait ▸ Multiset.mem_cons_self ..) hw
  | handOver hh _ _ => exact absurd (.inr (.inl ⟨_, hh⟩)) hq
  | running hl _ _ | failed hl _ _ => exact absurd (.inr (.inr ⟨_, .inl hl⟩)) hq
  | handLoaded hl _ _ => exact absurd (.inr (.inr ⟨_, .inr hl⟩)) hq

/-- Every request is accounted for. -/
theorem Ok.step_accounted (h : Ok l) (hs : Step l d l') : ∀ q, q < l'.nextRequest → l'.Accounted q := by
  intro q hq
  by_cases hlt : q < l.nextRequest
  · by_cases hheld : l.Held q
    · by_cases hd : d = some q
      · subst hd
        have hans := (hheld.unanswered h).2
        cases hs with
        | drop _ hdone => exact .inr (.inr ⟨hans, hdone⟩)
      · rcases hs.release h hheld hd with hr | hr
        · exact .inl hr
        · exact .inr (.inl hr)
    · obtain ⟨hans, hdone⟩ := hs.settled hlt hheld
      rcases h.accounted q hlt with hr | hr | ⟨hr, hd⟩
      · exact absurd hr hheld
      · exact .inr (.inl (by rw [hans]; exact hr))
      · exact .inr (.inr ⟨by rw [hans]; exact hr, hdone hd⟩)
  · cases hs with
    | enter =>
      have hnew : q = l.nextRequest := Nat.eq_of_lt_succ_of_not_lt hq hlt
      exact .inl (.inl (by rw [hnew]; exact Multiset.mem_cons_self ..))
    | turnAway =>
      have hnew : q = l.nextRequest := Nat.eq_of_lt_succ_of_not_lt hq hlt
      exact .inr (.inl (by simp [hnew]))
    | _ => exact absurd hq hlt

theorem Ok.step (h : Ok l) (hs : Step l d l') : Ok l' where
  once := h.step_once hs
  waiting := fun _ => h.step_waiting hs
  handing := fun q r hh => by
    obtain ⟨⟨hlt, hans, hgranted, hfinisher, hfin, hnot⟩, hne⟩ := h.step_handing hs hh
    exact ⟨hlt, hans, hgranted, hfinisher, hfin, hnot, hne⟩
  starting := fun _ _ => h.step_starting hs
  loaded := fun _ _ => h.step_loaded hs
  finisher := fun _ => h.step_finisher hs
  finishes := fun _ => h.step_finishes hs
  sentOnce := h.step_sentOnce hs
  finished := fun _ => h.step_finished hs
  granted := fun _ => h.step_granted hs
  answered := fun _ _ => h.step_answered hs
  accounted := h.step_accounted hs

/-- The books are in order in every run. -/
theorem ok (h : system.Reachable l) : Ok l := by
  refine h.invariant ?_ ?_
  · rintro l rfl
    constructor <;> simp
  · rintro l l' hok ⟨d, hs⟩
    exact hok.step hs

end Ollama.Sched.Ledger
