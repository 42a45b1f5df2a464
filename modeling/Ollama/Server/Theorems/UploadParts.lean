import Mathlib.Logic.Relation
import Ollama.Server.Lemmas.Challenge
import Ollama.Server.Upload

/-!
# Uploads commit complete blobs only

A goroutine returns nil only when it has set the `Hash` of its part, and a goroutine that returns an error makes
`g.Wait` return one. A part that the loop skips has no goroutine, so if the context is done without an error of a
goroutine, `Run` goes on without the part: the commit request is not sent, because the checksum panics. Where this
does not happen, and every challenge can be parsed, `Run` does not panic (`upload_commits_complete`). What it does
then is what the goroutine of a shared upload does (`works_of_run`).
-/

namespace Ollama.Server

open Lib

namespace UploadRun

/-- `g.Wait` returns nil only if no part was skipped, and the challenges can be parsed. -/
def Orderly (s : UploadRun) : RunAct → Prop
  | .wait => s.err = none → ∀ part ∈ s.parts, part.state ≠ .skipped
  | .part _ (.unauthorized challenge _) => parseRegistryChallenge challenge ≠ none
  | .commit (.unauthorized challenge _) => parseRegistryChallenge challenge ≠ none
  | _ => True

end UploadRun

namespace UploadPartsAux

open UploadRun

/-! ## Goroutines -/

/-- The answer is a challenge that cannot be parsed. -/
def Malformed : PartReply → Prop
  | .unauthorized challenge _ => parseRegistryChallenge challenge = none
  | _ => False

theorem retry_started (try_ : Nat) (outer : List Nat) (err : PartErr) :
    PartState.retry try_ outer err ≠ .waiting ∧ PartState.retry try_ outer err ≠ .skipped ∧
      PartState.retry try_ outer err ≠ .returned none := by
  cases err with
  | canceled => exact ⟨nofun, nofun, nofun⟩
  | maxRetriesExceeded => exact ⟨nofun, nofun, nofun⟩
  | other =>
    rw [PartState.retry]
    split
    · exact ⟨nofun, nofun, nofun⟩
    · exact ⟨nofun, nofun, nofun⟩

/-- The part of a goroutine is in another state, and has its `Hash` if the goroutine returns nil. -/
def Moved (s : UploadRun) (i : Nat) (part : UploadPart) (s' : UploadRun) : Prop :=
  ∃ nextURL hash state, state ≠ .waiting ∧ state ≠ .skipped ∧ (part.hash = true → hash = true) ∧
    (state = .returned none → hash = true) ∧ s' = { s with nextURL }.setState i { part with hash } state

/-- A goroutine that does not return nil. -/
theorem moved_state {s : UploadRun} (i : Nat) (part : UploadPart) (nextURL : Bool) {state : PartState}
    (hwaiting : state ≠ .waiting) (hskipped : state ≠ .skipped) (hnil : state ≠ .returned none) :
    Moved s i part ({ s with nextURL }.setState i part state) :=
  ⟨nextURL, part.hash, state, hwaiting, hskipped, id, fun hc => absurd hc hnil, rfl⟩

theorem moved_retry {s : UploadRun} (i : Nat) (part : UploadPart) (try_ : Nat) (outer : List Nat) (err : PartErr) :
    Moved s i part (s.setState i part (.retry try_ outer err)) := by
  obtain ⟨hwaiting, hskipped, hnil⟩ := retry_started try_ outer err
  exact moved_state i part s.nextURL hwaiting hskipped hnil

/-- What a step of a goroutine does: it panics on a challenge, or its part is in another state. -/
theorem stepPart_cases {s s' : UploadRun} {i : Nat} {part : UploadPart} {a : PartReply}
    (h : s.stepPart i part a = some s') :
    part.state.runs = true ∧ (Malformed a ∧ s' = { s with run := .panicked } ∨ Moved s i part s') := by
  rw [stepPart] at h
  cases hstate : part.state with
  | waiting | skipped | returned err => simp [hstate] at h
  | request try_ outer =>
    refine ⟨rfl, ?_⟩
    simp only [hstate] at h
    cases a with
    | ok =>
      obtain rfl := Option.some.inj h
      refine .inr (moved_state i part s.nextURL ?_ ?_ ?_)
      all_goals split <;> exact nofun
    | redirect =>
      obtain rfl := Option.some.inj h
      exact .inr (moved_state i part s.nextURL nofun nofun nofun)
    | unauthorized challenge err =>
      dsimp only at h
      split at h
      · rename_i hparse
        exact .inl ⟨hparse, (Option.some.inj h).symm⟩
      · obtain ⟨-, heq⟩ := Option.ite_none_right_eq_some.1 h
        obtain rfl := Option.some.inj heq
        exact .inr (moved_retry i part try_ outer _)
    | error err =>
      obtain ⟨-, heq⟩ := Option.ite_none_right_eq_some.1 h
      obtain rfl := Option.some.inj heq
      exact .inr (moved_retry i part try_ outer err)
  | sendRedirect try_ outer =>
    simp only [hstate] at h
    obtain ⟨-, heq⟩ := Option.ite_none_left_eq_some.1 h
    obtain rfl := Option.some.inj heq
    exact ⟨rfl, .inr (moved_state i part true nofun nofun nofun)⟩
  | location try_ outer =>
    refine ⟨rfl, .inr ?_⟩
    simp only [hstate] at h
    split at h
    · obtain rfl := Option.some.inj h
      exact moved_state i part s.nextURL nofun nofun nofun
    · obtain rfl := Option.some.inj h
      exact moved_retry i part try_ outer .other
    · nomatch h
  | sendNext =>
    simp only [hstate] at h
    obtain ⟨-, heq⟩ := Option.ite_none_left_eq_some.1 h
    obtain rfl := Option.some.inj heq
    exact ⟨rfl, .inr (moved_state i part true nofun nofun nofun)⟩
  | setHash =>
    simp only [hstate] at h
    obtain rfl := Option.some.inj h
    exact ⟨rfl, .inr ⟨s.nextURL, true, .returned none, nofun, nofun, fun _ => rfl, fun _ => rfl, rfl⟩⟩

/-! ## `Run` -/

/-- What holds in any run: a goroutine that has returned nil has set the `Hash`, one that has returned an error has
left one, the parts before that of the loop have been come to, and after `g.Wait` a part is sent or was skipped. -/
structure Inv (s : UploadRun) : Prop where
  hashed : ∀ part ∈ s.parts, part.state = .returned none → part.hash = true
  failed : s.err = none → ∀ part ∈ s.parts, ∀ err, part.state ≠ .returned (some err)
  started : ∀ i, s.run = .part i ∨ s.run = .go i → ∀ j < i, ∀ part, s.parts[j]? = some part → part.state ≠ .waiting
  waited : s.run = .receive ∨ s.run = .checksum → ∀ part ∈ s.parts, part.state = .returned none ∨ part.state = .skipped
  committed : (s.sent = true ∨ ∃ try_ again, s.run = .commit try_ again) → ∀ part ∈ s.parts, part.hash = true

/-- `Run` goes on to where nothing more is asked for. -/
theorem Inv.goes {s : UploadRun} (h : Inv s) {run : RunState} {nextURL cancelled : Bool}
    (hpart : ∀ i, run ≠ .part i ∧ run ≠ .go i) (hwaited : run ≠ .receive ∧ run ≠ .checksum)
    (hcommit : ∀ try_ again, run ≠ .commit try_ again) :
    Inv { s with run, nextURL, cancelled } where
  hashed := h.hashed
  failed := h.failed
  started i hi := absurd hi (not_or.2 (hpart i))
  waited hw := absurd hw (not_or.2 hwaited)
  committed hc := h.committed (hc.elim .inl fun ⟨try_, again, heq⟩ => absurd heq (hcommit try_ again))

/-- The loop comes to the next part. -/
theorem Inv.start {s : UploadRun} (h : Inv s) {i : Nat} (hrun : s.run = .part i ∨ s.run = .go i) {part : UploadPart}
    (hpart : s.parts[i]? = some part) {state : PartState} (hstate : state ≠ .waiting ∧ ∀ err, state ≠ .returned err) :
    Inv ({ s with run := .part (i + 1) }.setPart i { part with state }) where
  hashed part' hpart' hnil := by
    rcases List.mem_or_eq_of_mem_set hpart' with hmem | rfl
    · exact h.hashed part' hmem hnil
    · exact absurd hnil (hstate.2 none)
  failed herr part' hpart' err := by
    rcases List.mem_or_eq_of_mem_set hpart' with hmem | rfl
    · exact h.failed herr part' hmem err
    · exact hstate.2 (some err)
  started k hk j hj part' hpart' := by
    have hki : k = i + 1 := by
      rcases hk with hk | hk
      · exact (RunState.part.inj hk).symm
      · nomatch hk
    subst hki
    by_cases hij : i = j
    · subst hij
      rw [UploadRun.setPart, List.getElem?_set_self (List.getElem?_eq_some_iff.1 hpart).1] at hpart'
      obtain rfl := Option.some.inj hpart'
      exact hstate.1
    · rw [UploadRun.setPart, List.getElem?_set_ne hij] at hpart'
      exact h.started i hrun j (by omega) part' hpart'
  waited hw := by
    rcases hw with hw | hw <;> nomatch hw
  committed hc part' hpart' := by
    rcases hc with hsent | ⟨try_, again, heq⟩
    · rcases List.mem_or_eq_of_mem_set hpart' with hmem | rfl
      · exact h.committed (.inl hsent) part' hmem
      · exact h.committed (.inl hsent) part (List.mem_of_getElem? hpart)
    · nomatch heq

/-- A goroutine steps. -/
theorem Inv.moved {s s' : UploadRun} (h : Inv s) {i : Nat} {part : UploadPart} (hpart : s.parts[i]? = some part)
    (hruns : part.state.runs = true) (hmoved : Moved s i part s') : Inv s' := by
  obtain ⟨nextURL, hash, state, hwaiting, hskipped, hkeep, hnil, rfl⟩ := hmoved
  have hmem := List.mem_of_getElem? hpart
  refine ⟨?_, ?_, ?_, ?_, ?_⟩
  · intro part' hpart' hreturned
    rcases List.mem_or_eq_of_mem_set hpart' with hmem' | rfl
    · exact h.hashed part' hmem' hreturned
    · exact hnil hreturned
  · intro herr part' hpart' err
    simp only [setState, setPart] at herr
    rcases List.mem_or_eq_of_mem_set hpart' with hmem' | rfl
    · refine h.failed ?_ part' hmem' err
      split at herr
      · assumption
      · exact herr
    · rintro rfl
      cases hs : s.err <;> simp [hs] at herr
  · intro k hk j hj part' hpart'
    by_cases hij : i = j
    · subst hij
      simp only [setState, setPart] at hpart'
      rw [List.getElem?_set_self (List.getElem?_eq_some_iff.1 hpart).1] at hpart'
      obtain rfl := Option.some.inj hpart'
      exact hwaiting
    · simp only [setState, setPart] at hpart'
      rw [List.getElem?_set_ne hij] at hpart'
      exact h.started k hk j hj part' hpart'
  · -- After `g.Wait` no goroutine runs.
    intro hw
    rcases h.waited hw part hmem with hstate | hstate <;> rw [hstate] at hruns <;> nomatch hruns
  · intro hc part' hpart'
    rcases List.mem_or_eq_of_mem_set hpart' with hmem' | rfl
    · exact h.committed hc part' hmem'
    · exact hkeep (h.committed hc part hmem)

/-- A try of the commit request. -/
theorem Inv.tried {s : UploadRun} (h : Inv s) (hall : ∀ part ∈ s.parts, part.hash = true) {run : RunState}
    (hpart : ∀ i, run ≠ .part i ∧ run ≠ .go i) (hwaited : run ≠ .receive ∧ run ≠ .checksum) :
    Inv { s with run, sent := true } where
  hashed := h.hashed
  failed := h.failed
  started i hi := absurd hi (not_or.2 (hpart i))
  waited hw := absurd hw (not_or.2 hwaited)
  committed _ := hall

/-- What a try of the commit request does. -/
theorem stepCommit_cases {s s' : UploadRun} {try_ : Nat} {again : Bool} {a : PartReply}
    (h : s.stepCommit try_ again a = some s') :
    (Malformed a ∧ s' = { s with run := .panicked, sent := true }) ∨
      ∃ run, ((∃ try_ again, run = .commit try_ again) ∨ ∃ err, run = .finish err) ∧
        s' = { s with run, sent := true } := by
  have hretry : ∀ err, some (({ s with sent := true } : UploadRun).retryCommit try_ err) = some s' →
      ∃ run, ((∃ try_ again, run = .commit try_ again) ∨ ∃ err, run = .finish err) ∧
      s' = { s with run, sent := true } := by
    intro err heq
    obtain rfl := Option.some.inj heq
    rw [retryCommit]
    split
    · exact ⟨_, .inr ⟨_, rfl⟩, rfl⟩
    · split
      · exact ⟨_, .inl ⟨_, _, rfl⟩, rfl⟩
      · exact ⟨_, .inr ⟨_, rfl⟩, rfl⟩
  unfold UploadRun.stepCommit at h
  dsimp only at h
  cases a with
  | ok | redirect => exact .inr ⟨_, .inr ⟨_, rfl⟩, (Option.some.inj h).symm⟩
  | unauthorized challenge err =>
    dsimp only at h
    split at h
    · rename_i hparse
      exact .inl ⟨hparse, (Option.some.inj h).symm⟩
    · cases err with
      | some err =>
        obtain ⟨-, heq⟩ := Option.ite_none_right_eq_some.1 h
        exact .inr (hretry err heq)
      | none =>
        simp only at h
        split at h
        · exact .inr (hretry .other h)
        · exact .inr ⟨_, .inl ⟨_, _, rfl⟩, (Option.some.inj h).symm⟩
  | error err =>
    obtain ⟨-, heq⟩ := Option.ite_none_right_eq_some.1 h
    exact .inr (hretry err heq)

/-- What holds where every `g.Wait` is orderly: after it every part is sent. -/
structure Clean (s : UploadRun) : Prop where
  running : s.run ≠ .panicked
  complete : s.run = .receive ∨ s.run = .checksum → ∀ part ∈ s.parts, part.state = .returned none

/-- `Run` is not between `g.Wait` and the checksum. -/
theorem Clean.elsewhere {s : UploadRun} (hpanic : s.run ≠ .panicked)
    (hwaited : s.run ≠ .receive ∧ s.run ≠ .checksum) : Clean s :=
  ⟨hpanic, fun hw => absurd hw (not_or.2 hwaited)⟩

/-- A goroutine steps: it does not run after `g.Wait`. -/
theorem Clean.moved {s s' : UploadRun} (hinv : Inv s) (h : Clean s) {i : Nat} {part : UploadPart}
    (hpart : s.parts[i]? = some part) (hruns : part.state.runs = true) (hmoved : Moved s i part s') : Clean s' := by
  obtain ⟨nextURL, hash, state, -, -, -, -, rfl⟩ := hmoved
  refine ⟨h.running, fun hw => ?_⟩
  rcases hinv.waited hw part (List.mem_of_getElem? hpart) with hstate |
    hstate <;> rw [hstate] at hruns <;> nomatch hruns

/-- Every act keeps what holds in any run, and, if it is orderly, what holds where every act is. -/
theorem act_keeps {s s' : UploadRun} {a : RunAct} (h : Inv s) (hact : s.act a = some s') :
    Inv s' ∧ (Orderly s a → Clean s → Clean s') := by
  unfold UploadRun.act at hact
  split at hact
  · nomatch hact
  · -- `cancel`
    obtain rfl := Option.some.inj hact
    exact ⟨⟨h.hashed, h.failed, h.started, h.waited, h.committed⟩, fun _ hclean => ⟨hclean.running, hclean.complete⟩⟩
  · -- `openFile`
    rename_i ok hrun
    obtain rfl := Option.some.inj hact
    cases ok with
    | true =>
      refine ⟨⟨h.hashed, h.failed, ?_, nofun, ?_⟩, fun _ _ => .elsewhere nofun ⟨nofun, nofun⟩⟩
      · intro i hi j hj
        rcases hi with hi | hi
        · obtain rfl := RunState.part.inj hi
          nomatch hj
        · nomatch hi
      · rintro (hsent | ⟨_, _, hc⟩)
        · exact h.committed (.inl hsent)
        · nomatch hc
    | false => exact ⟨h.goes (fun _ => ⟨nofun, nofun⟩) ⟨nofun, nofun⟩ (fun _ _ => nofun),
        fun _ _ => .elsewhere nofun ⟨nofun, nofun⟩⟩
  · -- `skip`
    rename_i i hrun
    obtain ⟨part, hpart, hact⟩ := Option.bind_eq_some_iff.1 hact
    obtain ⟨-, heq⟩ := Option.ite_none_right_eq_some.1 hact
    obtain rfl := Option.some.inj heq
    exact ⟨h.start (.inl hrun) hpart ⟨nofun, fun _ => nofun⟩, fun _ _ => .elsewhere nofun ⟨nofun, nofun⟩⟩
  · -- `take`
    rename_i i hrun
    obtain ⟨-, heq⟩ := Option.ite_none_right_eq_some.1 hact
    obtain rfl := Option.some.inj heq
    refine ⟨⟨h.hashed, h.failed, ?_, nofun, ?_⟩, fun _ _ => .elsewhere nofun ⟨nofun, nofun⟩⟩
    · intro k hk
      rcases hk with hk | hk
      · nomatch hk
      · obtain rfl := RunState.go.inj hk
        exact h.started i (.inl hrun)
    · rintro (hsent | ⟨_, _, hc⟩)
      · exact h.committed (.inl hsent)
      · nomatch hc
  · -- `go`
    rename_i i hrun
    obtain ⟨part, hpart, hact⟩ := Option.bind_eq_some_iff.1 hact
    obtain ⟨-, heq⟩ := Option.ite_none_right_eq_some.1 hact
    obtain rfl := Option.some.inj heq
    exact ⟨h.start (.inr hrun) hpart ⟨nofun, fun _ => nofun⟩, fun _ _ => .elsewhere nofun ⟨nofun, nofun⟩⟩
  · -- `part`
    rename_i i a _
    obtain ⟨part, hpart, hstep⟩ := Option.bind_eq_some_iff.1 hact
    obtain ⟨hruns, ⟨hmalformed, rfl⟩ | hmoved⟩ := stepPart_cases hstep
    · refine ⟨h.goes (fun _ => ⟨nofun, nofun⟩) ⟨nofun, nofun⟩ (fun _ _ => nofun), fun horderly _ => ?_⟩
      cases a with
      | unauthorized challenge err => exact absurd hmalformed horderly
      | ok | redirect | error err => exact hmalformed.elim
    · exact ⟨h.moved hpart hruns hmoved, fun _ hclean => hclean.moved h hpart hruns hmoved⟩
  · -- `wait`
    rename_i i hrun
    obtain ⟨⟨rfl, hidle⟩, heq⟩ := Option.ite_none_right_eq_some.1 hact
    obtain rfl := Option.some.inj heq
    rcases Option.eq_none_or_eq_some s.err with herr | ⟨err, herr⟩
    · have hrun' : RunState.afterWait s.err = .receive := by rw [herr, RunState.afterWait]
      rw [hrun']
      have hwaited : ∀ part ∈ s.parts, part.state = .returned none ∨ part.state = .skipped := by
        intro part hmem
        obtain ⟨j, hj, hpart⟩ := List.getElem_of_mem hmem
        have hstarted := h.started _ (.inl hrun) j hj part (by rw [List.getElem?_eq_getElem hj, hpart])
        have hfailed := h.failed herr part hmem
        have hruns := hidle part hmem
        cases hstate : part.state with
        | waiting => exact absurd hstate hstarted
        | skipped => exact .inr rfl
        | returned err =>
          cases err with
          | none => exact .inl rfl
          | some err => exact absurd hstate (hfailed err)
        | request | sendRedirect | location | sendNext | setHash => simp [hstate, PartState.runs] at hruns
      refine ⟨⟨h.hashed, fun _ => h.failed herr,
        by simp, fun _ => hwaited, by simpa using fun hsent => h.committed (.inl hsent)⟩, ?_⟩
      refine fun horderly _ => ⟨nofun, fun _ part hmem => ?_⟩
      exact (hwaited part hmem).resolve_right (horderly herr part hmem)
    · have hrun' : RunState.afterWait s.err = .returned (some err) false := by rw [herr, RunState.afterWait]
      rw [hrun']
      exact ⟨h.goes (fun _ => ⟨nofun, nofun⟩) ⟨nofun, nofun⟩ (fun _ _ => nofun),
        fun _ _ => .elsewhere nofun ⟨nofun, nofun⟩⟩
  · -- `receive`
    rename_i hrun
    obtain ⟨-, heq⟩ := Option.ite_none_right_eq_some.1 hact
    obtain rfl := Option.some.inj heq
    refine ⟨⟨h.hashed, h.failed,
      by simp, fun _ => h.waited (.inl hrun), by simpa using fun hsent => h.committed (.inl hsent)⟩, ?_⟩
    exact fun _ hclean => ⟨nofun, fun _ => hclean.complete (.inl hrun)⟩
  · -- `checksum`
    rename_i hrun
    obtain rfl := Option.some.inj hact
    by_cases hall : ∀ part ∈ s.parts, part.hash = true
    · simp only [if_pos hall]
      refine ⟨⟨h.hashed, h.failed, by simp, by simp, fun _ => hall⟩, fun _ _ => .elsewhere nofun ⟨nofun, nofun⟩⟩
    · simp only [if_neg hall]
      refine ⟨h.goes (fun _ => ⟨nofun, nofun⟩) ⟨nofun, nofun⟩ (fun _ _ => nofun), fun _ hclean => ?_⟩
      exact absurd (fun part hmem => h.hashed part hmem (hclean.complete (.inr hrun) part hmem)) hall
  · -- `commit`
    rename_i a try_ again hrun
    have hall := h.committed (.inr ⟨try_, again, hrun⟩)
    rcases stepCommit_cases hact with ⟨hmalformed, rfl⟩ | ⟨run, hgoes, rfl⟩
    · refine ⟨h.tried hall (fun _ => ⟨nofun, nofun⟩) ⟨nofun, nofun⟩, fun horderly _ => ?_⟩
      cases a with
      | unauthorized challenge err => exact absurd hmalformed horderly
      | ok | redirect | error err => exact hmalformed.elim
    · rcases hgoes with ⟨_, _, rfl⟩ | ⟨_, rfl⟩
      all_goals exact ⟨h.tried hall (fun _ => ⟨nofun, nofun⟩) ⟨nofun, nofun⟩,
        fun _ _ => .elsewhere nofun ⟨nofun, nofun⟩⟩
  · -- `finish`
    obtain rfl := Option.some.inj hact
    exact ⟨h.goes (fun _ => ⟨nofun, nofun⟩) ⟨nofun, nofun⟩ (fun _ _ => nofun),
      fun _ _ => .elsewhere nofun ⟨nofun, nofun⟩⟩
  · nomatch hact

theorem inv_init {s : UploadRun} (h : uploadRun.init s) : Inv s := by
  obtain ⟨n, nextURL, rfl, -⟩ := h
  have hwaiting : ∀ part ∈ List.replicate n ({} : UploadPart), part.state = .waiting := by
    intro part hmem
    rw [(List.mem_replicate.1 hmem).2]
  refine ⟨fun part hmem hnil => ?_, fun _ part hmem err hret => ?_, by simp, by simp, by simp⟩
  · rw [hwaiting part hmem] at hnil
    nomatch hnil
  · rw [hwaiting part hmem] at hret
    nomatch hret

theorem reachable_inv {G : UploadRun → RunAct → Prop} {s : UploadRun} (h : (uploadRun.guarded G).Reachable s) :
    Inv s := by
  refine h.invariant (I := Inv) (fun _ => inv_init) ?_
  rintro s s' hinv ⟨a, -, hact⟩
  exact (act_keeps hinv hact).1

theorem reachable_clean {s : UploadRun} (h : (uploadRun.guarded Orderly).Reachable s) : Clean s := by
  have hboth : Inv s ∧ Clean s := by
    refine h.invariant (I := fun s => Inv s ∧ Clean s) ?_ ?_
    · intro s hs
      refine ⟨inv_init hs, ?_⟩
      obtain ⟨n, nextURL, rfl, -⟩ := hs
      exact .elsewhere nofun ⟨nofun, nofun⟩
    · rintro s s' ⟨hinv, hclean⟩ ⟨a, horderly, hact⟩
      obtain ⟨hinv', hkeeps⟩ := act_keeps hinv hact
      exact ⟨hinv', hkeeps horderly hclean⟩
  exact hboth.2

end UploadPartsAux

open UploadPartsAux in
/-- **A run in which `g.Wait` returns nil only if no part was skipped, and every challenge can be parsed, never
panics; and no run sends the commit request before every part has its `Hash`.** -/
theorem upload_commits_complete (s : UploadRun) :
    ((uploadRun.guarded UploadRun.Orderly).Reachable s → s.run ≠ .panicked) ∧
      (uploadRun.system.Reachable s → s.sent = true → ∀ part ∈ s.parts, part.hash = true) :=
  ⟨fun h => (reachable_clean h).running, fun h hsent => (reachable_inv h).committed (.inl hsent)⟩

/-! ## Two parts -/

instance decidableOrderlyRun : ∀ (s : UploadRun) (a : RunAct), Decidable (s.Orderly a)
  | s, .wait => inferInstanceAs (Decidable (s.err = none → ∀ part ∈ s.parts, part.state ≠ .skipped))
  | _, .part _ (.unauthorized challenge _) => inferInstanceAs (Decidable (parseRegistryChallenge challenge ≠ none))
  | _, .commit (.unauthorized challenge _) => inferInstanceAs (Decidable (parseRegistryChallenge challenge ≠ none))
  | _, .part _ .ok | _, .part _ .redirect | _, .part _ (.error _) => isTrue trivial
  | _, .commit .ok | _, .commit .redirect | _, .commit (.error _) => isTrue trivial
  | _, .cancel | _, .openFile _ | _, .skip | _, .take | _, .go | _, .receive | _, .checksum | _,
      .finish => isTrue trivial

/-- An upload of two parts that was prepared. -/
def twoParts : UploadRun := ⟨[{}, {}], .openFile, true, false, none, false⟩

theorem twoParts_init : uploadRun.init twoParts := ⟨2, true, rfl, nofun⟩

/-- The first part is sent with a PATCH request, the second is redirected, and its first PUT request fails; then the
upload is committed. -/
def redirected : List RunAct :=
  [.openFile true, .take, .go, .part 0 .ok, .part 0 .ok, .take, .part 0 .ok, .go, .part 1 .redirect, .part 1 .ok,
    .part 1 .ok,
    .part 1 (.error .other), .part 1 .ok, .part 1 .ok, .wait, .receive, .checksum, .commit .ok, .finish]

/-- The upload is cancelled when the first part has been sent: the second is skipped. -/
def cancelledBetween : List RunAct :=
  [.openFile true, .take, .go, .part 0 .ok, .part 0 .ok, .part 0 .ok, .cancel, .skip, .wait, .receive, .checksum]

theorem upload_commits_two : ∃ s, uploadRun.system.Reachable s ∧ s.run = .returned none true ∧ s.run ≠ .panicked ∧
    ∀ part ∈ s.parts, part.hash = true := by
  obtain ⟨s, hs⟩ : ∃ s, uploadRun.runGuarded UploadRun.Orderly twoParts redirected = some s :=
    Option.isSome_iff_exists.1 (by decide +kernel)
  have hreach : (uploadRun.guarded UploadRun.Orderly).Reachable s :=
    Machine.reachable_runGuarded (.init twoParts_init) hs
  have hend : (uploadRun.runGuarded UploadRun.Orderly twoParts redirected).map (fun s => (s.run, s.sent)) =
      some (.returned none true, true) := by decide +kernel
  rw [hs] at hend
  obtain ⟨hrun, hsent⟩ := Prod.mk.inj (Option.some.inj hend)
  have hall : uploadRun.system.Reachable s := Machine.Reachable.mono (fun _ _ _ => trivial) hreach
  exact ⟨s, hall, hrun, (upload_commits_complete s).1 hreach, (upload_commits_complete s).2 hall hsent⟩

/-- With one part sent and the other skipped, no goroutine has failed, and the checksum panics. -/
theorem upload_panics : ∃ s, uploadRun.system.Reachable s ∧ s.run = .panicked := by
  obtain ⟨s, hs⟩ : ∃ s, uploadRun.run twoParts cancelledBetween = some s :=
    Option.isSome_iff_exists.1 (by decide +kernel)
  have hend : (uploadRun.run twoParts cancelledBetween).map UploadRun.run = some .panicked := by decide +kernel
  rw [hs] at hend
  exact ⟨s, Machine.reachable_run (.init twoParts_init) hs, Option.some.inj hend⟩

/-! ## The goroutine of a shared upload -/

/-- The error, as the calls tell it apart. -/
def PartErr.upload : PartErr → UploadErr
  | .canceled => .canceled
  | .maxRetriesExceeded | .other => .other

/-- Where the goroutine stands for the calls. A panic ends the process. -/
def RunState.worker : RunState → UploadWorker
  | .openFile => .openFile
  | .part _ | .go _ => .parts
  | .receive => .receive
  | .checksum | .commit _ _ => .commit
  | .finish err => .setErr (err.map PartErr.upload)
  | .returned (some err) false => .fail err.upload
  | .returned _ _ => .delete
  | .panicked => .over

/-- The goroutine of the upload stands where the run does. -/
structure RunsAs (s : UploadRun) (b : Upload) : Prop where
  worker : b.worker = some s.run.worker
  cancelled : b.cancelled = s.cancelled
  /-- an upload that was mounted has neither a URL nor parts -/
  mounted : b.nextURL = false → s.nextURL = false ∧ s.parts = []
  failed : s.err ≠ none → b.nextURL = true
  canceled : s.err = some .canceled → s.cancelled = true
  returned : ∀ err, s.run = .returned err true → b.done = true ∧ b.err = err.map PartErr.upload

/-- The goroutine of an upload steps, or its `CancelFunc` is called. -/
def Uploads.Goes (o : Nat) (S S' : Uploads) : Prop :=
  (∃ e, S.work o e = some S') ∨ S' = S.update o (fun b => { b with cancelled := true })

namespace UploadPartsAux

open UploadRun

theorem update_uploads (S : Uploads) (o : Nat) (f : Upload → Upload) : (S.update o f).uploads o = f (S.uploads o) :=
  Function.update_self ..

/-- The loops return `context.Canceled` only for the same. -/
theorem retry_canceled {try_ : Nat} {outer : List Nat} {err : PartErr}
    (h : PartState.retry try_ outer err = .returned (some .canceled)) :
    err = .canceled := by
  cases err with
  | canceled => rfl
  | maxRetriesExceeded => simp [PartState.retry] at h
  | other =>
    rw [PartState.retry] at h
    split at h <;> simp at h

/-- The first error of the group is that of the goroutine. -/
theorem setState_err {s : UploadRun} (i : Nat) (part : UploadPart) {state : PartState} {err : PartErr}
    (hnone : s.err = none) (h : (s.setState i part state).err = some err) : state = .returned (some err) := by
  simp only [setState, setPart, hnone] at h
  split at h
  · exact Option.some.inj h ▸ rfl
  · exact absurd h (by simp)

/-- A goroutine returns `context.Canceled` first only if the context of the upload is done. -/
theorem stepPart_canceled {s s' : UploadRun} {i : Nat} {part : UploadPart} {a : PartReply}
    (h : s.stepPart i part a = some s') (hnone : s.err = none) (herr : s'.err = some .canceled) :
    s.cancelled = true := by
  have hretry : ∀ {try_ outer err}, canHave s.innerDone err = true →
    some (s.setState i part (.retry try_ outer err)) = some s' → s.cancelled = true := by
    intro try_ outer err hcan heq
    obtain rfl := Option.some.inj heq
    obtain rfl := retry_canceled (setState_err i part hnone herr)
    simpa [canHave, innerDone, hnone] using hcan
  have hother : ∀ {nextURL hash state}, state ≠ .returned (some .canceled) →
      some (({ s with nextURL } : UploadRun).setState i { part with hash } state) = some s' → s.cancelled = true := by
    intro nextURL hash state hstate heq
    obtain rfl := Option.some.inj heq
    have hnone' : ({ s with nextURL } : UploadRun).err = none := hnone
    exact absurd (setState_err i { part with hash } hnone' herr) hstate
  rw [stepPart] at h
  cases hstate : part.state with
  | waiting | skipped | returned err => simp [hstate] at h
  | request try_ outer =>
    simp only [hstate] at h
    cases a with
    | ok => exact hother (by split <;> simp) h
    | redirect => exact hother (by simp) h
    | unauthorized challenge err =>
      dsimp only at h
      split at h
      · rw [← Option.some.inj h, hnone] at herr
        simp at herr
      · obtain ⟨hcan, heq⟩ := Option.ite_none_right_eq_some.1 h
        exact hretry hcan heq
    | error err =>
      obtain ⟨hcan, heq⟩ := Option.ite_none_right_eq_some.1 h
      exact hretry hcan heq
  | sendRedirect try_ outer =>
    simp only [hstate] at h
    exact hother (by simp) (Option.ite_none_left_eq_some.1 h).2
  | location try_ outer =>
    simp only [hstate] at h
    split at h
    · exact hother (by simp) h
    · exact hretry rfl h
    · simp at h
  | sendNext =>
    simp only [hstate] at h
    exact hother (by simp) (Option.ite_none_left_eq_some.1 h).2
  | setHash =>
    simp only [hstate] at h
    exact hother (by simp) h

/-- The commit request ends with `context.Canceled` only if the context is done, and it has been sent. -/
theorem stepCommit_canceled {s s' : UploadRun} {try_ : Nat} {again : Bool} {a : PartReply}
    (h : s.stepCommit try_ again a = some s') (hrun : s'.run = .finish (some .canceled)) : s.cancelled = true := by
  have hretry : ∀ {err}, (err = .canceled → s.cancelled = true) →
      some (({ s with sent := true } : UploadRun).retryCommit try_ err) = some s' → s.cancelled = true := by
    intro err hcan heq
    obtain rfl := Option.some.inj heq
    rw [retryCommit] at hrun
    split at hrun
    · rename_i herr
      exact hcan herr
    · split at hrun
      · simp at hrun
      · rename_i herr _
        exact absurd (Option.some.inj (RunState.finish.inj hrun)) herr
  have hcan : ∀ {err}, canHave s.cancelled err = true → err = .canceled → s.cancelled = true := by
    rintro _ hcan rfl
    simpa [canHave] using hcan
  unfold UploadRun.stepCommit at h
  dsimp only at h
  cases a with
  | ok | redirect =>
    rw [← Option.some.inj h] at hrun
    simp at hrun
  | unauthorized challenge err =>
    dsimp only at h
    split at h
    · rw [← Option.some.inj h] at hrun
      simp at hrun
    · cases err with
      | some err =>
        obtain ⟨hhave, heq⟩ := Option.ite_none_right_eq_some.1 h
        exact hretry (hcan hhave) heq
      | none =>
        simp only at h
        split at h
        · exact hretry (by simp) h
        · rw [← Option.some.inj h] at hrun
          simp at hrun
  | error err =>
    obtain ⟨hhave, heq⟩ := Option.ite_none_right_eq_some.1 h
    exact hretry (hcan hhave) heq

/-- `Run` goes on where the goroutine of the calls stays. -/
theorem stays {s : UploadRun} {b : Upload} (h : RunsAs s b) {s' : UploadRun} (hrun : s'.run.worker = s.run.worker)
    (hreturned : ∀ err, s'.run ≠ .returned err true) (hcancelled : s'.cancelled = s.cancelled) (herr : s'.err = s.err)
    (hmounted : b.nextURL = false → s'.nextURL = false ∧ s'.parts = []) : RunsAs s' b :=
  ⟨hrun ▸ h.worker, hcancelled ▸ h.cancelled, hmounted, herr ▸ h.failed, by rw [herr, hcancelled]; exact h.canceled,
    fun err hr => absurd hr (hreturned err)⟩

/-- The goroutine of the calls makes one step. -/
theorem goes {s : UploadRun} {S : Uploads} {o : Nat} (h : RunsAs s (S.uploads o)) {run : RunState} {nextURL sent : Bool}
    (hreturned : ∀ err, run ≠ .returned err true) (hnext : nextURL = true → s.nextURL = true) :
    RunsAs { s with run, nextURL, sent } ((S.update o (fun b => { b with worker := some run.worker })).uploads o) := by
  rw [update_uploads]
  refine ⟨rfl, h.cancelled, fun hmounted => ?_, h.failed, h.canceled, fun err hr => absurd hr (hreturned err)⟩
  obtain ⟨hno, hparts⟩ := h.mounted hmounted
  refine ⟨?_, hparts⟩
  cases nextURL with
  | false => rfl
  | true => exact absurd (hnext rfl) (by simp [hno])

/-- Every step of the run is one of the goroutine of the calls or two, or none, and the blob is delivered only by the
commit request. -/
theorem runsAs_act {s s' : UploadRun} {S : Uploads} {o : Nat} {a : RunAct} (h : RunsAs s (S.uploads o))
    (hact : s.act a = some s') (hsane : s'.run ≠ .panicked) :
    ∃ S', Relation.ReflTransGen (Uploads.Goes o) S S' ∧ RunsAs s' (S'.uploads o) ∧
      (S'.delivered = S.delivered ∨ s'.sent = true) := by
  have hworker := h.worker
  have hnoparts : ∀ {i : Nat} {part : UploadPart} {P : Prop}, s.parts[i]? = some part →
    (S.uploads o).nextURL = false → P := by
    intro i part P hpart hmounted
    rw [(h.mounted hmounted).2] at hpart
    simp at hpart
  unfold UploadRun.act at hact
  split at hact
  · simp at hact
  · -- `cancel`
    obtain rfl := Option.some.inj hact
    refine ⟨_, .single (.inr rfl), ?_, .inl rfl⟩
    rw [update_uploads]
    exact ⟨h.worker, rfl, h.mounted, h.failed, fun _ => rfl, h.returned⟩
  · -- `openFile`
    rename_i ok hrun
    obtain rfl := Option.some.inj hact
    rw [hrun] at hworker
    cases ok with
    | true =>
      have hwork : S.work o .ok = some (S.update o (fun b => { b with worker := some (RunState.part 0).worker })) := by
        simp [Uploads.work, hworker, RunState.worker]
      exact ⟨_, .single (.inl ⟨_, hwork⟩), goes h nofun id, .inl rfl⟩
    | false =>
      have hwork : S.work o (.fail .other) =
          some (S.update o (fun b => { b with worker := some (RunState.returned (some .other) false).worker })) := by
        simp [Uploads.work, hworker, RunState.worker, PartErr.upload]
      exact ⟨_, .single (.inl ⟨_, hwork⟩), goes h (by simp) id, .inl rfl⟩
  · -- `skip`
    rename_i i hrun
    obtain ⟨part, hpart, hact⟩ := Option.bind_eq_some_iff.1 hact
    obtain ⟨-, heq⟩ := Option.ite_none_right_eq_some.1 hact
    obtain rfl := Option.some.inj heq
    exact ⟨S, .refl, stays h (by simp [setPart, hrun, RunState.worker]) (by simp [setPart]) rfl rfl
      (hnoparts hpart), .inl rfl⟩
  · -- `take`
    rename_i i hrun
    obtain ⟨-, heq⟩ := Option.ite_none_right_eq_some.1 hact
    obtain rfl := Option.some.inj heq
    exact ⟨S, .refl, stays h (by simp [hrun, RunState.worker]) (by simp) rfl rfl
      (fun hm => ⟨rfl, (h.mounted hm).2⟩), .inl rfl⟩
  · -- `go`
    rename_i i hrun
    obtain ⟨part, hpart, hact⟩ := Option.bind_eq_some_iff.1 hact
    obtain ⟨-, heq⟩ := Option.ite_none_right_eq_some.1 hact
    obtain rfl := Option.some.inj heq
    exact ⟨S, .refl, stays h (by simp [setPart, hrun, RunState.worker]) (by simp [setPart]) rfl rfl
      (hnoparts hpart), .inl rfl⟩
  · -- `part`
    rename_i i a _
    obtain ⟨part, hpart, hstep⟩ := Option.bind_eq_some_iff.1 hact
    have hcanceled := stepPart_canceled hstep
    obtain ⟨-, ⟨-, rfl⟩ | ⟨nextURL, hash, state, -, -, -, -, rfl⟩⟩ := stepPart_cases hstep
    · exact absurd rfl hsane
    · refine ⟨S, .refl, ⟨h.worker, h.cancelled, hnoparts hpart, fun _ => ?_, fun herr => ?_, h.returned⟩, .inl rfl⟩
      · cases hurl : (S.uploads o).nextURL with
        | true => rfl
        | false => exact (hnoparts (P := False) hpart hurl).elim
      · cases hnone : s.err with
        | none => exact hcanceled hnone herr
        | some err =>
          simp only [setState, setPart, hnone] at herr
          exact h.canceled (hnone.trans herr)
  · -- `wait`
    rename_i i hrun
    obtain ⟨-, heq⟩ := Option.ite_none_right_eq_some.1 hact
    obtain rfl := Option.some.inj heq
    rw [hrun] at hworker
    rcases Option.eq_none_or_eq_some s.err with herr | ⟨err, herr⟩
    · have hwork : S.work o .ok =
        some (S.update o (fun b => { b with worker := some (RunState.afterWait s.err).worker })) := by
        simp [Uploads.work, hworker, herr, RunState.worker, RunState.afterWait]
      have hreturned : ∀ err, RunState.afterWait s.err ≠ .returned err true := by simp [herr, RunState.afterWait]
      exact ⟨_, .single (.inl ⟨_, hwork⟩), goes h hreturned id, .inl rfl⟩
    · have hurl : (S.uploads o).nextURL = true := h.failed (by simp [herr])
      have hdone : err.upload = .canceled → (S.uploads o).cancelled = true := by
        intro hcan
        cases err with
        | canceled => exact h.cancelled.trans (h.canceled herr)
        | maxRetriesExceeded | other => simp [PartErr.upload] at hcan
      have hwork : S.work o (.fail err.upload) =
          some (S.update o (fun b => { b with worker := some (RunState.afterWait s.err).worker })) := by
        simpa [Uploads.work, hworker, herr, RunState.worker, RunState.afterWait, hurl] using hdone
      have hreturned : ∀ err', RunState.afterWait s.err ≠ .returned err' true := by simp [herr, RunState.afterWait]
      exact ⟨_, .single (.inl ⟨_, hwork⟩), goes h hreturned id, .inl rfl⟩
  · -- `receive`
    rename_i hrun
    obtain ⟨hnext, heq⟩ := Option.ite_none_right_eq_some.1 hact
    obtain rfl := Option.some.inj heq
    rw [hrun] at hworker
    have hurl : (S.uploads o).nextURL = true := by
      by_contra hno
      exact absurd hnext (by simp [(h.mounted (Bool.not_eq_true _ ▸ hno)).1])
    have hwork : S.work o .ok = some (S.update o (fun b => { b with worker := some RunState.checksum.worker })) := by
      simp [Uploads.work, hworker, RunState.worker, hurl]
    exact ⟨_, .single (.inl ⟨_, hwork⟩), goes h (by simp) (by simp), .inl rfl⟩
  · -- `checksum`
    rename_i hrun
    obtain rfl := Option.some.inj hact
    by_cases hall : ∀ part ∈ s.parts, part.hash = true
    · simp only [if_pos hall]
      exact ⟨S, .refl, stays h (by simp [hrun, RunState.worker]) (by simp) rfl rfl h.mounted, .inl rfl⟩
    · exact absurd (if_neg hall) hsane
  · -- `commit`
    rename_i a try_ again hrun
    rw [hrun] at hworker
    have hcanceled := stepCommit_canceled hact
    obtain ⟨-, rfl⟩ | ⟨run, ⟨try_, again, rfl⟩ | ⟨err, rfl⟩, rfl⟩ := stepCommit_cases hact
    · exact absurd rfl hsane
    · exact ⟨S, .refl, stays h (by simp [hrun, RunState.worker]) (by simp) rfl rfl h.mounted, .inl rfl⟩
    · cases err with
      | none =>
        have hwork : S.work o .ok =
            some ((S.deliver (S.uploads o).repository).update o
            (fun b => { b with worker := some (RunState.finish none).worker })) := by
          simp [Uploads.work, hworker, RunState.worker]
        have hdelivered : RunsAs s ((S.deliver (S.uploads o).repository).uploads o) := h
        exact ⟨_, .single (.inl ⟨_, hwork⟩), goes hdelivered (by simp) id, .inr rfl⟩
      | some err =>
        have hdone : err.upload = .canceled → (S.uploads o).cancelled = true := by
          intro hcan
          cases err with
          | canceled => exact h.cancelled.trans (hcanceled rfl)
          | maxRetriesExceeded | other => simp [PartErr.upload] at hcan
        have hwork : S.work o (.fail err.upload) =
            some (S.update o (fun b => { b with worker := some (RunState.finish (some err)).worker })) := by
          simpa [Uploads.work, hworker, RunState.worker] using hdone
        exact ⟨_, .single (.inl ⟨_, hwork⟩), goes h (by simp) id, .inl rfl⟩
  · -- `finish`
    rename_i err hrun
    obtain rfl := Option.some.inj hact
    rw [hrun] at hworker
    have hset : S.work o .ok =
      some (S.update o (fun b => { b with err := err.map PartErr.upload, worker := some .setDone })) := by
      simp [Uploads.work, hworker, RunState.worker]
    generalize hS : S.update o (fun b => { b with err := err.map PartErr.upload, worker := some .setDone }) = S₁ at hset
    have hb : S₁.uploads o = { S.uploads o with err := err.map PartErr.upload, worker := some .setDone } := by
      rw [← hS, update_uploads]
    have hdone : S₁.work o .ok = some (S₁.update o (fun b => { b with done := true, worker := some .delete })) := by
      simp [Uploads.work, hb]
    refine ⟨_, (Relation.ReflTransGen.single (.inl ⟨_, hset⟩)).tail (.inl ⟨_, hdone⟩), ?_, .inl (by rw [← hS]; rfl)⟩
    rw [update_uploads, hb]
    refine ⟨by cases err <;> rfl, h.cancelled, h.mounted, h.failed, h.canceled, fun err' herr' => ?_⟩
    obtain ⟨rfl, -⟩ := RunState.returned.inj herr'
    exact ⟨rfl, rfl⟩
  · simp at hact

/-- Nothing follows a panic. -/
theorem act_sane {s s' : UploadRun} {a : RunAct} (hact : s.act a = some s') : s.run ≠ .panicked := by
  intro hpanic
  unfold UploadRun.act at hact
  split at hact <;> simp_all

/-- A commit request that has been sent stays sent. -/
theorem act_sent {s s' : UploadRun} {a : RunAct} (hact : s.act a = some s') (hsent : s.sent = true) :
    s'.sent = true := by
  unfold UploadRun.act at hact
  split at hact
  · simp at hact
  · exact Option.some.inj hact ▸ hsent
  · exact Option.some.inj hact ▸ hsent
  · obtain ⟨part, -, hact⟩ := Option.bind_eq_some_iff.1 hact
    exact Option.some.inj (Option.ite_none_right_eq_some.1 hact).2 ▸ hsent
  · exact Option.some.inj (Option.ite_none_right_eq_some.1 hact).2 ▸ hsent
  · obtain ⟨part, -, hact⟩ := Option.bind_eq_some_iff.1 hact
    exact Option.some.inj (Option.ite_none_right_eq_some.1 hact).2 ▸ hsent
  · obtain ⟨part, -, hstep⟩ := Option.bind_eq_some_iff.1 hact
    obtain ⟨-, ⟨-, rfl⟩ | ⟨nextURL, hash, state, -, -, -, -, rfl⟩⟩ := stepPart_cases hstep
    · exact hsent
    · exact hsent
  · exact Option.some.inj (Option.ite_none_right_eq_some.1 hact).2 ▸ hsent
  · exact Option.some.inj (Option.ite_none_right_eq_some.1 hact).2 ▸ hsent
  · exact Option.some.inj hact ▸ hsent
  · obtain ⟨-, rfl⟩ | ⟨run, -, rfl⟩ := stepCommit_cases hact
    · rfl
    · rfl
  · exact Option.some.inj hact ▸ hsent
  · simp at hact

/-- It stays sent to the end of a run. -/
theorem run_sent {s s' : UploadRun} {acts : List RunAct} (hrun : uploadRun.run s acts = some s')
    (hsent : s.sent = true) : s'.sent = true := by
  induction acts generalizing s with
  | nil => exact Option.some.inj hrun ▸ hsent
  | cons a acts ih =>
    obtain ⟨s₁, hact, hrun⟩ := Option.bind_eq_some_iff.1 hrun
    exact ih hrun (act_sent hact hsent)

end UploadPartsAux

open UploadPartsAux in
/-- The runs of the parts are runs of the goroutine of a shared upload: where the one starts with the other, what it
does without a panic is what the goroutine does, between the calls of the `CancelFunc`, and it delivers the blob only
when every part has its `Hash`. -/
theorem works_of_run {s s' : UploadRun} {S : Uploads} {o : Nat} {acts : List RunAct}
    (hreach : uploadRun.system.Reachable s) (h : RunsAs s (S.uploads o)) (hrun : uploadRun.run s acts = some s')
    (hsane : s'.run ≠ .panicked) :
    ∃ S', Relation.ReflTransGen (Uploads.Goes o) S S' ∧ RunsAs s' (S'.uploads o) ∧
      (S'.delivered = S.delivered ∨ ∀ part ∈ s'.parts, part.hash = true) := by
  suffices hsent : ∃ S', Relation.ReflTransGen (Uploads.Goes o) S S' ∧ RunsAs s' (S'.uploads o) ∧
      (S'.delivered = S.delivered ∨ s'.sent = true) by
    obtain ⟨S', hgoes, h', hdelivered⟩ := hsent
    have hinv : Inv s' := reachable_inv (Machine.reachable_run hreach hrun)
    exact ⟨S', hgoes, h', hdelivered.imp_right fun hsent => hinv.committed (.inl hsent)⟩
  clear hreach
  induction acts generalizing s S with
  | nil =>
    obtain rfl := Option.some.inj hrun
    exact ⟨S, .refl, h, .inl rfl⟩
  | cons a acts ih =>
    obtain ⟨s₁, hact, hrun⟩ := Option.bind_eq_some_iff.1 hrun
    have hsane₁ : s₁.run ≠ .panicked := by
      cases acts with
      | nil => exact Option.some.inj hrun ▸ hsane
      | cons b acts =>
        obtain ⟨s₂, hact₂, -⟩ := Option.bind_eq_some_iff.1 hrun
        exact act_sane hact₂
    obtain ⟨S₁, hgoes, h₁, hdelivered⟩ := runsAs_act h hact hsane₁
    obtain ⟨S', hgoes', h', hdelivered'⟩ := ih h₁ hrun
    refine ⟨S', hgoes.trans hgoes', h', ?_⟩
    rcases hdelivered' with hsame' | hsent
    · rcases hdelivered with hsame | hsent
      · exact .inl (hsame'.trans hsame)
      · exact .inr (run_sent hrun hsent)
    · exact .inr hsent

/-- The goroutine starts where the run does: `Prepare` has made the parts and put a URL in the channel, or has done
neither. -/
theorem runsAs_start {n : Nat} {nextURL : Bool} (hmounted : nextURL = false → n = 0) {b : Upload}
    (hworker : b.worker = some .openFile) (hnextURL : b.nextURL = nextURL) (hcancelled : b.cancelled = false) :
    RunsAs ⟨List.replicate n {}, .openFile, nextURL, false, none, false⟩ b where
  worker := hworker
  cancelled := hcancelled
  mounted hm := by
    obtain rfl := hnextURL
    exact ⟨hm, by rw [hmounted hm]; rfl⟩
  failed herr := absurd rfl herr
  canceled := nofun
  returned := nofun

end Ollama.Server
