import Ollama.Server.Download
import Mathlib.Data.Multiset.Count
import Mathlib.Data.Multiset.Filter

/-!
# One download and its calls

Downloads do not touch each other, so what holds of a run is said of one download, with the calls that are about it:
`Fair` is kept by every step of one of these calls and of the goroutine.
-/

namespace Ollama.Server

open Lib

/-- The download that a call is about. -/
def CallState.download : CallState → Option Nat
  | .glob o | .prepare o | .delete o _ | .go o | .acquire o | .wait o | .release o _ | .cancel o _ => some o
  | .stat | .loadOrStore | .returned _ _ | .panicked => none

/-- The call prepares the download. -/
def CallState.creates : CallState → Bool
  | .glob _ | .prepare _ | .go _ => true
  | _ => false

/-- The call has failed to prepare the download. -/
def CallState.fails : CallState → Bool
  | .delete _ _ => true
  | _ => false

/-- The call has yet to get a result from the download. -/
def CallState.holds : CallState → Bool
  | .acquire _ | .wait _ => true
  | _ => false

/-- The call is counted in `references`. -/
def CallState.counted : CallState → Bool
  | .wait _ | .release _ _ => true
  | _ => false

/-- The call is about to cancel the download. -/
def CallState.cancels : CallState → Bool
  | .cancel _ _ => true
  | _ => false

/-- `run` has returned, and not because it was cancelled. -/
def Download.Settled (b : Download) : Prop :=
  match b.worker with
  | some (.delete err) | some (.setErr err) => err ≠ some .canceled
  | some .close | some .over => b.err ≠ some .canceled
  | _ => False

instance (b : Download) : Decidable b.Settled := by
  unfold Download.Settled
  split <;> infer_instance

/-- What is known of a download from where its goroutine stands. -/
def Download.Sound (b : Download) : Prop :=
  match b.worker with
  | none => b.cancelFunc = false ∧ b.cancelled = false ∧ b.done ≠ some true
  | some .start => b.cancelFunc = false ∧ b.cancelled = false ∧ b.done = some false
  | some .running => b.done = some false
  | some (.delete err) | some (.setErr err) => b.done = some false ∧ (err = some .canceled → b.cancelled = true)
  | some .close => b.done = some false ∧ (b.err = some .canceled → b.cancelled = true)
  | some .over => b.done = some true ∧ (b.err = some .canceled → b.cancelled = true)
  | some .panicked => False

/-- A download whose calls are served, and not disturbed by each other: `m` are the states of the calls that are about
it, and `managed` says that it is stored in the `blobDownloadManager`. -/
structure Fair (b : Download) (managed : Prop) (m : Multiset CallState) : Prop where
  sound : b.Sound
  creators : m.countP (fun st => st.creates) ≤ 1
  started : b.worker ≠ none → ∀ st ∈ m, st.creates = false
  made : ∀ o, .prepare o ∈ m ∨ .go o ∈ m → b.done = some false
  served : b.worker = none → (∃ st ∈ m, st.holds) → ∃ st ∈ m, st.creates
  managed : managed → b.worker = none → ∃ st ∈ m, st.creates ∨ st.fails
  abandoned : (b.cancelled = true ∨ ∃ st ∈ m, st.cancels) → b.cancelFunc = true ∧
    (b.Settled ∨ ∀ st ∈ m, st.holds = false)

/-- The calls that a download counts. -/
def Download.Counts (b : Download) (m : Multiset CallState) : Prop :=
  b.references = (m.countP (fun st => st.counted) : Int)

theorem counts_cons {b : Download} {st : CallState} {m : Multiset CallState} :
    b.Counts (st ::ₘ m) ↔ b.references - (if st.counted then 1 else 0) = (m.countP (fun st => st.counted) : Int) := by
  unfold Download.Counts
  rw [Multiset.countP_cons]
  split <;> push_cast <;> constructor <;> intro h <;> omega

namespace Fair

variable {b : Download} {managed : Prop} {m : Multiset CallState} {o : Nat} {st st' : CallState}

/-- A download that has just been made. -/
theorem new (o : Nat) : Fair {} True {.glob o} where
  sound := ⟨rfl, rfl, nofun⟩
  creators := le_of_eq rfl
  started := fun h => absurd rfl h
  made := by simp
  served := fun _ _ => ⟨_, Multiset.mem_singleton_self _, rfl⟩
  managed := fun _ _ => ⟨_, Multiset.mem_singleton_self _, .inl rfl⟩
  abandoned := by simp [CallState.cancels]

/-- No call is about a download that is not made yet. -/
theorem none : Fair {} False 0 where
  sound := ⟨rfl, rfl, nofun⟩
  creators := Nat.zero_le _
  started := fun h => absurd rfl h
  made := by simp
  served := by simp
  managed := nofun
  abandoned := by simp

/-- The download is taken out of the manager. -/
theorem unmanaged (h : Fair b managed m) : Fair b False m := { h with managed := nofun }

/-- The count is not part of it. -/
theorem setReferences (h : Fair b managed m) (n : Int) : Fair { b with references := n } managed m :=
  ⟨h.sound, h.creators, h.started, h.made, h.served, h.managed, h.abandoned⟩

/-! ## Calls -/

/-- A call moves on, in a way that makes no difference to the others. -/
theorem replace (h : Fair b managed (st ::ₘ m)) (hcreates : st'.creates = st.creates) (hfails : st'.fails = st.fails)
    (hholds : st'.holds = true → st.holds = true) (hcancels : st'.cancels = st.cancels)
    (hmade : ∀ o, st' = .prepare o ∨ st' = .go o → b.done = some false) : Fair b managed (st' ::ₘ m) where
  sound := h.sound
  creators := by
    have hone := h.creators
    rw [Multiset.countP_cons] at hone ⊢
    rwa [hcreates]
  started := by
    intro hw s hs
    rcases Multiset.mem_cons.1 hs with rfl | hs
    · rw [hcreates]
      exact h.started hw st (Multiset.mem_cons_self _ _)
    · exact h.started hw s (Multiset.mem_cons_of_mem hs)
  made := by
    intro o ho
    rcases ho with ho | ho <;> rcases Multiset.mem_cons.1 ho with ho | ho
    · exact hmade o (.inl ho.symm)
    · exact h.made o (.inl (Multiset.mem_cons_of_mem ho))
    · exact hmade o (.inr ho.symm)
    · exact h.made o (.inr (Multiset.mem_cons_of_mem ho))
  served := by
    rintro hw ⟨s, hs, hh⟩
    have hheld : ∃ s ∈ st ::ₘ m, s.holds := by
      rcases Multiset.mem_cons.1 hs with rfl | hs
      · exact ⟨st, Multiset.mem_cons_self _ _, hholds hh⟩
      · exact ⟨s, Multiset.mem_cons_of_mem hs, hh⟩
    obtain ⟨c, hc, hcreate⟩ := h.served hw hheld
    rcases Multiset.mem_cons.1 hc with rfl | hc
    · exact ⟨st', Multiset.mem_cons_self _ _, hcreates.trans hcreate⟩
    · exact ⟨c, Multiset.mem_cons_of_mem hc, hcreate⟩
  managed := by
    intro hm hw
    obtain ⟨c, hc, hcreate⟩ := h.managed hm hw
    rcases Multiset.mem_cons.1 hc with rfl | hc
    · exact ⟨st', Multiset.mem_cons_self _ _, by rwa [hcreates, hfails]⟩
    · exact ⟨c, Multiset.mem_cons_of_mem hc, hcreate⟩
  abandoned := by
    intro hab
    have hab' : b.cancelled = true ∨ ∃ s ∈ st ::ₘ m, s.cancels := by
      rcases hab with hab | ⟨s, hs, hab⟩
      · exact .inl hab
      · rcases Multiset.mem_cons.1 hs with rfl | hs
        · exact .inr ⟨st, Multiset.mem_cons_self _ _, hcancels ▸ hab⟩
        · exact .inr ⟨s, Multiset.mem_cons_of_mem hs, hab⟩
    obtain ⟨hfunc, hsettled | hno⟩ := h.abandoned hab'
    · exact ⟨hfunc, .inl hsettled⟩
    · refine ⟨hfunc, .inr (fun s hs => ?_)⟩
      rcases Multiset.mem_cons.1 hs with rfl | hs
      · by_contra hh
        have := hno st (Multiset.mem_cons_self _ _)
        rw [hholds (by simpa using hh)] at this
        nomatch this
      · exact hno s (Multiset.mem_cons_of_mem hs)

/-- A call is done with the download. -/
theorem drop (h : Fair b managed (st ::ₘ m)) (hcreates : st.creates = false) (hfails : st.fails = true → ¬managed) :
    Fair b managed m where
  sound := h.sound
  creators := by
    have hone := h.creators
    rw [Multiset.countP_cons] at hone
    omega
  started := fun hw s hs => h.started hw s (Multiset.mem_cons_of_mem hs)
  made := fun o ho => h.made o (ho.imp Multiset.mem_cons_of_mem Multiset.mem_cons_of_mem)
  served := by
    rintro hw ⟨s, hs, hh⟩
    obtain ⟨c, hc, hcreate⟩ := h.served hw ⟨s, Multiset.mem_cons_of_mem hs, hh⟩
    rcases Multiset.mem_cons.1 hc with rfl | hc
    · rw [hcreates] at hcreate
      cases hcreate
    · exact ⟨c, hc, hcreate⟩
  managed := by
    intro hm hw
    obtain ⟨c, hc, hcreate⟩ := h.managed hm hw
    rcases Multiset.mem_cons.1 hc with rfl | hc
    · rw [hcreates] at hcreate
      rcases hcreate with hcreate | hfail
      · cases hcreate
      · exact absurd hm (hfails hfail)
    · exact ⟨c, hc, hcreate⟩
  abandoned := by
    intro hab
    obtain ⟨hfunc, hsettled | hno⟩ := h.abandoned
      (hab.imp_right (fun hex => hex.imp (fun s hs => ⟨Multiset.mem_cons_of_mem hs.1, hs.2⟩)))
    · exact ⟨hfunc, .inl hsettled⟩
    · exact ⟨hfunc, .inr (fun s hs => hno s (Multiset.mem_cons_of_mem hs))⟩

/-- A call loads the download. -/
theorem load (h : Fair b managed m) (hm : managed) (hfails : ∀ st ∈ m, st.fails = false)
    (hcancels : (b.cancelled = true ∨ ∃ st ∈ m, st.cancels) → b.Settled) : Fair b managed (.acquire o ::ₘ m) where
  sound := h.sound
  creators := by
    have hnot : ¬(CallState.acquire o).creates = true := Bool.false_ne_true
    rw [Multiset.countP_cons_of_neg (p := fun st : CallState => st.creates = true) _ hnot]
    exact h.creators
  started := by
    intro hw st hst
    rcases Multiset.mem_cons.1 hst with rfl | hst
    · rfl
    · exact h.started hw st hst
  made := by
    intro o' ho'
    refine h.made o' ?_
    simpa using ho'
  served := by
    intro hw _
    obtain ⟨st, hst, hcreates | hfail⟩ := h.managed hm hw
    · exact ⟨st, Multiset.mem_cons_of_mem hst, hcreates⟩
    · rw [hfails st hst] at hfail
      cases hfail
  managed := by
    intro _ hw
    obtain ⟨st, hst, hcreates⟩ := h.managed hm hw
    exact ⟨st, Multiset.mem_cons_of_mem hst, hcreates⟩
  abandoned := by
    intro hab
    have hab' : b.cancelled = true ∨ ∃ st ∈ m, st.cancels := by
      rcases hab with hc | ⟨st, hst, hc⟩
      · exact .inl hc
      · rcases Multiset.mem_cons.1 hst with rfl | hst
        · cases hc
        · exact .inr ⟨st, hst, hc⟩
    exact ⟨(h.abandoned hab').1, .inl (hcancels hab')⟩

/-- A call that prepares the download is the only one that does, and the goroutine is not started. -/
theorem creator (h : Fair b managed (st ::ₘ m)) (hst : st.creates = true) :
    b.worker = .none ∧ (∀ st' ∈ m, st'.creates = false) ∧ b.cancelFunc = false ∧ b.cancelled = false ∧
      b.done ≠ some true := by
  have hw : b.worker = .none := by
    by_contra hw
    rw [h.started hw st (Multiset.mem_cons_self _ _)] at hst
    cases hst
  refine ⟨hw, ?_, ?_⟩
  · intro st' hst'
    have hone := h.creators
    rw [Multiset.countP_cons, if_pos hst] at hone
    have hzero : m.countP (fun st => st.creates) = 0 := by omega
    exact Bool.eq_false_iff.2 (Multiset.countP_eq_zero.1 hzero st' hst')
  · have hsound := h.sound
    unfold Download.Sound at hsound
    rw [hw] at hsound
    exact hsound

/-- The channel is made. -/
theorem glob (h : Fair b managed (.glob o ::ₘ m)) : Fair { b with done := some false } managed (.prepare o ::ₘ m) := by
  obtain ⟨hw, _, hfunc, hcancelled, _⟩ := h.creator rfl
  have h' : Fair { b with done := some false } managed (.glob o ::ₘ m) := by
    refine ⟨?_, h.creators, h.started, fun _ _ => rfl, h.served, h.managed, h.abandoned⟩
    unfold Download.Sound
    simp only [hw]
    exact ⟨hfunc, hcancelled, nofun⟩
  exact h'.replace rfl rfl nofun rfl (fun _ _ => rfl)

/-- `Prepare` succeeds. -/
theorem prepare (h : Fair b managed (.prepare o ::ₘ m)) : Fair b managed (.go o ::ₘ m) :=
  h.replace rfl rfl nofun rfl (fun _ _ => h.made o (.inl (Multiset.mem_cons_self _ _)))

/-- `Prepare` fails while no other call waits for the download. -/
theorem fail (h : Fair b managed (st ::ₘ m)) (hst : st.creates = true) (hholds : ∀ st' ∈ m, st'.holds = false)
    (err : DownloadErr) : Fair b managed (.delete o err ::ₘ m) := by
  obtain ⟨hw, hothers, hfunc, _⟩ := h.creator hst
  refine ⟨h.sound, ?_, fun hne => absurd hw hne, ?_, ?_, fun _ _ => ⟨_, Multiset.mem_cons_self _ _, .inr rfl⟩, ?_⟩
  · have hnot : ¬(CallState.delete o err).creates = true := Bool.false_ne_true
    rw [Multiset.countP_cons_of_neg (p := fun st : CallState => st.creates = true) _ hnot,
      Multiset.countP_eq_zero.2 (fun st' hst' => by rw [hothers st' hst']; exact Bool.false_ne_true)]
    exact Nat.zero_le _
  · intro o' ho'
    refine h.made o' ?_
    simp only [Multiset.mem_cons, reduceCtorEq, false_or] at ho' ⊢
    exact ho'.imp .inr .inr
  · rintro _ ⟨st', hst', hh⟩
    rcases Multiset.mem_cons.1 hst' with rfl | hst'
    · cases hh
    · rw [hholds st' hst'] at hh
      cases hh
  · intro hab
    have hab' : b.cancelled = true ∨ ∃ s ∈ st ::ₘ m, s.cancels := by
      rcases hab with hc | ⟨s, hs, hc⟩
      · exact .inl hc
      · rcases Multiset.mem_cons.1 hs with rfl | hs
        · cases hc
        · exact .inr ⟨s, Multiset.mem_cons_of_mem hs, hc⟩
    have := (h.abandoned hab').1
    rw [hfunc] at this
    cases this

/-- The goroutine is started. -/
theorem go (h : Fair b managed (.go o ::ₘ m)) : Fair { b with worker := some .start } managed (.acquire o ::ₘ m) := by
  obtain ⟨hw, hothers, hfunc, hcancelled, _⟩ := h.creator rfl
  have hdone := h.made o (.inr (Multiset.mem_cons_self _ _))
  have hnone : ∀ st ∈ CallState.acquire o ::ₘ m, st.creates = false := by
    intro st hst
    rcases Multiset.mem_cons.1 hst with rfl | hst
    · rfl
    · exact hothers st hst
  refine ⟨⟨hfunc, hcancelled, hdone⟩, ?_, fun _ => hnone, fun _ _ => hdone, fun hnone => (by cases hnone),
    fun _ hnone => (by cases hnone), ?_⟩
  · rw [Multiset.countP_eq_zero.2 (fun st hst => by rw [hnone st hst]; exact Bool.false_ne_true)]
    exact Nat.zero_le _
  · -- nothing is cancelled before there is a function to call
    intro hab
    have hab' : b.cancelled = true ∨ ∃ s ∈ CallState.go o ::ₘ m, s.cancels := by
      rcases hab with hc | ⟨s, hs, hc⟩
      · exact .inl hc
      · rcases Multiset.mem_cons.1 hs with rfl | hs
        · cases hc
        · exact .inr ⟨s, Multiset.mem_cons_of_mem hs, hc⟩
    have := (h.abandoned hab').1
    rw [hfunc] at this
    cases this

/-- The last call counts itself out: the `CancelFunc` is set, and `run` is over or no call has still to count itself in. -/
theorem last {err : Option DownloadErr} (h : Fair b managed (.release o err ::ₘ m))
    (hcounts : b.Counts (.release o err ::ₘ m)) (hlast : b.references = 1) (hfunc : b.cancelFunc = true)
    (hacquire : b.Settled ∨ ∀ o', CallState.acquire o' ∉ m) :
    Fair b managed (.cancel o err ::ₘ m) := by
  have h' := h.drop rfl nofun
  have hzero : m.countP (fun st => st.counted) = 0 := by
    have hcounted : (CallState.release o err).counted = true := rfl
    have hcount := counts_cons.1 hcounts
    rw [hlast, if_pos hcounted] at hcount
    omega
  refine ⟨h'.sound, ?_, ?_, ?_, ?_, ?_, ?_⟩
  · rw [Multiset.countP_cons_of_neg _ nofun]
    exact h'.creators
  · intro hw s hs
    rcases Multiset.mem_cons.1 hs with rfl | hs
    · rfl
    · exact h'.started hw s hs
  · intro o' ho'
    refine h'.made o' ?_
    simpa using ho'
  · rintro hw ⟨s, hs, hh⟩
    rcases Multiset.mem_cons.1 hs with rfl | hs
    · nomatch hh
    · obtain ⟨c, hc, hcreate⟩ := h'.served hw ⟨s, hs, hh⟩
      exact ⟨c, Multiset.mem_cons_of_mem hc, hcreate⟩
  · intro hm hw
    obtain ⟨c, hc, hcreate⟩ := h'.managed hm hw
    exact ⟨c, Multiset.mem_cons_of_mem hc, hcreate⟩
  · intro _
    refine ⟨hfunc, ?_⟩
    rcases hacquire with hsettled | hno
    · exact .inl hsettled
    · -- by the count no other call is in `Wait`
      right
      intro s hs
      rcases Multiset.mem_cons.1 hs with rfl | hs
      · rfl
      · have hnot := Multiset.countP_eq_zero.1 hzero s hs
        cases s with
        | acquire o' => exact absurd hs (hno o')
        | wait o' => exact absurd rfl hnot
        | _ => rfl

/-- The `CancelFunc` is called. -/
theorem cancel {err : Option DownloadErr} (h : Fair b managed (.cancel o err ::ₘ m)) :
    Fair { b with cancelled := true } managed m := by
  obtain ⟨hfunc, hleft⟩ := h.abandoned (.inr ⟨_, Multiset.mem_cons_self _ _, rfl⟩)
  have h' := h.drop rfl nofun
  refine ⟨?_, h'.creators, h'.started, h'.made, h'.served, h'.managed, fun _ => ⟨hfunc, ?_⟩⟩
  · have hsound := h.sound
    unfold Download.Sound at hsound ⊢
    rcases hw : b.worker with _ | _ | _ | _ | _ | _ | _ | _ <;> simp_all
  · rcases hleft with hsettled | hno
    · exact .inl hsettled
    · exact .inr (fun st hst => hno st (Multiset.mem_cons_of_mem hst))

/-- A call gets the result of the download: it is not told that it was cancelled. -/
theorem result (h : Fair b managed (.wait o ::ₘ m)) (hdone : b.done = some true) : b.err ≠ some .canceled := by
  intro herr
  have hsound := h.sound
  unfold Download.Sound at hsound
  split at hsound
  · exact hsound.2.2 hdone
  · rw [hsound.2.2] at hdone
    nomatch hdone
  · rw [hsound] at hdone
    nomatch hdone
  · rw [hsound.1] at hdone
    nomatch hdone
  · rw [hsound.1] at hdone
    nomatch hdone
  · rw [hsound.1] at hdone
    nomatch hdone
  · rename_i hw
    rcases (h.abandoned (.inl (hsound.2 herr))).2 with hsettled | hno
    · unfold Download.Settled at hsettled
      rw [hw] at hsettled
      exact hsettled herr
    · exact absurd (hno _ (Multiset.mem_cons_self _ _)) nofun
  · exact hsound

/-! ## The goroutine -/

/-- The goroutine goes on, in a way that loses nothing. -/
theorem work {b' : Download} (h : Fair b managed m) (hsound : b'.Sound) (hb : b.worker ≠ .none)
    (hb' : b'.worker ≠ .none) (hcancelled : b'.cancelled = b.cancelled)
    (hfunc : b.cancelFunc = true → b'.cancelFunc = true) (hsettled : b.Settled → b'.Settled) : Fair b' managed m where
  sound := hsound
  creators := h.creators
  started := fun _ => h.started hb
  made := by
    rintro o (ho | ho) <;> exact absurd (h.started hb _ ho) nofun
  served := fun hw => absurd hw hb'
  managed := fun _ hw => absurd hw hb'
  abandoned := by
    intro hab
    rw [hcancelled] at hab
    obtain ⟨h1, h2⟩ := h.abandoned hab
    exact ⟨hfunc h1, h2.imp_left hsettled⟩

end Fair

end Ollama.Server
