import Ollama.Server.Lemmas.Download

/-!
# Calls that share a download

A download is stored before it is prepared, and a call that finds it there counts itself in only afterwards. Where
another call gets into one of these gaps, it can be left waiting for a download that nobody runs, be told of a
cancellation that is not its own, or call a `CancelFunc` that is not set yet. Kept out of the gaps, the calls do not
disturb each other (`downloads_isolated`).
-/

namespace Ollama.Server

open Lib

namespace Downloads

/-- The download has been cancelled, or is about to be. -/
def Abandoned (s : Downloads) (o : Nat) : Prop :=
  (s.downloads o).cancelled = true ∨ ∃ call ∈ s.calls, call.state.download = some o ∧ call.state.cancels

/-- A call does not get into a gap: it loads a download only if `Prepare` has not failed and the download is not
abandoned, or its `run` is over; its `Prepare` fails only if no other call has loaded the download; and it is the last
to leave only when the `CancelFunc` is set, and no call has loaded the download and not yet counted itself in, or
`run` is over. -/
def OrderlyCall (s : Downloads) (e : Answer) : CallState → Prop
  | .loadOrStore => ∀ o ∈ s.manager, (∀ other ∈ s.calls, other.state.download = some o → other.state.fails = false) ∧
      (s.Abandoned o → (s.downloads o).Settled)
  | .glob o | .prepare o => e = .ok ∨ ∀ other ∈ s.calls, other.state.download = some o → other.state.holds = false
  | .release o _ => (s.downloads o).references = 1 → (s.downloads o).cancelFunc = true ∧
      ((s.downloads o).Settled ∨ ∀ other ∈ s.calls, other.state ≠ .acquire o)
  | _ => True

/-- No call gets into a gap. -/
def Orderly (s : Downloads) : DownloadAct → Prop
  | .step i e => ∀ call ∈ s.calls[i]?, s.OrderlyCall e call.state
  | _ => True

/-- No call and no goroutine has panicked; a call that returns a cancellation was cancelled itself; and a call that
waits is waiting for a download that is done, whose goroutine is running, or that is being prepared. -/
structure Isolated (s : Downloads) : Prop where
  calls : ∀ call ∈ s.calls, call.state ≠ .panicked
  workers : ∀ o, (s.downloads o).worker ≠ some .panicked
  own : ∀ call ∈ s.calls, ∀ cacheHit, call.state = .returned cacheHit (some .canceled) → call.cancelled = true
  served : ∀ call ∈ s.calls, ∀ o, call.state = .wait o → (s.downloads o).done = some true ∨
    (∃ w, (s.downloads o).worker = some w ∧ w ≠ .over) ∨ ∃ other ∈ s.calls, other.state.download = some o ∧
    other.state.creates

end Downloads

namespace DownloadAux

/-- The states of the calls that are about a download. -/
def on (calls : List DownloadCall) (o : Nat) : Multiset CallState :=
  ↑((calls.map DownloadCall.state).filter (fun st => st.download = some o))

theorem mem_on {calls : List DownloadCall} {o : Nat} {st : CallState} :
    st ∈ on calls o ↔ st.download = some o ∧ ∃ call ∈ calls, call.state = st := by
  simp only [on, Multiset.mem_coe, List.mem_filter, List.mem_map, decide_eq_true_eq]
  exact And.comm

/-- What a call has to do with a download. -/
def part (o : Nat) (st : CallState) : Multiset CallState := if st.download = some o then {st} else 0

theorem part_of_eq {o : Nat} {st : CallState} (h : st.download = some o) (R : Multiset CallState) :
    part o st + R = st ::ₘ R := by
  rw [part, if_pos h, Multiset.singleton_add]

theorem part_of_ne {o : Nat} {st : CallState} (h : st.download ≠ some o) (R : Multiset CallState) :
    part o st + R = R := by
  rw [part, if_neg h, Multiset.zero_add]

theorem part_of_none {o : Nat} {st : CallState} (h : st.download = none) (R : Multiset CallState) : part o st + R = R :=
  part_of_ne (by rw [h]; nofun) R

/-- One call moves on. -/
theorem exists_on_set {calls : List DownloadCall} {i : Nat} {call : DownloadCall} (hi : calls[i]? = some call)
    (o : Nat) :
    ∃ R, on calls o = part o call.state + R ∧ ∀ call', on (calls.set i call') o = part o call'.state + R := by
  obtain ⟨l₁, l₂, hl, hset⟩ := exists_split hi
  have hpart : ∀ c : DownloadCall, on (l₁ ++ c :: l₂) o = part o c.state + on (l₁ ++ l₂) o := by
    intro c
    unfold on part
    by_cases hc : c.state.download = some o
    · rw [if_pos hc, List.map_append, List.map_cons, List.filter_append,
        List.filter_cons_of_pos (by simpa using hc), List.map_append,
        List.filter_append, Multiset.singleton_add, Multiset.cons_coe, Multiset.coe_eq_coe]
      exact List.perm_middle
    · rw [if_neg hc, List.map_append, List.map_cons, List.filter_append,
        List.filter_cons_of_neg (by simpa using hc), List.map_append, List.filter_append, Multiset.zero_add]
  refine ⟨on (l₁ ++ l₂) o, ?_, fun call' => ?_⟩
  · rw [hl]
    exact hpart call
  · rw [hset]
    exact hpart call'

/-- What a call is going to return. -/
def result : CallState → Option DownloadErr
  | .delete _ err => some err
  | .release _ err | .cancel _ err | .returned _ err => err
  | _ => none

/-- What the states of the runs are like. -/
structure Inv (s : Downloads) : Prop where
  fair : ∀ o, Fair (s.downloads o) (s.manager = some o) (on s.calls o)
  counts : ∀ o, (s.downloads o).Counts (on s.calls o)
  range : ∀ call ∈ s.calls, ∀ o, call.state.download = some o → o < s.made
  stored : ∀ o, s.manager = some o → o < s.made
  own : ∀ call ∈ s.calls, result call.state = some .canceled → call.cancelled = true
  safe : ∀ call ∈ s.calls, call.state ≠ .panicked

/-- A call moves on, and changes no more than one download. -/
theorem Inv.move {s s₁ : Downloads} (h : Inv s) {i : Nat} {call : DownloadCall} (hi : s.calls[i]? = some call)
    {st : CallState} (o : Nat)
    (hframe : ∀ o', o' ≠ o → s₁.downloads o' = s.downloads o' ∧ (s₁.manager = some o' → s.manager = some o'))
    (hbefore : ∀ o', call.state.download = some o' → o' = o) (hafter : ∀ o', st.download = some o' → o' = o)
    (hobject : ∀ R, on s.calls o = part o call.state + R →
      Fair (s₁.downloads o) (s₁.manager = some o) (part o st + R) ∧ (s₁.downloads o).Counts (part o st + R))
    (hmade : s.made ≤ s₁.made) (hin : st.download = some o → o < s₁.made) (hstored : s₁.manager = some o → o < s₁.made)
    (hresult : result st = some .canceled → call.cancelled = true) (hsafe : st ≠ .panicked) :
    Inv { s₁ with calls := s.calls.set i { call with state := st } } where
  fair := by
    intro o'
    obtain ⟨R, hR, hset⟩ := exists_on_set hi o'
    show Fair _ _ (on (s.calls.set i { call with state := st }) o')
    rw [hset]
    by_cases ho : o' = o
    · subst ho
      exact (hobject R hR).1
    · have hf := h.fair o'
      rw [hR, part_of_ne (fun hc => ho (hbefore o' hc))] at hf
      show Fair (s₁.downloads o') (s₁.manager = some o') (part o' st + R)
      rw [part_of_ne (fun hc => ho (hafter o' hc)), (hframe o' ho).1]
      exact { hf with managed := fun hm => hf.managed ((hframe o' ho).2 hm) }
  counts := by
    intro o'
    obtain ⟨R, hR, hset⟩ := exists_on_set hi o'
    show Download.Counts _ (on (s.calls.set i { call with state := st }) o')
    rw [hset]
    by_cases ho : o' = o
    · subst ho
      exact (hobject R hR).2
    · have hf := h.counts o'
      rw [hR, part_of_ne (fun hc => ho (hbefore o' hc))] at hf
      show (s₁.downloads o').Counts (part o' st + R)
      rw [part_of_ne (fun hc => ho (hafter o' hc)), (hframe o' ho).1]
      exact hf
  range := by
    intro other hother o' ho'
    rcases List.mem_or_eq_of_mem_set hother with hold | rfl
    · exact lt_of_lt_of_le (h.range other hold o' ho') hmade
    · obtain rfl := hafter o' ho'
      exact hin ho'
  stored := by
    intro o' ho'
    by_cases ho : o' = o
    · subst ho
      exact hstored ho'
    · exact lt_of_lt_of_le (h.stored o' ((hframe o' ho).2 ho')) hmade
  own := by
    intro other hother
    rcases List.mem_or_eq_of_mem_set hother with hold | rfl
    · exact h.own other hold
    · exact hresult
  safe := by
    intro other hother
    rcases List.mem_or_eq_of_mem_set hother with hold | rfl
    · exact h.safe other hold
    · exact hsafe

/-- A call changes where it stands, and nothing that is shared. -/
theorem Inv.moveOnly {s : Downloads} (h : Inv s) {i : Nat} {call : DownloadCall} (hi : s.calls[i]? = some call)
    {st : CallState} {o : Nat} (hbefore : call.state.download = some o) (hafter : st.download = some o)
    (hcounted : st.counted = call.state.counted)
    (hfair : ∀ R, Fair (s.downloads o) (s.manager = some o) (call.state ::ₘ R) →
      Fair (s.downloads o) (s.manager = some o) (st ::ₘ R))
      (hresult : result st = some .canceled → call.cancelled = true) :
    Inv { s with calls := s.calls.set i { call with state := st } } := by
  refine h.move hi o (fun _ _ => ⟨rfl, id⟩) ?_ ?_ ?_ le_rfl ?_ (h.stored o) hresult ?_
  · exact fun o' ho' => Option.some.inj (ho'.symm.trans hbefore)
  · exact fun o' ho' => Option.some.inj (ho'.symm.trans hafter)
  · intro R hR
    rw [part_of_eq hbefore] at hR
    rw [part_of_eq hafter]
    refine ⟨hfair R (hR ▸ h.fair o), ?_⟩
    have hcounts := h.counts o
    rw [hR, counts_cons] at hcounts
    rw [counts_cons, hcounted]
    exact hcounts
  · exact fun _ => h.range call (List.mem_of_getElem? hi) o hbefore
  · rintro rfl
    nomatch hafter

/-- A call changes the download that it is about. -/
theorem Inv.moveUpdate {s : Downloads} (h : Inv s) {i : Nat} {call : DownloadCall} (hi : s.calls[i]? = some call)
    {st : CallState} {o : Nat} {f : Download → Download} (hbefore : call.state.download = some o)
    (hafter : st.download = some o ∨ st.download = none)
    (hfair : ∀ R, Fair (s.downloads o) (s.manager = some o) (call.state ::ₘ R) →
      (s.downloads o).Counts (call.state ::ₘ R) →
      on s.calls o = call.state ::ₘ R → Fair (f (s.downloads o)) (s.manager = some o) (part o st + R))
    (hcounts : (f (s.downloads o)).references = (s.downloads o).references + (if st.counted then 1 else 0) -
      (if call.state.counted then 1 else 0))
    (hnone : st.download = none → st.counted = false)
    (hresult : result st = some .canceled → call.cancelled = true) (hsafe : st ≠ .panicked) :
    Inv { s.update o f with calls := s.calls.set i { call with state := st } } := by
  have hself : (s.update o f).downloads o = f (s.downloads o) := Function.update_self ..
  refine Inv.move h hi o ?_ ?_ ?_ ?_ le_rfl ?_ (h.stored o) hresult hsafe
  · exact fun o' ho' => ⟨Function.update_of_ne ho' .., id⟩
  · exact fun o' ho' => Option.some.inj (ho'.symm.trans hbefore)
  · intro o' ho'
    rcases hafter with hafter | hafter <;> rw [hafter] at ho'
    · exact (Option.some.inj ho').symm
    · nomatch ho'
  · intro R hR
    rw [part_of_eq hbefore] at hR
    have hc := h.counts o
    rw [hR] at hc
    rw [hself]
    refine ⟨hfair R (hR ▸ h.fair o) hc hR, ?_⟩
    rw [counts_cons] at hc
    rcases hafter with hafter | hafter
    · rw [part_of_eq hafter, counts_cons, hcounts, ← hc]
      omega
    · rw [part_of_none hafter]
      unfold Download.Counts
      rw [hcounts, ← hc, hnone hafter]
      simp
  · exact fun _ => h.range call (List.mem_of_getElem? hi) o hbefore

/-- A call that is about no download changes where it stands. -/
theorem Inv.moveNone {s : Downloads} (h : Inv s) {i : Nat} {call : DownloadCall} (hi : s.calls[i]? = some call)
    {st : CallState} (hbefore : call.state.download = none) (hafter : st.download = none)
    (hresult : result st = some .canceled → call.cancelled = true) (hsafe : st ≠ .panicked) :
    Inv { s with calls := s.calls.set i { call with state := st } } := by
  refine h.move hi 0 (fun _ _ => ⟨rfl, id⟩) ?_ ?_ ?_ le_rfl ?_ (h.stored 0) hresult hsafe
  · exact fun o' ho' => absurd (hbefore.symm.trans ho') nofun
  · exact fun o' ho' => absurd (hafter.symm.trans ho') nofun
  · intro R hR
    rw [part_of_none hbefore] at hR
    rw [part_of_none hafter, ← hR]
    exact ⟨h.fair 0, h.counts 0⟩
  · exact fun ho' => absurd (hafter.symm.trans ho') nofun

/-- `Prepare` fails. -/
theorem Inv.fail {s : Downloads} (h : Inv s) {i : Nat} {call : DownloadCall} (hi : s.calls[i]? = some call) {o : Nat}
    (hbefore : call.state.download = some o) (hcreates : call.state.creates = true)
    (hcounted : call.state.counted = false)
    (hholds : ∀ other ∈ s.calls, other.state.download = some o → other.state.holds = false) {err : DownloadErr}
    (hresult : some err = some .canceled → call.cancelled = true) :
    Inv { s with calls := s.calls.set i { call with state := .delete o err } } := by
  refine h.move hi o (fun _ _ => ⟨rfl, id⟩) ?_ ?_ ?_ le_rfl ?_ (h.stored o) hresult nofun
  · exact fun o' ho' => Option.some.inj (ho'.symm.trans hbefore)
  · exact fun o' ho' => (Option.some.inj ho').symm
  · intro R hR
    rw [part_of_eq hbefore] at hR
    rw [part_of_eq rfl]
    have hf := h.fair o
    have hc := h.counts o
    rw [hR] at hf hc
    refine ⟨hf.fail hcreates (fun st hst => ?_) err, ?_⟩
    · have hon : st ∈ on s.calls o := by
        rw [hR]
        exact Multiset.mem_cons_of_mem hst
      obtain ⟨hd, other, hother, rfl⟩ := mem_on.1 hon
      exact hholds other hother hd
    · rw [counts_cons, hcounted] at hc
      rw [counts_cons]
      exact hc
  · exact fun _ => h.range call (List.mem_of_getElem? hi) o hbefore

/-- A call loads or stores a download. -/
theorem Inv.loadOrStore {s s₁ : Downloads} (h : Inv s) {i : Nat} {e : Answer} {call : DownloadCall}
    (hi : s.calls[i]? = some call) (hst : call.state = .loadOrStore) (horderly : s.OrderlyCall e call.state)
    {st : CallState} (hnext : s.next call e = some (s₁, st)) :
    Inv { s₁ with calls := s.calls.set i { call with state := st } } := by
  have hbefore : call.state.download = none := by rw [hst]; rfl
  unfold Downloads.next at hnext
  rw [hst] at hnext
  rw [hst] at horderly
  dsimp only at hnext
  split at hnext
  · rename_i o hm
    obtain ⟨rfl, rfl⟩ := Prod.mk.inj (Option.some.inj hnext)
    obtain ⟨hfails, hsettled⟩ := horderly o hm
    refine h.move hi o (fun _ _ => ⟨rfl, id⟩) ?_ ?_ ?_ le_rfl (fun _ => h.stored o hm) (h.stored o) nofun nofun
    · exact fun o' ho' => absurd (hbefore.symm.trans ho') nofun
    · exact fun o' ho' => (Option.some.inj ho').symm
    · intro R hR
      rw [part_of_none hbefore] at hR
      rw [part_of_eq rfl, ← hR]
      refine ⟨(h.fair o).load hm ?_ ?_, ?_⟩
      · intro st hst
        obtain ⟨hd, other, hother, rfl⟩ := mem_on.1 hst
        exact hfails other hother hd
      · rintro (hc | ⟨st, hst, hc⟩)
        · exact hsettled (.inl hc)
        · obtain ⟨hd, other, hother, rfl⟩ := mem_on.1 hst
          exact hsettled (.inr ⟨other, hother, hd, hc⟩)
      · have hcounts := h.counts o
        rw [counts_cons, if_neg nofun, Int.sub_zero]
        exact hcounts
  · rename_i hm
    obtain ⟨rfl, rfl⟩ := Prod.mk.inj (Option.some.inj hnext)
    -- no call is about a download that was not made
    have hnone : on s.calls s.made = 0 := by
      refine Multiset.eq_zero_of_forall_notMem (fun st hst => ?_)
      obtain ⟨hd, other, hother, rfl⟩ := mem_on.1 hst
      exact absurd (h.range other hother s.made hd) (lt_irrefl _)
    refine Inv.move h hi s.made ?_ ?_ ?_ ?_ (Nat.le_succ _) (fun _ => Nat.lt_succ_self _)
      (fun _ => Nat.lt_succ_self _) nofun nofun
    · refine fun o' ho' => ⟨Function.update_of_ne ho' .., fun hm' => absurd (Option.some.inj hm').symm ho'⟩
    · exact fun o' ho' => absurd (hbefore.symm.trans ho') nofun
    · exact fun o' ho' => (Option.some.inj ho').symm
    · intro R hR
      rw [part_of_none hbefore, hnone] at hR
      rw [part_of_eq rfl, ← hR]
      show Fair (Function.update s.downloads s.made {} s.made) (some s.made = some s.made) _ ∧
        (Function.update s.downloads s.made {} s.made).Counts _
      rw [Function.update_self]
      refine ⟨?_, rfl⟩
      simpa using Fair.new s.made

/-- A call steps. -/
theorem Inv.step {s s₁ : Downloads} (h : Inv s) {i : Nat} {e : Answer} {call : DownloadCall}
    (hi : s.calls[i]? = some call) (horderly : s.OrderlyCall e call.state) {st : CallState}
    (hnext : s.next call e = some (s₁, st)) :
    Inv { s₁ with calls := s.calls.set i { call with state := st } } := by
  have hmem := List.mem_of_getElem? hi
  have hload := fun hst => h.loadOrStore hi hst horderly hnext
  have hown := h.own call hmem
  unfold Downloads.next at hnext
  rcases hst : call.state with _ | _ | o | o | ⟨o, err⟩ | o | o | o | ⟨o, err⟩ | ⟨o, err⟩ | ⟨hit, err⟩ | _ <;>
    rw [hst] at hnext hown horderly <;> dsimp only at hnext
  case stat =>
    have hbefore : call.state.download = none := by rw [hst]; rfl
    split at hnext
    · obtain ⟨rfl, rfl⟩ := Prod.mk.inj (Option.some.inj hnext)
      exact h.moveNone hi hbefore rfl nofun nofun
    · obtain ⟨rfl, rfl⟩ := Prod.mk.inj (Option.some.inj hnext)
      exact h.moveNone hi hbefore rfl nofun nofun
    · split at hnext
      · rename_i herr
        obtain ⟨rfl, rfl⟩ := Prod.mk.inj (Option.some.inj hnext)
        refine h.moveNone hi hbefore rfl (fun hc => ?_) nofun
        rw [herr] at hc
        nomatch hc
      · nomatch hnext
  case loadOrStore => exact hload hst
  case glob =>
    have hbefore : call.state.download = some o := by rw [hst]; rfl
    split at hnext
    · obtain ⟨rfl, rfl⟩ := Prod.mk.inj (Option.some.inj hnext)
      refine h.moveUpdate hi hbefore (.inl rfl) ?_ ?_ nofun nofun nofun
      · intro R hf _ _
        rw [hst] at hf
        rw [part_of_eq rfl]
        exact hf.glob
      · rw [hst]
        simp [CallState.counted]
    · split at hnext
      · rename_i herr
        obtain ⟨rfl, rfl⟩ := Prod.mk.inj (Option.some.inj hnext)
        refine h.fail hi hbefore (by rw [hst]; rfl) (by rw [hst]; rfl) (horderly.resolve_left nofun) (fun hc => ?_)
        rw [herr] at hc
        nomatch hc
      · nomatch hnext
    · nomatch hnext
  case prepare =>
    have hbefore : call.state.download = some o := by rw [hst]; rfl
    split at hnext
    · obtain ⟨rfl, rfl⟩ := Prod.mk.inj (Option.some.inj hnext)
      refine h.moveOnly hi hbefore rfl (by rw [hst]; rfl) (fun R hf => ?_) nofun
      rw [hst] at hf
      exact hf.prepare
    · split at hnext
      · rename_i herr
        obtain ⟨rfl, rfl⟩ := Prod.mk.inj (Option.some.inj hnext)
        exact h.fail hi hbefore (by rw [hst]; rfl) (by rw [hst]; rfl) (horderly.resolve_left nofun)
          (fun hc => herr (Option.some.inj hc))
      · nomatch hnext
    · nomatch hnext
  case delete =>
    obtain ⟨rfl, rfl⟩ := Prod.mk.inj (Option.some.inj hnext)
    have hbefore : call.state.download = some o := by rw [hst]; rfl
    refine Inv.move h hi o (fun _ _ => ⟨rfl, nofun⟩) ?_ nofun ?_ le_rfl nofun nofun hown nofun
    · exact fun o' ho' => Option.some.inj (ho'.symm.trans hbefore)
    · intro R hR
      rw [part_of_eq hbefore, hst] at hR
      rw [part_of_none rfl]
      have hf := (h.fair o).unmanaged
      have hc := h.counts o
      rw [hR] at hf hc
      refine ⟨{ hf.drop rfl (fun _ => id) with managed := nofun }, ?_⟩
      rw [counts_cons, if_neg nofun, Int.sub_zero] at hc
      exact hc
  case go =>
    obtain ⟨rfl, rfl⟩ := Prod.mk.inj (Option.some.inj hnext)
    have hbefore : call.state.download = some o := by rw [hst]; rfl
    refine h.moveUpdate hi hbefore (.inl rfl) ?_ ?_ nofun nofun nofun
    · intro R hf _ _
      rw [hst] at hf
      rw [part_of_eq rfl]
      exact hf.go
    · rw [hst]
      simp [CallState.counted]
  case acquire =>
    obtain ⟨rfl, rfl⟩ := Prod.mk.inj (Option.some.inj hnext)
    have hbefore : call.state.download = some o := by rw [hst]; rfl
    refine h.moveUpdate hi hbefore (.inl rfl) ?_ ?_ nofun nofun nofun
    · intro R hf _ _
      rw [hst] at hf
      rw [part_of_eq rfl]
      have hwait : Fair (s.downloads o) (s.manager = some o) (.wait o ::ₘ R) :=
        hf.replace rfl rfl (fun _ => rfl) rfl (by rintro o' (ho' | ho') <;> nomatch ho')
      exact hwait.setReferences _
    · rw [hst]
      simp [CallState.counted]
  case wait =>
    have hbefore : call.state.download = some o := by rw [hst]; rfl
    have hleave : ∀ err R, Fair (s.downloads o) (s.manager = some o) (call.state ::ₘ R) →
        Fair (s.downloads o) (s.manager = some o) (.release o err ::ₘ R) := by
      intro err R hf
      rw [hst] at hf
      exact hf.replace rfl rfl nofun rfl (by rintro o' (ho' | ho') <;> nomatch ho')
    split at hnext
    · split at hnext
      · rename_i hdone
        obtain ⟨rfl, rfl⟩ := Prod.mk.inj (Option.some.inj hnext)
        refine h.moveOnly hi hbefore rfl (by rw [hst]; rfl) (hleave _) (fun hc => ?_)
        -- a download that was cancelled has nobody waiting for it
        obtain ⟨R, hR, _⟩ := exists_on_set hi o
        have hf := h.fair o
        rw [hR, part_of_eq hbefore, hst] at hf
        exact absurd hc (hf.result hdone)
      · nomatch hnext
    · split at hnext
      · rename_i herr
        obtain ⟨rfl, rfl⟩ := Prod.mk.inj (Option.some.inj hnext)
        exact h.moveOnly hi hbefore rfl (by rw [hst]; rfl) (hleave _) (fun _ => herr.2)
      · nomatch hnext
    · nomatch hnext
  case release =>
    obtain ⟨rfl, rfl⟩ := Prod.mk.inj (Option.some.inj hnext)
    have hbefore : call.state.download = some o := by rw [hst]; rfl
    by_cases hlast : (s.downloads o).references - 1 = 0
    · rw [if_pos hlast]
      obtain ⟨hfunc, hacquire⟩ := horderly (by omega)
      refine h.moveUpdate hi hbefore (.inl rfl) ?_ ?_ nofun hown nofun
      · intro R hf hc hR
        rw [hst] at hf hc hR
        rw [part_of_eq rfl]
        refine (hf.last hc (by omega) hfunc (hacquire.imp_right (fun hno o' ho' => ?_))).setReferences _
        have hon : CallState.acquire o' ∈ on s.calls o := by
          rw [hR]
          exact Multiset.mem_cons_of_mem ho'
        obtain ⟨hd, other, hother, heq⟩ := mem_on.1 hon
        obtain rfl := Option.some.inj hd
        exact hno other hother heq
      · rw [hst]
        simp [CallState.counted]
    · rw [if_neg hlast]
      refine h.moveUpdate hi hbefore (.inr rfl) ?_ ?_ (fun _ => rfl) hown nofun
      · intro R hf _ _
        rw [hst] at hf
        rw [part_of_none rfl]
        exact (hf.drop rfl nofun).setReferences _
      · rw [hst]
        simp [CallState.counted]
  case cancel =>
    have hbefore : call.state.download = some o := by rw [hst]; rfl
    obtain ⟨R, hR, _⟩ := exists_on_set hi o
    have hf := h.fair o
    rw [hR, part_of_eq hbefore, hst] at hf
    rw [if_pos (hf.abandoned (.inr ⟨_, Multiset.mem_cons_self _ _, rfl⟩)).1] at hnext
    obtain ⟨rfl, rfl⟩ := Prod.mk.inj (Option.some.inj hnext)
    refine h.moveUpdate hi hbefore (.inr rfl) ?_ ?_ (fun _ => rfl) hown nofun
    · intro R hf _ _
      rw [hst] at hf
      rw [part_of_none rfl]
      exact hf.cancel
    · rw [hst]
      simp [CallState.counted]
  case returned => nomatch hnext
  case panicked => nomatch hnext

/-- The goroutine of a download changes it, and may take it out of the manager. -/
theorem Inv.update {s s₁ : Downloads} (h : Inv s) (hcalls : s₁.calls = s.calls) (hmade : s₁.made = s.made)
    (hmanager : ∀ o', s₁.manager = some o' → s.manager = some o') {o : Nat} {b : Download}
    (hdownloads : s₁.downloads = Function.update s.downloads o b) (href : b.references = (s.downloads o).references)
    (hfair : Fair (s.downloads o) (s.manager = some o) (on s.calls o) →
      Fair b (s.manager = some o) (on s.calls o)) : Inv s₁ where
  fair := by
    intro o'
    rw [hcalls, hdownloads]
    by_cases ho : o' = o
    · subst ho
      rw [Function.update_self]
      have hf := hfair (h.fair o')
      exact { hf with managed := fun hm => hf.managed (hmanager o' hm) }
    · rw [Function.update_of_ne ho]
      have hf := h.fair o'
      exact { hf with managed := fun hm => hf.managed (hmanager o' hm) }
  counts := by
    intro o'
    rw [hcalls, hdownloads]
    by_cases ho : o' = o
    · subst ho
      rw [Function.update_self]
      have hc := h.counts o'
      unfold Download.Counts at hc ⊢
      rw [href]
      exact hc
    · rw [Function.update_of_ne ho]
      exact h.counts o'
  range := by
    rw [hcalls, hmade]
    exact h.range
  stored := by
    intro o' ho'
    rw [hmade]
    exact h.stored o' (hmanager o' ho')
  own := by
    rw [hcalls]
    exact h.own
  safe := by
    rw [hcalls]
    exact h.safe

/-- The goroutine of a download steps. -/
theorem Inv.work {s s' : Downloads} (h : Inv s) {o : Nat} {e : Answer} (hwork : s.work o e = some s') : Inv s' := by
  have hsound := (h.fair o).sound
  unfold Download.Sound at hsound
  unfold Downloads.work at hwork
  split at hwork
  · nomatch hwork
  · rename_i hw
    rw [hw] at hsound
    obtain rfl := Option.some.inj hwork
    refine h.update rfl rfl (fun _ => id) rfl rfl (fun hf => ?_)
    refine hf.work hsound.2.2 (by rw [hw]; nofun) nofun rfl (fun _ => rfl) (fun hsettled => ?_)
    unfold Download.Settled at hsettled
    rw [hw] at hsettled
    exact hsettled.elim
  · rename_i hw
    rw [hw] at hsound
    have hno : ¬(s.downloads o).Settled := by
      unfold Download.Settled
      rw [hw]
      exact id
    split at hwork
    · obtain rfl := Option.some.inj hwork
      refine h.update rfl rfl (fun _ => id) rfl rfl (fun hf => ?_)
      exact hf.work ⟨hsound, nofun⟩ (by rw [hw]; nofun) nofun rfl id (fun hsettled => absurd hsettled hno)
    · split at hwork
      · rename_i hcancelled
        obtain rfl := Option.some.inj hwork
        refine h.update rfl rfl (fun _ => id) rfl rfl (fun hf => ?_)
        exact hf.work ⟨hsound, fun herr => hcancelled (Option.some.inj herr)⟩ (by rw [hw]; nofun) nofun rfl id
          (fun hsettled => absurd hsettled hno)
      · nomatch hwork
    · nomatch hwork
  · rename_i err hw
    rw [hw] at hsound
    obtain rfl := Option.some.inj hwork
    refine h.update rfl rfl nofun rfl rfl (fun hf => ?_)
    refine hf.work hsound (by rw [hw]; nofun) nofun rfl id (fun hsettled => ?_)
    unfold Download.Settled at hsettled
    rw [hw] at hsettled
    exact hsettled
  · rename_i err hw
    rw [hw] at hsound
    obtain rfl := Option.some.inj hwork
    refine h.update rfl rfl (fun _ => id) rfl rfl (fun hf => ?_)
    refine hf.work hsound (by rw [hw]; nofun) nofun rfl id (fun hsettled => ?_)
    unfold Download.Settled at hsettled
    rw [hw] at hsettled
    exact hsettled
  · rename_i hw
    rw [hw] at hsound
    rw [if_pos hsound.1] at hwork
    obtain rfl := Option.some.inj hwork
    refine h.update rfl rfl (fun _ => id) rfl rfl (fun hf => ?_)
    refine hf.work ⟨rfl, hsound.2⟩ (by rw [hw]; nofun) nofun rfl id (fun hsettled => ?_)
    unfold Download.Settled at hsettled
    rw [hw] at hsettled
    exact hsettled
  · nomatch hwork
  · nomatch hwork

/-- Every act that the guard lets keeps the invariant. -/
theorem Inv.act {s s' : Downloads} (h : Inv s) {a : DownloadAct} (horderly : s.Orderly a)
    (hact : s.act a = some s') : Inv s' := by
  cases a with
  | call =>
    obtain rfl := Option.some.inj hact
    have hon : ∀ o, on (s.calls ++ [⟨.stat, false⟩]) o = on s.calls o := by
      intro o
      simp [on, CallState.download]
    refine ⟨fun o => ?_, fun o => ?_, ?_, h.stored, ?_, ?_⟩
    · exact hon o ▸ h.fair o
    · exact hon o ▸ h.counts o
    all_goals
      intro other hother
      rcases List.mem_append.1 hother with hother | hother
    · exact h.range other hother
    · rw [List.mem_singleton.1 hother]
      nofun
    · exact h.own other hother
    · rw [List.mem_singleton.1 hother]
      nofun
    · exact h.safe other hother
    · rw [List.mem_singleton.1 hother]
      nofun
  | cancel i =>
    simp only [Downloads.act, Option.map_eq_some_iff] at hact
    obtain ⟨call, hi, rfl⟩ := hact
    have hon : ∀ o, on (s.calls.set i { call with cancelled := true }) o = on s.calls o := by
      intro o
      obtain ⟨R, hR, hset⟩ := exists_on_set hi o
      rw [hset, hR]
    have hmem := List.mem_of_getElem? hi
    refine ⟨fun o => ?_, fun o => ?_, ?_, h.stored, ?_, ?_⟩
    · exact hon o ▸ h.fair o
    · exact hon o ▸ h.counts o
    all_goals
      intro other hother
      rcases List.mem_or_eq_of_mem_set hother with hother | rfl
    · exact h.range other hother
    · exact h.range call hmem
    · exact h.own other hother
    · exact fun _ => rfl
    · exact h.safe other hother
    · exact h.safe call hmem
  | step i e =>
    simp only [Downloads.act, Option.bind_eq_some_iff, Option.map_eq_some_iff] at hact
    obtain ⟨call, hi, ⟨s₁, st⟩, hnext, rfl⟩ := hact
    exact h.step hi (horderly call hi) hnext
  | work o e => exact h.work hact

end DownloadAux

open DownloadAux

instance (s : Downloads) (o : Nat) : Decidable (s.Abandoned o) := inferInstanceAs (Decidable (_ ∨ _))

instance (s : Downloads) (e : Answer) (st : CallState) : Decidable (s.OrderlyCall e st) :=
  match st with
  | .loadOrStore => inferInstanceAs (Decidable (∀ o ∈ s.manager, _))
  | .glob o => inferInstanceAs (Decidable (_ ∨ ∀ other ∈ s.calls, other.state.download = some o → _))
  | .prepare o => inferInstanceAs (Decidable (_ ∨ ∀ other ∈ s.calls, other.state.download = some o → _))
  | .release o _ => inferInstanceAs (Decidable ((s.downloads o).references = 1 → _ ∧ (_ ∨ ∀ other ∈ s.calls, _)))
  | .stat | .delete _ _ | .go _ | .acquire _ | .wait _ | .cancel _ _ | .returned _ _ | .panicked =>
      inferInstanceAs (Decidable True)

instance (s : Downloads) (a : DownloadAct) : Decidable (s.Orderly a) :=
  match a with
  | .step i e => inferInstanceAs (Decidable (∀ call ∈ s.calls[i]?, s.OrderlyCall e call.state))
  | .call | .cancel _ | .work _ _ => inferInstanceAs (Decidable True)

/-- A call stores a download, prepares it and starts its goroutine. -/
def storeRun (i : Nat) : List DownloadAct :=
  [.call, .step i .notExist, .step i .ok, .step i .ok, .step i .ok, .step i .ok]

/-- A call finds the download that is stored. -/
def loadStored (i : Nat) : List DownloadAct := [.call, .step i .notExist, .step i .ok]

/-- The context of a call is cancelled, and it leaves `Wait`. -/
def leaveWait (i : Nat) : List DownloadAct := [.cancel i, .step i (.fail .canceled), .step i .ok]

/-- Two calls wait for a download, and the first is cancelled. -/
def firstLeaves : List DownloadAct :=
  List.flatten [storeRun 0, [.work 0 .ok, .step 0 .ok], loadStored 1, [.step 1 .ok], leaveWait 0,
    [.work 0 .ok, .work 0 .ok, .work 0 .ok, .work 0 .ok, .step 1 .ok, .step 1 .ok, .step 1 .ok]]

/-- A call is cancelled before the goroutine has set the `CancelFunc`. -/
def leavesAtOnce : List DownloadAct := List.flatten [storeRun 0, [.step 0 .ok], leaveWait 0, [.step 0 .ok]]

/-- A call is cancelled when another has loaded the download, and has not counted itself in. -/
def leavesUncounted : List DownloadAct :=
  List.flatten [storeRun 0, [.work 0 .ok, .step 0 .ok], loadStored 1, leaveWait 0, [.step 0 .ok, .step 1 .ok],
    [.work 0 (.fail .canceled), .work 0 .ok, .work 0 .ok, .work 0 .ok], [.step 1 .ok, .step 1 .ok, .step 1 .ok]]

/-- A call loads a download that another fails to prepare. -/
def loadsUnprepared : List DownloadAct :=
  List.flatten [[.call, .step 0 .notExist, .step 0 .ok, .step 0 .ok], loadStored 1,
    [.step 1 .ok, .step 0 (.fail .other), .step 0 .ok]]

end Ollama.Server
