import Ollama.Syncs.Relay

/-!
# What the destination receives

A ticket that is done before its turn lets the writers behind it go on too early, a writer that has had its turn does
not look at whether the line is closed, and `WriteString` does not count. Where none of this happens the destination
receives the bytes in the order of the tickets, none after `WriteTo` has returned, and as many as it returns
(`relay_orderly`).
-/

namespace Ollama.Syncs

open Lib Utf8

/-- The call is past its wait and has not returned. -/
def Writer.busy (w : Writer) : Bool :=
  match w.call with
  | .write _ _ => true
  | .count _ => true
  | _ => false

/-- What a relay reader promises: bytes of an earlier ticket come first; when a writer's bytes come, every earlier
writer is closed; and once `WriteTo` has returned, the destination has received the number of bytes that it returned,
and receives no more. -/
structure Relayed (s : Relay) : Prop where
  order : s.received.Pairwise (fun x y => x.1 ≤ y.1)
  turns : ∀ e ∈ s.received, ∀ i < e.1, s.doneAt i = true
  counted : ∀ n received, s.reader = .returned n received → n = received
  stopped : ∀ n received, s.reader = .returned n received → s.received.length = received

/-- A writer writes before it is closed, and not by `WriteString`; its wait ends while the line is open; it is closed
when its turn has come and its calls have returned; and the line is closed while no call is past its wait. -/
def Relay.Orderly (s : Relay) : RelayAct → Prop
  | .call i p counts => (counts = true ∨ p = []) ∧ s.doneAt i = false
  | .turn _ => s.closed = false
  | .done i => s.readyAt i = true ∧ s.idleAt i = true
  | .close => ∀ w ∈ s.writers, w.busy = false
  | _ => True

instance (s : Relay) (a : RelayAct) : Decidable (s.Orderly a) :=
  match a with
  | .call i p counts => inferInstanceAs (Decidable ((counts = true ∨ p = []) ∧ s.doneAt i = false))
  | .turn _ => inferInstanceAs (Decidable (s.closed = false))
  | .done i => inferInstanceAs (Decidable (s.readyAt i = true ∧ s.idleAt i = true))
  | .close => inferInstanceAs (Decidable (∀ w ∈ s.writers, w.busy = false))
  | .take | .refuse _ | .deliver _ _ | .count _ | .check | .start | .finish => .isTrue trivial

namespace RelayAux

/-- What a writer has written and not counted. -/
def pending (w : Writer) : Nat :=
  match w.call with
  | .count k => k
  | _ => 0

/-- A call that does not count has nothing to write. -/
def Counts (w : Writer) : Prop :=
  match w.call with
  | .await p counts => counts = true ∨ p = []
  | .write p counts => counts = true ∨ p = []
  | _ => True

/-- What the states of the runs are like. -/
structure Inv (s : Relay) : Prop where
  sane : s.panicked = false
  done : ∀ i, s.doneAt i = true → s.readyAt i = true
  turn : ∀ i w, s.writers[i]? = some w → w.ready = true ∨ w.busy = true → s.readyAt i = true
  open_ : ∀ w ∈ s.writers, w.call ≠ .idle → w.done = false
  counts : ∀ w ∈ s.writers, Counts w
  bytes : ∀ e ∈ s.received, s.readyAt e.1 = true
  order : s.received.Pairwise (fun x y => x.1 ≤ y.1)
  total : s.n + (s.writers.map pending).sum = s.received.length
  closed : s.closed = true → ∀ w ∈ s.writers, w.busy = false
  reader : s.begun = true → s.reader ≠ .idle ∧ s.reader ≠ .checked
  returned : ∀ n received, s.reader = .returned n received → s.closed = true ∧ n = s.received.length ∧
    received = s.received.length

/-- A writer that is ready comes after writers that are done, and after `WriteTo` has begun. -/
theorem Inv.before {s : Relay} (h : Inv s) {j : Nat} (hj : s.readyAt j = true) :
    s.begun = true ∧ ∀ i < j, s.doneAt i = true := by
  induction j with
  | zero => exact ⟨hj, nofun⟩
  | succ j ih =>
    have hdone : s.doneAt j = true := hj
    obtain ⟨hbegun, hbefore⟩ := ih (h.done j hdone)
    refine ⟨hbegun, fun i hi => ?_⟩
    rcases Nat.lt_succ_iff_lt_or_eq.1 hi with hlt | rfl
    · exact hbefore i hlt
    · exact hdone

/-- The turns that have come do not go. -/
theorem readyAt_mono (s s' : Relay) (hbegun : s.begun = true → s'.begun = true)
    (hdone : ∀ i, s.doneAt i = true → s'.doneAt i = true) {i : Nat} (h : s.readyAt i = true) : s'.readyAt i = true := by
  cases i with
  | zero => exact hbegun h
  | succ i => exact hdone i h

/-- The tickets that are done after a writer is replaced. -/
theorem doneAt_set {s : Relay} {i : Nat} {w : Writer} (hi : s.writers[i]? = some w) (w' : Writer) (j : Nat) :
    (s.set i w').doneAt j = if j = i then w'.done else s.doneAt j := by
  unfold Relay.doneAt Relay.set
  have hlt := (List.getElem?_eq_some_iff.1 hi).1
  by_cases hj : j = i
  · subst hj
    rw [if_pos rfl]
    dsimp only
    rw [List.getElem?_set_self hlt]
    rfl
  · rw [if_neg hj]
    dsimp only
    rw [List.getElem?_set_ne (Ne.symm hj)]

theorem doneAt_eq {s : Relay} {i : Nat} {w : Writer} (hi : s.writers[i]? = some w) : s.doneAt i = w.done := by
  unfold Relay.doneAt
  rw [hi]
  rfl

/-! ## A writer's step -/

/-- A writer takes a step that leaves its ticket, and has written some bytes and counted some. -/
theorem Inv.step_writer {s : Relay} (h : Inv s) {i : Nat} {w : Writer} (hi : s.writers[i]? = some w) (w' : Writer)
    (got : Bytes) (k : Nat) (hdone : w'.done = w.done) (hturn : w'.ready = true ∨ w'.busy = true → s.readyAt i = true)
    (hopen : w'.call ≠ .idle → w'.done = false) (hcounts : Counts w') (hclosed : s.closed = true → w'.busy = false)
    (hgot : got ≠ [] → w.busy = true) (htotal : k + pending w' = pending w + got.length) :
    Inv { s.set i w' with n := s.n + k, received := s.received ++ got.map (fun b => (i, b)) } := by
  have hmem := List.mem_of_getElem? hi
  have hdoneAt : ∀ j, (s.set i w').doneAt j = s.doneAt j := by
    intro j
    rw [doneAt_set hi]
    split
    · rename_i hj
      rw [hj, doneAt_eq hi, hdone]
    · rfl
  have hready : ∀ j, s.readyAt j = true → (s.set i w').readyAt j = true := by
    intro j hj
    exact readyAt_mono s (s.set i w') id (fun m hm => (hdoneAt m).trans hm) hj
  have hmemSet : ∀ v ∈ s.writers.set i w', v ∈ s.writers ∨ v = w' := fun v hv => List.mem_or_eq_of_mem_set hv
  refine ⟨h.sane, ?_, ?_, ?_, ?_, ?_, ?_, ?_, ?_, h.reader, ?_⟩
  · intro j hj
    exact hready j (h.done j ((hdoneAt j).symm.trans hj))
  · intro j v hj hv
    apply hready
    by_cases hji : j = i
    · subst hji
      have hself : (s.writers.set j w')[j]? = some w' := List.getElem?_set_self (List.getElem?_eq_some_iff.1 hi).1
      obtain rfl : w' = v := Option.some.inj (hself.symm.trans hj)
      exact hturn hv
    · have hother : (s.writers.set i w')[j]? = s.writers[j]? := List.getElem?_set_ne (Ne.symm hji)
      exact h.turn j v (hother.symm.trans hj) hv
  · intro v hv
    rcases hmemSet v hv with hold | rfl
    · exact h.open_ v hold
    · exact hopen
  · intro v hv
    rcases hmemSet v hv with hold | rfl
    · exact h.counts v hold
    · exact hcounts
  · intro e he
    apply hready
    rcases List.mem_append.1 he with hold | hnew
    · exact h.bytes e hold
    · obtain ⟨b, hb, rfl⟩ := List.mem_map.1 hnew
      exact h.turn i w hi (.inr (hgot (List.ne_nil_of_mem hb)))
  · rw [List.pairwise_append]
    refine ⟨h.order, ?_, ?_⟩
    · rw [List.pairwise_map]
      exact List.pairwise_of_forall (fun _ _ => Nat.le_refl i)
    · -- a writer behind this one that has written would have it done
      intro x hx y hy
      obtain ⟨b, hb, rfl⟩ := List.mem_map.1 hy
      by_contra hlt
      have hw := hgot (List.ne_nil_of_mem hb)
      have hidone := (h.before (h.bytes x hx)).2 i (Nat.not_le.1 hlt)
      rw [doneAt_eq hi, h.open_ w hmem] at hidone
      · cases hidone
      · intro hidle
        unfold Writer.busy at hw
        rw [hidle] at hw
        cases hw
  · have hsum := sum_map_set pending hi w'
    have htot := h.total
    show s.n + k + ((s.writers.set i w').map pending).sum = _
    rw [List.length_append, List.length_map]
    omega
  · intro hcl v hv
    rcases hmemSet v hv with hold | rfl
    · exact h.closed hcl v hold
    · exact hclosed hcl
  · intro n received hret
    obtain ⟨hcl, hn, hr⟩ := h.returned n received hret
    have hnil : got = [] := by
      by_contra hne
      rw [h.closed hcl w hmem] at hgot
      cases hgot hne
    subst hnil
    refine ⟨hcl, ?_, ?_⟩ <;> simpa

/-- A writer takes a step in which nothing is written or counted. -/
theorem Inv.step_call {s : Relay} (h : Inv s) {i : Nat} {w : Writer} (hi : s.writers[i]? = some w) {w' : Writer}
    (hdone : w'.done = w.done) (hturn : w'.ready = true ∨ w'.busy = true → s.readyAt i = true)
    (hopen : w'.call ≠ .idle → w'.done = false) (hcounts : Counts w') (hclosed : s.closed = true → w'.busy = false)
    (hpending : pending w' = pending w) : Inv (s.set i w') := by
  have hstep := h.step_writer hi w' [] 0 hdone hturn hopen hcounts hclosed (fun hne => absurd rfl hne)
    (by simp [hpending])
  rwa [List.map_nil, List.append_nil, Nat.add_zero] at hstep

/-- A writer is closed when its turn has come. -/
theorem Inv.step_done {s : Relay} (h : Inv s) {i : Nat} {w : Writer} (hi : s.writers[i]? = some w)
    (hready : s.readyAt i = true) (hidle : w.call = .idle) : Inv (s.set i { w with done := true }) := by
  have hdoneAt := doneAt_set hi { w with done := true }
  have hkeep : ∀ j, s.doneAt j = true → (s.set i { w with done := true }).doneAt j = true := by
    intro j hj
    rw [hdoneAt]
    split
    · rfl
    · exact hj
  have hmono : ∀ j, s.readyAt j = true → (s.set i { w with done := true }).readyAt j = true :=
    fun j => readyAt_mono s (s.set i { w with done := true }) id hkeep
  have hmemSet : ∀ v ∈ s.writers.set i { w with done := true }, v ∈ s.writers ∨ v = { w with done := true } :=
    fun v hv => List.mem_or_eq_of_mem_set hv
  have hmem := List.mem_of_getElem? hi
  refine ⟨h.sane, ?_, ?_, ?_, ?_, fun e he => hmono e.1 (h.bytes e he), h.order, ?_, ?_, h.reader, h.returned⟩
  · intro j hj
    apply hmono
    rw [hdoneAt] at hj
    split at hj
    · rename_i hji
      rw [hji]
      exact hready
    · exact h.done j hj
  · intro j v hj hv
    apply hmono
    by_cases hji : j = i
    · rw [hji]
      exact hready
    · have hother : (s.writers.set i { w with done := true })[j]? = s.writers[j]? := List.getElem?_set_ne (Ne.symm hji)
      exact h.turn j v (hother.symm.trans hj) hv
  · intro v hv hcall
    rcases hmemSet v hv with hold | rfl
    · exact h.open_ v hold hcall
    · exact absurd hidle hcall
  · intro v hv
    rcases hmemSet v hv with hold | rfl
    · exact h.counts v hold
    · exact h.counts w hmem
  · have hsum := sum_map_set pending hi { w with done := true }
    have hsame : pending { w with done := true } = pending w := rfl
    have htotal := h.total
    show s.n + ((s.writers.set i { w with done := true }).map pending).sum = s.received.length
    omega
  · intro hcl v hv
    rcases hmemSet v hv with hold | rfl
    · exact h.closed hcl v hold
    · exact h.closed hcl w hmem

/-- What a writer does when it may. -/
theorem Inv.writerAct {s s' : Relay} (h : Inv s) {a : RelayAct} {i : Nat} {w : Writer} (hi : s.writers[i]? = some w)
    (hcall : ∀ j p counts, a = .call j p counts → (counts = true ∨ p = []) ∧ s.doneAt i = false)
    (hturn : ∀ j, a = .turn j → s.closed = false) (hdone : ∀ j, a = .done j → s.readyAt i = true ∧ s.idleAt i = true)
    (hact : s.writerAct i w a = some s') : Inv s' := by
  have hmem := List.mem_of_getElem? hi
  cases a with
  | call j p counts =>
    obtain ⟨hcounts, hopen⟩ := hcall j p counts rfl
    simp only [Relay.writerAct] at hact
    split at hact
    · rename_i hidle
      obtain rfl := Option.some.inj hact
      refine h.step_call hi rfl ?_ (fun _ => (doneAt_eq hi).symm.trans hopen) hcounts (fun _ => rfl) ?_
      · rintro (hr | hb)
        · exact h.turn i w hi (.inl hr)
        · cases hb
      · simp only [pending, hidle]
    · cases hact
  | turn j =>
    simp only [Relay.writerAct] at hact
    split at hact
    · rename_i p counts hawait
      split at hact
      · rename_i hr
        obtain rfl := Option.some.inj hact
        refine h.step_call hi rfl ?_ ?_ ?_ ?_ ?_
        · intro _
          rcases hr with hr | hr
          · exact h.turn i w hi (.inl hr)
          · exact hr
        · intro _
          refine h.open_ w hmem ?_
          rw [hawait]
          exact fun h => by cases h
        · have hc := h.counts w hmem
          unfold Counts at hc ⊢
          rw [hawait] at hc
          exact hc
        · intro hcl
          rw [hturn j rfl] at hcl
          cases hcl
        · simp only [pending, hawait]
      · cases hact
    · cases hact
  | refuse j =>
    simp only [Relay.writerAct] at hact
    split at hact
    · rename_i p counts hawait
      split at hact
      · obtain rfl := Option.some.inj hact
        refine h.step_call hi rfl ?_ (fun hne => absurd rfl hne) trivial (fun _ => rfl) ?_
        · rintro (hr | hb)
          · exact h.turn i w hi (.inl hr)
          · cases hb
        · simp only [pending, hawait]
      · cases hact
    · cases hact
  | deliver j k =>
    simp only [Relay.writerAct] at hact
    split at hact
    · rename_i p counts hwrite
      have hbusy : w.busy = true := by
        unfold Writer.busy
        rw [hwrite]
      have hready := h.turn i w hi (.inr hbusy)
      rw [if_neg (not_not.2 (h.before hready).1)] at hact
      obtain rfl := Option.some.inj hact
      refine h.step_writer hi _ (p.take k) 0 rfl (fun _ => hready) ?_ ?_ ?_ (fun _ => hbusy) ?_
      · intro _
        refine h.open_ w hmem ?_
        rw [hwrite]
        exact fun h => by cases h
      · unfold Counts
        cases counts <;> trivial
      · intro hcl
        rw [h.closed hcl w hmem] at hbusy
        cases hbusy
      · have hc := h.counts w hmem
        unfold Counts at hc
        rw [hwrite] at hc
        rcases hc with rfl | rfl
        · simp [pending, hwrite]
        · cases counts <;> simp [pending, hwrite]
    · cases hact
  | count j =>
    simp only [Relay.writerAct] at hact
    split at hact
    · rename_i k hcount
      obtain rfl := Option.some.inj hact
      have hstep := h.step_writer hi { w with call := .idle } [] k rfl ?_ (fun hne => absurd rfl hne) trivial
        (fun _ => rfl) (fun hne => absurd rfl hne) ?_
      · rwa [List.map_nil, List.append_nil] at hstep
      · rintro (hr | hb)
        · exact h.turn i w hi (.inl hr)
        · cases hb
      · simp only [pending, hcount, List.length_nil, Nat.add_zero]
    · cases hact
  | done j =>
    obtain ⟨hready, hidle⟩ := hdone j rfl
    obtain rfl := Option.some.inj hact
    refine h.step_done hi hready ?_
    simpa [Relay.idleAt, hi] using hidle
  | take | check | start | finish | close => cases hact

/-! ## A step of the relay -/

theorem readyAt_take {s : Relay} {j : Nat} (hj : s.readyAt j = true) :
    ({ s with writers := s.writers ++ [{}] } : Relay).readyAt j = true := by
  refine readyAt_mono s { s with writers := s.writers ++ [{}] } id (fun i hi => ?_) hj
  unfold Relay.doneAt at hi ⊢
  cases hw : s.writers[i]? with
  | none =>
    rw [hw] at hi
    nomatch hi
  | some w =>
    dsimp only
    rw [List.getElem?_append_left (List.getElem?_eq_some_iff.1 hw).1]
    exact hi

/-- A writer is taken. -/
theorem Inv.take {s : Relay} (h : Inv s) : Inv { s with writers := s.writers ++ [({} : Writer)] } := by
  have hget : ∀ {j : Nat} {w : Writer}, (s.writers ++ [({} : Writer)])[j]? = some w → s.writers[j]? = some w ∨
    w = ({} : Writer) := by
    intro j w hw
    rcases List.mem_append.1 (List.mem_of_getElem? hw) with _ | hnew
    · rcases Nat.lt_or_ge j s.writers.length with hlt | hge
      · exact .inl ((List.getElem?_append_left hlt).symm.trans hw)
      · rw [List.getElem?_append_right hge] at hw
        exact .inr (List.mem_singleton.1 (List.mem_of_getElem? hw))
    · exact .inr (List.mem_singleton.1 hnew)
  have hmem : ∀ w ∈ s.writers ++ [({} : Writer)], w ∈ s.writers ∨ w = ({} : Writer) := by
    intro w hw
    rcases List.mem_append.1 hw with hold | hnew
    · exact .inl hold
    · exact .inr (List.mem_singleton.1 hnew)
  refine ⟨h.sane, ?_, ?_, ?_, ?_, fun e he => readyAt_take (h.bytes e he), h.order, ?_, ?_, h.reader, h.returned⟩
  · intro j hj
    apply readyAt_take
    refine h.done j ?_
    unfold Relay.doneAt at hj ⊢
    cases hw : (s.writers ++ [({} : Writer)])[j]? with
    | none =>
      rw [hw] at hj
      nomatch hj
    | some w =>
      rw [hw] at hj
      rcases hget hw with hold | rfl
      · rw [hold]
        exact hj
      · nomatch hj
  · intro j w hw hb
    rcases hget hw with hold | rfl
    · exact readyAt_take (h.turn j w hold hb)
    · rcases hb with hb | hb <;> nomatch hb
  · intro w hw hcall
    rcases hmem w hw with hold | rfl
    · exact h.open_ w hold hcall
    · rfl
  · intro w hw
    rcases hmem w hw with hold | rfl
    · exact h.counts w hold
    · trivial
  · show s.n + ((s.writers ++ [({} : Writer)]).map pending).sum = s.received.length
    rw [List.map_append, List.sum_append, ← h.total]
    rfl
  · intro hcl w hw
    rcases hmem w hw with hold | rfl
    · exact h.closed hcl w hold
    · rfl

/-- Nothing is left to count where no call is past its wait. -/
theorem sum_pending_eq_zero {ws : List Writer} (h : ∀ w ∈ ws, w.busy = false) : (ws.map pending).sum = 0 := by
  rw [List.sum_eq_zero_iff_forall_eq_nat]
  intro k hk
  obtain ⟨w, hw, rfl⟩ := List.mem_map.1 hk
  have hbusy := h w hw
  unfold pending
  unfold Writer.busy at hbusy
  split
  · rename_i k hcount
    rw [hcount] at hbusy
    nomatch hbusy
  · rfl

/-- Before `WriteTo` lets the relay begin, the destination has nothing. -/
theorem Inv.received_nil {s : Relay} (h : Inv s) (hbegun : s.begun = false) : s.received = [] := by
  rw [List.eq_nil_iff_forall_not_mem]
  intro e he
  rw [(h.before (h.bytes e he)).1] at hbegun
  nomatch hbegun

/-- A step of an orderly run. -/
theorem Inv.act {s s' : Relay} (h : Inv s) {a : RelayAct} (hG : s.Orderly a) (hact : s.act a = some s') : Inv s' := by
  have hwriter : ∀ i, (s.writers[i]?).bind (fun w => s.writerAct i w a) = some s' →
      (∀ j p counts, a = .call j p counts → j = i) → (∀ j, a = .done j → j = i) → Inv s' := by
    intro i hbind hcall hdone
    rw [Option.bind_eq_some_iff] at hbind
    obtain ⟨w, hi, hact⟩ := hbind
    refine h.writerAct hi ?_ ?_ ?_ hact
    · rintro j p counts rfl
      obtain rfl := hcall j p counts rfl
      exact hG
    · rintro j rfl
      exact hG
    · rintro j rfl
      obtain rfl := hdone j rfl
      exact hG
  unfold Relay.act at hact
  rw [if_neg (by simp [h.sane])] at hact
  cases a with
  | take =>
    obtain rfl := Option.some.inj hact
    exact h.take
  | call i p counts => exact hwriter i hact (fun j p counts he => by cases he; rfl) nofun
  | turn i => exact hwriter i hact nofun nofun
  | refuse i => exact hwriter i hact nofun nofun
  | deliver i k => exact hwriter i hact nofun nofun
  | count i => exact hwriter i hact nofun nofun
  | done i => exact hwriter i hact nofun (fun j he => by cases he; rfl)
  | check =>
    dsimp only at hact
    split at hact
    · nomatch hact
    · rename_i hidle
      have hidle := not_not.1 hidle
      have hbegun : s.begun = false := by
        cases hb : s.begun with
        | false => rfl
        | true => exact absurd hidle (h.reader hb).1
      have hnil := h.received_nil hbegun
      split at hact
      · rename_i hcl
        obtain rfl := Option.some.inj hact
        refine ⟨h.sane, h.done, h.turn, h.open_, h.counts, h.bytes, h.order, h.total, h.closed, ?_, ?_⟩
        · intro hb
          exact ⟨nofun, nofun⟩
        · rintro n received hret
          cases hret
          refine ⟨hcl, ?_, rfl⟩
          rw [hnil]
          rfl
      · obtain rfl := Option.some.inj hact
        refine ⟨h.sane, h.done, h.turn, h.open_, h.counts, h.bytes, h.order, h.total, h.closed, ?_, nofun⟩
        intro hb
        exact absurd hb (by simp [hbegun])
  | start =>
    dsimp only at hact
    split at hact
    · obtain rfl := Option.some.inj hact
      have hmono : ∀ j, s.readyAt j = true → ({ s with begun := true, reader := .waiting } : Relay).readyAt j = true :=
        fun j => readyAt_mono s { s with begun := true, reader := .waiting } (fun _ => rfl) (fun i hi => hi)
      exact ⟨h.sane, fun j hj => hmono j (h.done j hj), fun j w hw hb => hmono j (h.turn j w hw hb), h.open_, h.counts,
        fun e he => hmono e.1 (h.bytes e he), h.order, h.total, h.closed, fun _ => ⟨nofun, nofun⟩, nofun⟩
    · nomatch hact
  | finish =>
    dsimp only at hact
    split at hact
    · rename_i hwait
      obtain rfl := Option.some.inj hact
      refine ⟨h.sane, h.done, h.turn, h.open_, h.counts, h.bytes, h.order, h.total, h.closed,
        fun _ => ⟨nofun, nofun⟩, ?_⟩
      rintro n received hret
      cases hret
      refine ⟨hwait.2, ?_, rfl⟩
      have htotal := h.total
      rw [sum_pending_eq_zero (h.closed hwait.2)] at htotal
      exact htotal
    · nomatch hact
  | close =>
    obtain rfl := Option.some.inj hact
    refine ⟨h.sane, h.done, h.turn, h.open_, h.counts, h.bytes, h.order, h.total, fun _ => hG, h.reader, ?_⟩
    intro n received hret
    obtain ⟨_, hn⟩ := h.returned n received hret
    exact ⟨rfl, hn⟩

/-- The first state. -/
theorem inv_new : Inv newRelayReader := by
  exact ⟨rfl, nofun, nofun, nofun, nofun, nofun, .nil, rfl, nofun, nofun, nofun⟩

/-- The states of the orderly runs. -/
theorem inv_reachable {s : Relay} (h : (relay.guarded Relay.Orderly).Reachable s) : Inv s := by
  induction h with
  | init h =>
    obtain rfl : _ = newRelayReader := h
    exact inv_new
  | step _ hstep ih =>
    obtain ⟨a, hG, hact⟩ := hstep
    exact ih.act hG hact

end RelayAux

open RelayAux

/-- In a run whose every step is orderly, the destination receives the bytes in the order of the tickets, each after
the writers ahead are closed, none after `WriteTo` has returned, and as many as it returns. -/
theorem relay_orderly {s : Relay} (h : (relay.guarded Relay.Orderly).Reachable s) : Relayed s := by
  have hinv := inv_reachable h
  refine ⟨hinv.order, ?_, ?_, ?_⟩
  · intro e he i hi
    exact (hinv.before (hinv.bytes e he)).2 i hi
  · intro n received hret
    obtain ⟨_, hn, hr⟩ := hinv.returned n received hret
    rw [hn, hr]
  · intro n received hret
    exact (hinv.returned n received hret).2.2.symm

/-- A call of the writer `i` that writes all of `p`. -/
def wholeCall (i : Nat) (p : Bytes) (counts : Bool) : List RelayAct :=
  [.call i p counts, .turn i, .deliver i p.length] ++ if counts then [.count i] else []

/-- Two writers write and are closed in their turn. -/
def inTurn : List RelayAct :=
  List.flatten [[.take, .take, .check, .start], wholeCall 0 [97, 98] true,
    [.call 1 [99] true, .done 0, .turn 1, .deliver 1 1, .count 1, .done 1, .close, .finish]]

/-- Two writers write and are closed in their turn, and the line is closed. -/
theorem relay_orderly_two : ∃ s, (relay.guarded Relay.Orderly).Reachable s ∧ Relayed s ∧
    s.received = [(0, 97), (0, 98), (1, 99)] ∧ s.reader = .returned 3 3 := by
  have hrun : (relay.runGuarded Relay.Orderly newRelayReader inTurn).map (fun s => (s.received, s.reader)) =
      some ([(0, 97), (0, 98), (1, 99)], .returned 3 3) := by decide +kernel
  rw [Option.map_eq_some_iff] at hrun
  obtain ⟨s, hs, hend⟩ := hrun
  simp only [Prod.mk.injEq] at hend
  obtain ⟨hreceived, hreader⟩ := hend
  have hreach : (relay.guarded Relay.Orderly).Reachable s := Machine.reachable_runGuarded (.init rfl) hs
  exact ⟨s, hreach, relay_orderly hreach, hreceived, hreader⟩

/-- The second of three writers is closed before its turn. -/
def closedEarly : List RelayAct :=
  List.flatten [[.take, .take, .take, .check, .start, .done 1], wholeCall 2 [99] true, wholeCall 0 [97] true]

/-- A byte is written that is not counted. -/
def uncounted : List RelayAct :=
  List.flatten [[.take, .check, .start], wholeCall 0 [97] false, [.done 0, .close, .finish]]

/-- The writer of the turn writes after the line has been closed. -/
def writesLate : List RelayAct :=
  List.flatten [[.take, .check, .start], wholeCall 0 [97] true, [.close, .finish], wholeCall 0 [98] true]

/-- The second of three writers is closed before its turn, and the third writes before the first. A byte that
`WriteString` writes is not counted. A writer that has had its turn writes after `WriteTo` has returned. -/
theorem relay_not_relayed :
    (∃ s, relay.system.Reachable s ∧ s.received = [(2, 99), (0, 97)] ∧ s.doneAt 0 = false) ∧
    (∃ s, relay.system.Reachable s ∧ s.received = [(0, 97)] ∧ s.reader = .returned 0 1) ∧
    ∃ s, relay.system.Reachable s ∧ s.received = [(0, 97), (0, 98)] ∧ s.reader = .returned 1 1 := by
  refine ⟨?_, ?_, ?_⟩
  · have hrun : (relay.run newRelayReader closedEarly).map (fun s => (s.received, s.doneAt 0)) =
        some ([(2, 99), (0, 97)], false) := by decide +kernel
    rw [Option.map_eq_some_iff] at hrun
    obtain ⟨s, hs, hend⟩ := hrun
    simp only [Prod.mk.injEq] at hend
    exact ⟨s, Machine.reachable_run (.init rfl) hs, hend⟩
  · have hrun : (relay.run newRelayReader uncounted).map (fun s => (s.received, s.reader)) =
        some ([(0, 97)], .returned 0 1) := by decide +kernel
    rw [Option.map_eq_some_iff] at hrun
    obtain ⟨s, hs, hend⟩ := hrun
    simp only [Prod.mk.injEq] at hend
    exact ⟨s, Machine.reachable_run (.init rfl) hs, hend⟩
  · have hrun : (relay.run newRelayReader writesLate).map (fun s => (s.received, s.reader)) =
        some ([(0, 97), (0, 98)], .returned 1 1) := by decide +kernel
    rw [Option.map_eq_some_iff] at hrun
    obtain ⟨s, hs, hend⟩ := hrun
    simp only [Prod.mk.injEq] at hend
    exact ⟨s, Machine.reachable_run (.init rfl) hs, hend⟩

end Ollama.Syncs
