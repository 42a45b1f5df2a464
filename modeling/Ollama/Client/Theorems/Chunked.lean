import Mathlib.Algebra.Order.BigOperators.Group.List
import Ollama.Client.Chunks

/-!
# When a chunked pull gets stuck

Only a goroutine closes the relay: the one that completes the count, one that fails, or the one that puts the layer.
Where the loop leaves the layer early and none of them will, the layer is put from a relay that nobody writes to.
Where it does not, the pull does not get stuck (`chunked_not_stuck`).
-/

namespace Ollama.Client

open Lib Utf8 Syncs

/-- The loop has left the layer and every chunk's goroutine has returned, while the relay is open and the layer is
still being put. -/
structure Chunked.Stuck (s : Chunked) : Prop where
  left : s.loop = .left
  returned : ∀ c ∈ s.chunks, c.phase = .returned
  isOpen : s.relay.closed = false
  waiting : s.relay.reader = .waiting

/-- The goroutine is about to close the relay. -/
def ChunkTask.closing (c : ChunkTask) : Bool :=
  match c.phase with
  | .writing failed => failed
  | .complete => true
  | .failed => true
  | _ => false

/-- The relay is closed, or a goroutine is about to close it. -/
def Chunked.Settled (s : Chunked) : Prop := s.relay.closed = true ∨ ∃ c ∈ s.chunks, c.closing = true

instance (s : Chunked) : Decidable s.Settled := inferInstanceAs (Decidable (_ ∨ _))

/-- What holds before the loop goes on from where it stands: it leaves the layer before the last chunk only where the
relay is closed or about to be, and at the end where the layer's size is not negative; and the offset after a chunk is
an `int64`. -/
def Chunked.ClosesNext (size chunkSize : Int64) (s : Chunked) : LoopPhase → Prop
  | .next start =>
    if ¬start < size then 0 ≤ size ∨ s.Settled
    else if s.canceled then s.Settled
    else 0 < chunkSize.toInt ∧ start.toInt + chunkSize.toInt < 2 ^ 63
  | _ => True

instance (size chunkSize : Int64) (s : Chunked) (l : LoopPhase) : Decidable (s.ClosesNext size chunkSize l) :=
  match l with
  | .next start => inferInstanceAs (Decidable (if ¬start < size then 0 ≤ size ∨
      s.Settled else if s.canceled then s.Settled else _ ∧ _))
  | .request | .left => .isTrue trivial

/-- The loop leaves the layer only where the relay is closed or will be: when the first request fails, when the
context is done, and when the layer has no chunk. -/
def Chunked.Closes (size chunkSize : Int64) (s : Chunked) : ChunkedAct → Prop
  | .request ok => ok = true ∨ s.Settled
  | .next => s.ClosesNext size chunkSize s.loop
  | _ => True

instance (size chunkSize : Int64) (s : Chunked) (a : ChunkedAct) : Decidable (s.Closes size chunkSize a) :=
  match a with
  | .request ok => inferInstanceAs (Decidable (ok = true ∨ s.Settled))
  | .next => inferInstanceAs (Decidable (s.ClosesNext size chunkSize s.loop))
  | .cancel | .copy | .check | .start | .finish | .put | .putClose | .retry _ | .fail _ | .write _ _ | .turn
      _ | .refuse _ | .deliver _ _ _
  | .written _ | .flushed _ | .complete _ | .failed _ | .done _ => .isTrue trivial

namespace ChunkedAux

/-! ## The relay -/

/-- A writer does not close the relay, and leaves `WriteTo` where it stands. -/
theorem writerAct_frame {s r : Relay} {i : Nat} {w : Writer} {a : RelayAct} (h : s.writerAct i w a = some r) :
    r.closed = s.closed ∧ r.reader = s.reader := by
  cases a with
  | call j p counts =>
    simp only [Relay.writerAct] at h
    split at h
    · obtain rfl := Option.some.inj h
      exact ⟨rfl, rfl⟩
    · nomatch h
  | turn j =>
    simp only [Relay.writerAct] at h
    split at h
    · split at h
      · obtain rfl := Option.some.inj h
        exact ⟨rfl, rfl⟩
      · nomatch h
    · nomatch h
  | refuse j =>
    simp only [Relay.writerAct] at h
    split at h
    · split at h
      · obtain rfl := Option.some.inj h
        exact ⟨rfl, rfl⟩
      · nomatch h
    · nomatch h
  | deliver j k =>
    simp only [Relay.writerAct] at h
    split at h
    · split at h
      · obtain rfl := Option.some.inj h
        exact ⟨rfl, rfl⟩
      · obtain rfl := Option.some.inj h
        exact ⟨rfl, rfl⟩
    · nomatch h
  | count j =>
    simp only [Relay.writerAct] at h
    split at h
    · obtain rfl := Option.some.inj h
      exact ⟨rfl, rfl⟩
    · nomatch h
  | done j =>
    obtain rfl := Option.some.inj h
    exact ⟨rfl, rfl⟩
  | take | check | start | finish | close => nomatch h

/-- What an act does to whether the relay is closed, and to where `WriteTo` stands. -/
theorem act_frame {s r : Relay} {a : RelayAct} (h : s.act a = some r) :
    (a ≠ .close → r.closed = s.closed) ∧ (a = .close → r.closed = true) ∧
    (a ≠ .check → a ≠ .start → a ≠ .finish → r.reader = s.reader) := by
  have hwriter : ∀ i, (s.writers[i]?).bind (fun w => s.writerAct i w a) = some r → r.closed = s.closed ∧
    r.reader = s.reader := by
    intro i hbind
    rw [Option.bind_eq_some_iff] at hbind
    obtain ⟨w, _, hact⟩ := hbind
    exact writerAct_frame hact
  unfold Relay.act at h
  split at h
  · nomatch h
  cases a with
  | take =>
    obtain rfl := Option.some.inj h
    exact ⟨fun _ => rfl, nofun, fun _ _ _ => rfl⟩
  | check =>
    refine ⟨fun _ => ?_, nofun, fun hne => absurd rfl hne⟩
    dsimp only at h
    split at h
    · nomatch h
    · split at h
      · obtain rfl := Option.some.inj h
        rfl
      · obtain rfl := Option.some.inj h
        rfl
  | start =>
    refine ⟨fun _ => ?_, nofun, fun _ hne => absurd rfl hne⟩
    dsimp only at h
    split at h
    · obtain rfl := Option.some.inj h
      rfl
    · nomatch h
  | finish =>
    refine ⟨fun _ => ?_, nofun, fun _ _ hne => absurd rfl hne⟩
    dsimp only at h
    split at h
    · obtain rfl := Option.some.inj h
      rfl
    · nomatch h
  | close =>
    obtain rfl := Option.some.inj h
    exact ⟨fun hne => absurd rfl hne, fun _ => rfl, fun _ _ _ => rfl⟩
  | call i p counts =>
    obtain ⟨hc, hr⟩ := hwriter i h
    exact ⟨fun _ => hc, nofun, fun _ _ _ => hr⟩
  | turn i | refuse i | count i | done i =>
    obtain ⟨hc, hr⟩ := hwriter i h
    exact ⟨fun _ => hc, nofun, fun _ _ _ => hr⟩
  | deliver i k =>
    obtain ⟨hc, hr⟩ := hwriter i h
    exact ⟨fun _ => hc, nofun, fun _ _ _ => hr⟩

/-! ## The chunks -/

/-- The bytes that a chunk's goroutine has counted. -/
def weight (c : ChunkTask) : Int :=
  match c.phase with
  | .complete => c.chunk.size.toInt
  | .ending => c.chunk.size.toInt
  | .returned => c.chunk.size.toInt
  | _ => 0

/-- The bytes of a chunk. -/
def bytes (c : ChunkTask) : Int := c.chunk.size.toInt

/-- What the states of the runs are like. -/
structure Inv (size : Int64) (s : Chunked) : Prop where
  sizes : ∀ c ∈ s.chunks, 0 < bytes c
  empty : size.toInt ≤ 0 → s.chunks = []
  request : s.loop = .request → s.chunks = []
  next : ∀ start, s.loop = .next start → 0 ≤ start.toInt ∧
    (0 < size.toInt → (s.chunks.map bytes).sum = min start.toInt size.toInt)
  bound : 0 < size.toInt → (s.chunks.map bytes).sum ≤ size.toInt
  left : s.loop = .left → s.Settled ∨ size = 0 ∨ (0 < size.toInt ∧ (s.chunks.map bytes).sum = size.toInt)
  counted : s.relay.closed = false → s.progress.toInt = (s.chunks.map weight).sum
  short : s.relay.closed = false → 0 < size.toInt → s.progress < size ∨ ∃ c ∈ s.chunks, c.phase = .complete
  opening : s.put = .opening → s.relay.reader = .idle
  zero : size = 0 → s.put ≠ .copying ∧ s.relay.reader = .idle

/-- The first state. -/
theorem inv_new (size : Int64) : Inv size newChunked := by
  refine ⟨nofun, fun _ => rfl, fun _ => rfl, nofun, fun hpos => Int.le_of_lt hpos, nofun, fun _ => rfl,
    fun _ hpos => .inl ?_, fun _ => rfl, fun _ => ⟨nofun, rfl⟩⟩
  rw [Int64.lt_iff_toInt_lt]
  exact hpos

/-- What is counted is no more than there is. -/
theorem sum_counted_le {cs : List ChunkTask} (hsizes : ∀ c ∈ cs, 0 < bytes c) :
    0 ≤ (cs.map weight).sum ∧ (cs.map weight).sum ≤ (cs.map bytes).sum := by
  have hle : ∀ c ∈ cs, 0 ≤ weight c ∧ weight c ≤ bytes c := by
    intro c hc
    have hpos := hsizes c hc
    unfold weight
    split
    · exact ⟨Int.le_of_lt hpos, Int.le_refl _⟩
    · exact ⟨Int.le_of_lt hpos, Int.le_refl _⟩
    · exact ⟨Int.le_of_lt hpos, Int.le_refl _⟩
    · exact ⟨Int.le_refl 0, Int.le_of_lt hpos⟩
  refine ⟨List.sum_nonneg ?_, List.sum_le_sum fun c hc => (hle c hc).2⟩
  intro k hk
  obtain ⟨c, hc, rfl⟩ := List.mem_map.1 hk
  exact (hle c hc).1

/-- Every chunk is counted when every goroutine has returned. -/
theorem sum_counted_returned {cs : List ChunkTask} (h : ∀ c ∈ cs, c.phase = .returned) :
    (cs.map weight).sum = (cs.map bytes).sum := by
  congr 1
  refine List.map_congr_left fun c hc => ?_
  unfold weight
  rw [h c hc]
  rfl

/-- In such a state the pull is not stuck. -/
theorem Inv.not_stuck {size : Int64} {s : Chunked} (h : Inv size s) : ¬s.Stuck := by
  intro hstuck
  rcases h.left hstuck.left with hsettled | hzero | ⟨hpos, htotal⟩
  · rcases hsettled with hclosed | ⟨c, hc, hclosing⟩
    · rw [hstuck.isOpen] at hclosed
      cases hclosed
    · unfold ChunkTask.closing at hclosing
      rw [hstuck.returned c hc] at hclosing
      cases hclosing
  · have hreader := (h.zero hzero).2
    rw [hstuck.waiting] at hreader
    cases hreader
  · have hcounted := h.counted hstuck.isOpen
    rw [sum_counted_returned hstuck.returned, htotal] at hcounted
    rcases h.short hstuck.isOpen hpos with hlt | ⟨c, hc, hcomplete⟩
    · rw [Int64.lt_iff_toInt_lt] at hlt
      omega
    · rw [hstuck.returned c hc] at hcomplete
      cases hcomplete

/-! ## Steps -/

/-- A list of tasks in which one has gone on holds the same chunks. -/
theorem map_bytes_set {cs : List ChunkTask} {i : Nat} {c : ChunkTask} (hi : cs[i]? = some c) (phase : ChunkPhase) :
    (cs.set i { c with phase }).map bytes = cs.map bytes := by
  obtain ⟨a, b, rfl, hset⟩ := exists_split hi
  rw [hset, List.map_append, List.map_append, List.map_cons, List.map_cons]
  rfl

/-- The goroutine of a chunk goes on. It leaves the relay to be closed if it was about to close it, and what it has
counted is in the total. -/
theorem Inv.move {size : Int64} {s : Chunked} (h : Inv size s) {i : Nat} {c : ChunkTask}
    (hi : s.chunks[i]? = some c) (phase : ChunkPhase) (r : Relay) (p : Int64) (hreader : r.reader = s.relay.reader)
    (hclosed : s.relay.closed = true → r.closed = true)
    (hclosing : c.closing = true → r.closed = true ∨ ChunkTask.closing { c with phase } = true)
    (hcounted : r.closed = false → p.toInt + weight c = s.progress.toInt + weight { c with phase })
    (hshort : r.closed = false → p < size ∨ phase = .complete ∨ (p = s.progress ∧ c.phase ≠ .complete)) :
    Inv size { s.move i c phase r with progress := p } := by
  have hmem := List.mem_of_getElem? hi
  have hlt := (List.getElem?_eq_some_iff.1 hi).1
  have hself : { c with phase } ∈ s.chunks.set i { c with phase } := List.mem_set hlt _
  have hkeep : ∀ d ∈ s.chunks, d = c ∨ d ∈ s.chunks.set i { c with phase } := by
    intro d hd
    obtain ⟨a, b, heq, hset⟩ := exists_split hi
    rw [heq] at hd
    rw [hset]
    rcases List.mem_append.1 hd with hd | hd
    · exact .inr (List.mem_append_left _ hd)
    · rcases List.mem_cons.1 hd with rfl | hd
      · exact .inl rfl
      · exact .inr (List.mem_append_right _ (List.mem_cons_of_mem _ hd))
  have hopen : r.closed = false → s.relay.closed = false := by
    intro hr
    cases hs : s.relay.closed with
    | false => rfl
    | true =>
      rw [hclosed hs] at hr
      nomatch hr
  have hsettled : s.Settled → ({ s.move i c phase r with progress := p } : Chunked).Settled := by
    rintro (hs | ⟨d, hd, hdc⟩)
    · exact .inl (hclosed hs)
    · rcases hkeep d hd with rfl | hd'
      · exact (hclosing hdc).imp id (fun hc => ⟨_, hself, hc⟩)
      · exact .inr ⟨d, hd', hdc⟩
  have hbytes := map_bytes_set hi phase
  have hnil : s.chunks ≠ [] := List.ne_nil_of_mem hmem
  refine ⟨?_, ?_, ?_, ?_, ?_, ?_, ?_, ?_, ?_, ?_⟩
  · intro d hd
    rcases List.mem_or_eq_of_mem_set hd with hold | rfl
    · exact h.sizes d hold
    · exact h.sizes c hmem
  · exact fun hle => absurd (h.empty hle) hnil
  · exact fun hreq => absurd (h.request hreq) hnil
  · intro start hnext
    obtain ⟨hstart, htotal⟩ := h.next start hnext
    exact ⟨hstart, fun hpos => (congrArg List.sum hbytes).trans (htotal hpos)⟩
  · exact fun hpos => (congrArg List.sum hbytes).le.trans (h.bound hpos)
  · intro hleft
    rcases h.left hleft with hs | hz | ⟨hpos, htotal⟩
    · exact .inl (hsettled hs)
    · exact .inr (.inl hz)
    · exact .inr (.inr ⟨hpos, (congrArg List.sum hbytes).trans htotal⟩)
  · intro hr
    have hold := h.counted (hopen hr)
    have hsum := sum_map_set weight hi { c with phase }
    have hstep := hcounted hr
    show p.toInt = ((s.chunks.set i { c with phase }).map weight).sum
    omega
  · intro hr hpos
    rcases hshort hr with hlt | rfl | ⟨rfl, hne⟩
    · exact .inl hlt
    · exact .inr ⟨_, hself, rfl⟩
    · rcases h.short (hopen hr) hpos with hlt | ⟨d, hd, hdc⟩
      · exact .inl hlt
      · rcases hkeep d hd with rfl | hd'
        · exact absurd hdc hne
        · exact .inr ⟨d, hd', hdc⟩
  · exact fun hput => hreader.trans (h.opening hput)
  · intro hz
    obtain ⟨hput, hidle⟩ := h.zero hz
    exact ⟨hput, hreader.trans hidle⟩

/-- The goroutine of a chunk takes a step of the relay and counts nothing. -/
theorem Inv.move_relay {size : Int64} {s : Chunked} (h : Inv size s) {i : Nat} {c : ChunkTask}
    (hi : s.chunks[i]? = some c) (phase : ChunkPhase) {r : Relay} {a : RelayAct} (hact : s.relay.act a = some r)
    (hreader : a ≠ .check ∧ a ≠ .start ∧ a ≠ .finish)
    (hclosing : c.closing = true → a = .close ∨ ChunkTask.closing { c with phase } = true)
    (hcounted : a = .close ∨ weight c = weight { c with phase })
    (hcomplete : a = .close ∨ phase = .complete ∨ c.phase ≠ .complete) : Inv size (s.move i c phase r) := by
  obtain ⟨hframe, hclose, hread⟩ := act_frame hact
  have hopen : r.closed = false → a ≠ .close := by
    rintro hr rfl
    rw [hclose rfl] at hr
    nomatch hr
  refine h.move hi phase r s.progress (hread hreader.1 hreader.2.1 hreader.2.2) ?_ ?_ ?_ ?_
  · intro hs
    by_cases ha : a = .close
    · exact hclose ha
    · exact (hframe ha).trans hs
  · exact fun hc => (hclosing hc).imp hclose id
  · intro hr
    rw [hcounted.resolve_left (hopen hr)]
  · intro hr
    exact .inr ((hcomplete.resolve_left (hopen hr)).imp id (fun hne => ⟨rfl, hne⟩))

/-- The goroutine of a chunk takes a step. -/
theorem Inv.chunkAct {size : Int64} {s s' : Chunked} (h : Inv size s) {i : Nat} {c : ChunkTask}
    (hi : s.chunks[i]? = some c) {a : ChunkedAct} (hact : s.chunkAct size i c a = some s') : Inv size s' := by
  cases a with
  | retry j =>
    simp only [Chunked.chunkAct] at hact
    split at hact
    · obtain rfl := Option.some.inj hact
      exact h
    · nomatch hact
  | fail j =>
    simp only [Chunked.chunkAct] at hact
    split at hact
    · rename_i hphase
      obtain rfl := Option.some.inj hact
      refine h.move hi .failed s.relay s.progress rfl id (fun _ => .inr rfl) (fun _ => ?_)
        (fun _ => .inr (.inr ⟨rfl, ?_⟩))
      · simp only [weight, hphase]
      · rw [hphase]
        nofun
    · nomatch hact
  | write j p =>
    simp only [Chunked.chunkAct] at hact
    split at hact
    · rename_i hphase
      obtain ⟨r, hr, rfl⟩ := Option.map_eq_some_iff.1 hact
      refine h.move_relay hi _ hr ⟨nofun, nofun, nofun⟩ ?_ (.inr ?_) (.inr (.inr ?_))
      · simp [ChunkTask.closing, hphase]
      · simp only [weight, hphase]
      · rw [hphase]
        nofun
    · nomatch hact
  | turn j =>
    simp only [Chunked.chunkAct] at hact
    split at hact
    · rename_i hphase
      obtain ⟨r, hr, rfl⟩ := Option.map_eq_some_iff.1 hact
      refine h.move_relay hi _ hr ⟨nofun, nofun, nofun⟩ ?_ (.inr ?_) (.inr (.inr ?_))
      · simp [ChunkTask.closing, hphase]
      · simp only [weight, hphase]
      · rw [hphase]
        nofun
    · nomatch hact
  | refuse j =>
    simp only [Chunked.chunkAct] at hact
    split at hact
    · rename_i hphase
      obtain ⟨r, hr, rfl⟩ := Option.map_eq_some_iff.1 hact
      refine h.move_relay hi _ hr ⟨nofun, nofun, nofun⟩ (fun _ => .inr rfl) (.inr ?_) (.inr (.inr ?_))
      · simp only [weight, hphase]
      · rw [hphase]
        nofun
    · nomatch hact
  | deliver j k failed =>
    simp only [Chunked.chunkAct] at hact
    split at hact
    · rename_i hphase
      obtain ⟨r, hr, rfl⟩ := Option.map_eq_some_iff.1 hact
      refine h.move_relay hi _ hr ⟨nofun, nofun, nofun⟩ ?_ (.inr ?_) (.inr (.inr ?_))
      · simp [ChunkTask.closing, hphase]
      · simp only [weight, hphase]
      · rw [hphase]
        nofun
    · nomatch hact
  | written j =>
    simp only [Chunked.chunkAct] at hact
    split at hact
    · rename_i failed hphase
      obtain ⟨r, hr, rfl⟩ := Option.map_eq_some_iff.1 hact
      refine h.move_relay hi _ hr ⟨nofun, nofun, nofun⟩ ?_ (.inr ?_) (.inr (.inr ?_))
      · cases failed <;> simp [ChunkTask.closing, hphase]
      · cases failed <;> simp [weight, hphase]
      · rw [hphase]
        nofun
    · nomatch hact
  | flushed j =>
    simp only [Chunked.chunkAct] at hact
    split at hact
    · rename_i hphase
      obtain rfl := Option.some.inj hact
      have hmem := List.mem_of_getElem? hi
      have hzero : weight c = 0 := by simp only [weight, hphase]
      have hpos : 0 < size.toInt := by
        by_contra hle
        rw [h.empty (Int.not_lt.1 hle)] at hmem
        nomatch hmem
      have hwhole : ∀ phase, phase = ChunkPhase.complete ∨ phase = .ending → weight { c with phase } = bytes c := by
        rintro phase (rfl | rfl) <;> rfl
      -- what is counted so far and this chunk are among all the chunks, so that the total is an `int64`
      have htotal : s.relay.closed = false → (s.progress + c.chunk.size).toInt =
        s.progress.toInt + c.chunk.size.toInt := by
        intro hopen
        have hsum := sum_map_set weight hi { c with phase := .ending }
        rw [hzero, hwhole .ending (.inr rfl)] at hsum
        have hnew : ∀ d ∈ s.chunks.set i { c with phase := .ending }, 0 < bytes d := by
          intro d hd
          rcases List.mem_or_eq_of_mem_set hd with hold | rfl
          · exact h.sizes d hold
          · exact h.sizes c hmem
        have hle := sum_counted_le hnew
        rw [map_bytes_set hi] at hle
        have hbound := h.bound hpos
        have hcounted := h.counted hopen
        have hsize := size.toInt_lt
        have hsizes : (0 : Int) < c.chunk.size.toInt := h.sizes c hmem
        have hnonneg := (sum_counted_le h.sizes).1
        have hbytes : bytes c = c.chunk.size.toInt := rfl
        exact toInt_add_of_fits (by omega) (by omega)
      refine h.move hi _ s.relay _ rfl id ?_ ?_ ?_
      · simp [ChunkTask.closing, hphase]
      · intro hopen
        rw [hzero, hwhole _ (by split <;> simp), htotal hopen, Int.add_zero]
        rfl
      · intro _
        by_cases hle : size ≤ s.progress + c.chunk.size
        · exact .inr (.inl (if_pos hle))
        · exact .inl (Int64.not_le.1 hle)
    · nomatch hact
  | complete j =>
    simp only [Chunked.chunkAct] at hact
    split at hact
    · obtain ⟨r, hr, rfl⟩ := Option.map_eq_some_iff.1 hact
      exact h.move_relay hi _ hr ⟨nofun, nofun, nofun⟩ (fun _ => .inl rfl) (.inl rfl) (.inl rfl)
    · nomatch hact
  | failed j =>
    simp only [Chunked.chunkAct] at hact
    split at hact
    · obtain ⟨r, hr, rfl⟩ := Option.map_eq_some_iff.1 hact
      exact h.move_relay hi _ hr ⟨nofun, nofun, nofun⟩ (fun _ => .inl rfl) (.inl rfl) (.inl rfl)
    · nomatch hact
  | done j =>
    simp only [Chunked.chunkAct] at hact
    split at hact
    · rename_i hphase
      obtain ⟨r, hr, rfl⟩ := Option.map_eq_some_iff.1 hact
      refine h.move_relay hi _ hr ⟨nofun, nofun, nofun⟩ ?_ (.inr ?_) (.inr (.inr ?_))
      · simp [ChunkTask.closing, hphase]
      · simp only [weight, hphase]
      · rw [hphase]
        nofun
    · nomatch hact
  | request ok => nomatch hact
  | next | cancel | copy | check | start | finish | put | putClose => nomatch hact

/-- The goroutine that puts the layer, or the context, goes on: the loop and the chunks stay. -/
theorem Inv.frame {size : Int64} {s : Chunked} (h : Inv size s) (r : Relay) (put : PutPhase) (canceled : Bool)
    (hclosed : s.relay.closed = true → r.closed = true) (hopening : put = .opening → r.reader = .idle)
    (hzero : size = 0 → put ≠ .copying ∧ r.reader = .idle) : Inv size { s with relay := r, put, canceled } := by
  have hopen : r.closed = false → s.relay.closed = false := by
    intro hr
    cases hs : s.relay.closed with
    | false => rfl
    | true =>
      rw [hclosed hs] at hr
      nomatch hr
  refine ⟨h.sizes, h.empty, h.request, h.next, h.bound, ?_, fun hr => h.counted (hopen hr),
    fun hr => h.short (hopen hr), hopening, hzero⟩
  intro hleft
  exact (h.left hleft).imp (fun hs => hs.imp hclosed id) id

/-- The loop starts the goroutine of a chunk. -/
theorem Inv.start_chunk {size chunkSize start : Int64} {s : Chunked} (h : Inv size s) (hloop : s.loop = .next start)
    (hlt : start < size) (hpos : 0 < chunkSize.toInt) (hfits : start.toInt + chunkSize.toInt < 2 ^ 63) {r : Relay}
    (hact : s.relay.act .take = some r) :
    Inv size { s with
      relay := r
      loop := .next (start + chunkSize)
      chunks := s.chunks ++ [⟨chunkAt size chunkSize start, .attempt⟩] } := by
  obtain ⟨hstart, htotal⟩ := h.next start hloop
  rw [Int64.lt_iff_toInt_lt] at hlt
  have hsize : 0 < size.toInt := by omega
  have hbytes : bytes ⟨chunkAt size chunkSize start, .attempt⟩ =
    min (start.toInt + chunkSize.toInt) size.toInt - start.toInt := chunkAt_size hstart hlt hpos hfits
  have hoffset : (start + chunkSize).toInt = start.toInt + chunkSize.toInt := toInt_add_of_fits (by omega) (by omega)
  have hsum : ((s.chunks ++ [(⟨chunkAt size chunkSize start, .attempt⟩ : ChunkTask)]).map bytes).sum =
      min (start.toInt + chunkSize.toInt) size.toInt := by
    rw [List.map_append, List.sum_append, htotal hsize, List.map_singleton, List.sum_singleton, hbytes]
    omega
  obtain ⟨hframe, _, hreader⟩ := act_frame hact
  have hclosed := hframe nofun
  have hreader := hreader nofun nofun nofun
  refine ⟨?_, fun hle => by omega, nofun, ?_, ?_, nofun, ?_, ?_, fun hput => hreader.trans (h.opening hput), ?_⟩
  · intro c hc
    rcases List.mem_append.1 hc with hold | hnew
    · exact h.sizes c hold
    · rw [List.mem_singleton.1 hnew, hbytes]
      omega
  · intro start' hnext
    cases hnext
    refine ⟨by omega, fun _ => ?_⟩
    rw [hoffset]
    exact hsum
  · intro _
    exact hsum.le.trans (by omega)
  · intro hr
    show s.progress.toInt = ((s.chunks ++ [(⟨chunkAt size chunkSize start, .attempt⟩ : ChunkTask)]).map weight).sum
    rw [List.map_append, List.sum_append, ← h.counted (hclosed.symm.trans hr)]
    exact (Int.add_zero _).symm
  · intro hr hpos'
    rcases h.short (hclosed.symm.trans hr) hpos' with hlt | ⟨c, hc, hcc⟩
    · exact .inl hlt
    · exact .inr ⟨c, List.mem_append_left _ hc, hcc⟩
  · intro hz
    obtain ⟨hput, hidle⟩ := h.zero hz
    exact ⟨hput, hreader.trans hidle⟩

/-- The loop leaves the layer. -/
theorem Inv.leave {size : Int64} {s : Chunked} (h : Inv size s)
    (hleft : s.Settled ∨ size = 0 ∨ (0 < size.toInt ∧ (s.chunks.map bytes).sum = size.toInt)) :
    Inv size { s with loop := .left } :=
  ⟨h.sizes, h.empty, nofun, nofun, h.bound, fun _ => hleft, h.counted, h.short, h.opening, h.zero⟩

/-- A step before which the guard holds. -/
theorem Inv.act {size chunkSize : Int64} {s s' : Chunked} (h : Inv size s) {a : ChunkedAct}
    (hG : s.Closes size chunkSize a) (hact : s.act size chunkSize a = some s') : Inv size s' := by
  have hchunk : ∀ i, (s.chunks[i]?).bind (fun c => s.chunkAct size i c a) = some s' → Inv size s' := by
    intro i hbind
    rw [Option.bind_eq_some_iff] at hbind
    obtain ⟨c, hi, hact⟩ := hbind
    exact h.chunkAct hi hact
  -- a step of `WriteTo`, which is called where the layer has bytes
  have hwriteTo : ∀ b, b ≠ .close →
      (if s.put = .copying then (s.relay.act b).map (fun r => { s with relay := r }) else none) = some s' →
      Inv size s' := by
    intro b hb hif
    split at hif
    · rename_i hput
      obtain ⟨r, hr, rfl⟩ := Option.map_eq_some_iff.1 hif
      refine h.frame r s.put s.canceled (fun hs => ((act_frame hr).1 hb).trans hs) ?_ ?_
      · rw [hput]
        exact fun h => by cases h
      · exact fun hz => absurd hput (h.zero hz).1
    · cases hif
  unfold Chunked.act at hact
  split at hact
  · cases hact
  cases a with
  | request ok =>
    dsimp only at hact
    split at hact
    · rename_i hreq
      obtain rfl := Option.some.inj hact
      have hnil := h.request hreq
      cases ok with
      | true =>
        refine ⟨h.sizes, h.empty, fun hloop => (by cases hloop), ?_, h.bound, fun hloop => (by cases hloop),
          h.counted, h.short, h.opening, h.zero⟩
        intro start hnext
        cases hnext
        refine ⟨Int.le_refl _, fun hpos => ?_⟩
        show (s.chunks.map bytes).sum = _
        rw [hnil]
        exact (min_eq_left (Int.le_of_lt hpos)).symm
      | false => exact h.leave (.inl (hG.resolve_left Bool.false_ne_true))
    · cases hact
  | next =>
    dsimp only at hact
    split at hact
    · rename_i start hloop
      have hG : s.ClosesNext size chunkSize s.loop := hG
      rw [hloop] at hG
      simp only [Chunked.ClosesNext] at hG
      split at hact
      · rename_i hge
        rw [if_pos hge] at hG
        obtain rfl := Option.some.inj hact
        apply h.leave
        rcases hG with hsize | hs
        · rw [Int64.lt_iff_toInt_lt] at hge
          rw [Int64.le_iff_toInt_le] at hsize
          rcases Int.lt_or_eq_of_le hsize with hpos | hz
          · refine .inr (.inr ⟨hpos, ?_⟩)
            rw [(h.next start hloop).2 hpos]
            exact min_eq_right (Int.not_lt.1 hge)
          · exact .inr (.inl (Int64.toInt_inj.1 hz.symm))
        · exact .inl hs
      · rename_i hlt
        rw [if_neg hlt] at hG
        split at hact
        · rename_i hcanceled
          rw [if_pos hcanceled] at hG
          obtain rfl := Option.some.inj hact
          exact h.leave (.inl hG)
        · rename_i hcanceled
          rw [if_neg hcanceled] at hG
          obtain ⟨r, hr, rfl⟩ := Option.map_eq_some_iff.1 hact
          exact h.start_chunk hloop (not_not.1 hlt) hG.1 hG.2 hr
    · cases hact
  | cancel =>
    obtain rfl := Option.some.inj hact
    exact h.frame s.relay s.put true id h.opening h.zero
  | copy =>
    dsimp only at hact
    split at hact
    · rename_i hcond
      obtain rfl := Option.some.inj hact
      exact h.frame s.relay .copying s.canceled id (fun hput => by cases hput) (fun hz => absurd hz hcond.2)
    · cases hact
  | check => exact hwriteTo .check (fun hb => by cases hb) hact
  | start => exact hwriteTo .start (fun hb => by cases hb) hact
  | finish => exact hwriteTo .finish (fun hb => by cases hb) hact
  | put =>
    have hopening : PutPhase.ending ≠ .opening := fun hput => by cases hput
    have hcopying : PutPhase.ending ≠ .copying := fun hput => by cases hput
    dsimp only at hact
    split at hact
    · obtain rfl := Option.some.inj hact
      exact h.frame s.relay .ending s.canceled id (fun hput => (hopening hput).elim)
        (fun hz => ⟨hcopying, (h.zero hz).2⟩)
    · obtain rfl := Option.some.inj hact
      exact h.frame s.relay .ending s.canceled id (fun hput => (hopening hput).elim)
        (fun hz => ⟨hcopying, (h.zero hz).2⟩)
    · cases hact
  | putClose =>
    dsimp only at hact
    split at hact
    · obtain ⟨r, hr, rfl⟩ := Option.map_eq_some_iff.1 hact
      obtain ⟨_, hclose, hreader⟩ := act_frame hr
      have hsame := hreader (fun ha => by cases ha) (fun ha => by cases ha) (fun ha => by cases ha)
      exact h.frame r .returned s.canceled (fun _ => hclose rfl) (fun hput => by cases hput)
        (fun hz => ⟨fun hput => (by cases hput), hsame.trans (h.zero hz).2⟩)
    · cases hact
  | retry i | fail i | turn i | refuse i | written i | flushed i | complete i | failed i | done i => exact hchunk i hact
  | write i p => exact hchunk i hact
  | deliver i k failed => exact hchunk i hact

/-- The states of the runs. -/
theorem inv_reachable {size chunkSize : Int64} {s : Chunked}
    (h : ((chunked size chunkSize).guarded (Chunked.Closes size chunkSize)).Reachable s) : Inv size s := by
  induction h with
  | init h =>
    obtain rfl : _ = newChunked := h
    exact inv_new size
  | step _ hstep ih =>
    obtain ⟨a, hG, hact⟩ := hstep
    exact ih.act hG hact

end ChunkedAux

/-- A pull of a chunked layer does not get stuck in a run in which the loop leaves the layer only where the relay is
closed or will be. -/
theorem chunked_not_stuck {size chunkSize : Int64} {s : Chunked}
    (h : ((chunked size chunkSize).guarded (Chunked.Closes size chunkSize)).Reachable s) : ¬s.Stuck :=
  (ChunkedAux.inv_reachable h).not_stuck

/-- The layer is put from the relay. -/
def putStarts : List ChunkedAct := [.copy, .check, .start]

/-- The goroutine of the chunk `i` writes it. -/
def wholeChunk (i : Nat) (p : Bytes) : List ChunkedAct :=
  [.write i p, .turn i, .deliver i p.length false, .written i, .flushed i]

/-- Both chunks of a layer come, and the layer is put. -/
def bothChunks : List ChunkedAct :=
  List.flatten [[.request true, .next, .next], putStarts, wholeChunk 0 [97, 98], [.next, .done 0], wholeChunk 1 [99],
    [.complete 1, .done 1, .finish, .put, .putClose]]

/-- A layer of three bytes comes in two chunks. -/
theorem chunked_not_stuck_two : ∃ s, ((chunked 3 2).guarded (Chunked.Closes 3 2)).Reachable s ∧ ¬s.Stuck ∧
    s.loop = .left ∧ s.relay.received = [(0, 97), (0, 98), (1, 99)] ∧ s.put = .returned ∧
      s.chunks.map ChunkTask.phase = [.returned, .returned] := by
  have hrun : ((chunked 3 2).runGuarded (Chunked.Closes 3 2) newChunked bothChunks).map
      (fun s => (s.loop, s.relay.received, s.put, s.chunks.map ChunkTask.phase)) =
      some (.left, [(0, 97), (0, 98), (1, 99)], .returned, [.returned, .returned]) := by decide +kernel
  rw [Option.map_eq_some_iff] at hrun
  obtain ⟨s, hs, hend⟩ := hrun
  simp only [Prod.mk.injEq] at hend
  have hreach : ((chunked 3 2).guarded (Chunked.Closes 3 2)).Reachable s := Machine.reachable_runGuarded (.init rfl) hs
  exact ⟨s, hreach, chunked_not_stuck hreach, hend⟩

/-- The first request of a layer fails. -/
def requestFails : List ChunkedAct := List.flatten [putStarts, [.request false]]

/-- The context is done after the first chunk of two has been started. -/
def cancelledAfterFirst : List ChunkedAct :=
  List.flatten [putStarts, [.request true, .next], wholeChunk 0 [97, 98], [.done 0, .cancel, .next]]

/-- The first request fails; or the context is done after the first chunk of two has been started, and its goroutine
returns without an error. Either way nobody closes the relay. -/
theorem chunked_stuck :
    (∃ s, (chunked 3 2).system.Reachable s ∧ s.Stuck ∧ s.chunks = []) ∧
    ∃ s, (chunked 3 2).system.Reachable s ∧ s.Stuck ∧ s.chunks.length = 1 := by
  constructor
  · have hrun : ((chunked 3 2).run newChunked requestFails).map
        (fun s => (s.loop, s.chunks, s.relay.closed, s.relay.reader)) = some (.left, [], false, .waiting) := by
          decide +kernel
    rw [Option.map_eq_some_iff] at hrun
    obtain ⟨s, hs, hend⟩ := hrun
    simp only [Prod.mk.injEq] at hend
    obtain ⟨hleft, hchunks, hopen, hwaiting⟩ := hend
    refine ⟨s, Machine.reachable_run (.init rfl) hs, ⟨hleft, ?_, hopen, hwaiting⟩, hchunks⟩
    rw [hchunks]
    nofun
  · have hrun : ((chunked 3 2).run newChunked cancelledAfterFirst).map
        (fun s => (s.loop, s.chunks.map ChunkTask.phase, s.relay.closed, s.relay.reader)) =
        some (.left, [.returned], false, .waiting) := by decide +kernel
    rw [Option.map_eq_some_iff] at hrun
    obtain ⟨s, hs, hend⟩ := hrun
    simp only [Prod.mk.injEq] at hend
    obtain ⟨hleft, hchunks, hopen, hwaiting⟩ := hend
    refine ⟨s, Machine.reachable_run (.init rfl) hs, ⟨hleft, ?_, hopen, hwaiting⟩, ?_⟩
    · intro c hc
      have hmem := List.mem_map_of_mem (f := ChunkTask.phase) hc
      rw [hchunks] at hmem
      exact List.mem_singleton.1 hmem
    · have hlength := congrArg List.length hchunks
      rwa [List.length_map] at hlength

end Ollama.Client
