import Ollama.Blob.Lemmas.Share
import Ollama.Client.Registry

/-!
# Runs of a pull

What the loop and the goroutines do to a pull that has not ended: `Track` says where each layer of the manifest stands
and which files are as they were. For each digest, the goroutines that put it are calls that share a file.
-/

namespace Ollama.Client

open Lib Utf8 Names Blob

namespace PullAux

variable {sha : Bytes → Digest} {threshold : Int} {chunkSize : Int64}

/-! ## Steps -/

/-- A blob that was written is there. -/
theorem lookup_setBlob (c : DiskCache) (d : Digest) {file : Option Bytes}
    (hnone : file = none → c.blobs.lookup d = none) :
    (setBlob c d file).blobs.lookup d = file := by
  cases file with
  | none => exact hnone rfl
  | some f =>
    show (Assoc.set c.blobs d f).lookup d = some f
    rw [Assoc.lookup_set, if_pos rfl]

/-- Other blobs are as they were. -/
theorem lookup_setBlob_ne (c : DiskCache) {d d' : Digest} (hne : d' ≠ d) (file : Option Bytes) :
    (setBlob c d file).blobs.lookup d' = c.blobs.lookup d' := by
  cases file with
  | none => rfl
  | some f =>
    show (Assoc.set c.blobs d f).lookup d' = c.blobs.lookup d'
    rw [Assoc.lookup_set, if_neg hne]

/-- Writing a blob changes no manifest. -/
theorem setBlob_manifests (c : DiskCache) (d : Digest) (file : Option Bytes) :
    (setBlob c d file).manifests = c.manifests := by
  cases file <;> rfl

/-- What a file step does. -/
theorem step_cases {s s' : Pull} {i : Nat} {t : Task} (h : s.step sha i t = some s') :
    ∃ file state, t.call.next sha t.digest (s.cache.blobs.lookup t.digest) = some (file, state) ∧
      s' = { s with
        cache := setBlob s.cache t.digest file
        tasks := s.tasks.set i { t with call := { t.call with state } } } := by
  obtain ⟨⟨file, state⟩, hnext, rfl⟩ := Option.map_eq_some_iff.1 h
  exact ⟨file, state, hnext, rfl⟩

/-- What an act of a chunked layer does: the layer takes the step, with a file step or without one. -/
theorem chunk_cases {s s' : Pull} {i : Nat} {t : Task} {c : Chunked} {a : ChunkedAct}
    (h : s.chunk sha chunkSize i t c a = some s') :
    ∃ c', c.act (Int64.ofInt t.call.size) chunkSize a = some c' ∧
      (s' = s.moved i t c' a ∨ ∃ file state, t.call.next sha t.digest (s.cache.blobs.lookup t.digest) =
        some (file, state) ∧ s' = { s with
          cache := setBlob s.cache t.digest file
          tasks := s.tasks.set i { t with call := { t.call with state }, chunked := some c' } }) := by
  obtain ⟨c', hact, h⟩ := Option.bind_eq_some_iff.1 h
  refine ⟨c', hact, ?_⟩
  split at h
  · nomatch h
  · exact .inl (Option.some.inj h).symm
  · exact .inr (step_cases h)

/-- What an act does. -/
theorem act_cases {s s' : Pull} {a : PullAct} (h : s.act sha threshold chunkSize a = some s') :
    s.result = none ∧
    ((∃ todo, s.todo = none :: todo ∧ s' = { s with result := some .panicked }) ∨
    (∃ l todo, s.todo = some l :: todo ∧ cachedSize s.cache l = true ∧
      s' = { s with todo, cached := s.cached ++ [l] }) ∨
    (∃ l todo, s.todo = some l :: todo ∧ s' = { s with todo, failed := true }) ∨
    (∃ l todo r chunked, s.todo = some l :: todo ∧ (∀ c, chunked = some c → c = newChunked) ∧
      s' = { s with todo, tasks := s.tasks ++ [⟨l.digest, ⟨r, l.size, .stat⟩, chunked⟩] }) ∨
    (∃ i t file state chunked, s.tasks[i]? = some t ∧
      t.call.next sha t.digest (s.cache.blobs.lookup t.digest) = some (file, state) ∧
      (chunked = t.chunked ∨ ∃ c c' b, a = .chunk i b ∧ t.chunked = some c ∧
        c.act (Int64.ofInt t.call.size) chunkSize b = some c' ∧ chunked = some c') ∧
      s' = { s with
        cache := setBlob s.cache t.digest file
        tasks := s.tasks.set i { t with call := { t.call with state }, chunked } }) ∨
    (∃ i t c c' b, a = .chunk i b ∧ s.tasks[i]? = some t ∧ t.chunked = some c ∧
      c.act (Int64.ofInt t.call.size) chunkSize b = some c' ∧ s' = s.moved i t c' b) ∨
    (∃ (i : Nat) (t : Task) (err : Err) (file : Bytes), s.tasks[i]? = some t ∧ t.call.state = .returned (some err) ∧
      s' = { s with cache := setBlob s.cache t.digest (some file) }) ∨
    (s.todo = [] ∧ s' = s.commit sha)) := by
  unfold Pull.act at h
  by_cases hres : s.result ≠ none
  · rw [if_pos hres] at h
    cases h
  rw [if_neg hres] at h
  refine ⟨not_not.1 hres, ?_⟩
  cases a with
  | layer res =>
    obtain ⟨_, h⟩ := Option.ite_none_left_eq_some.1 h
    cases htodo : s.todo with
    | nil =>
      simp only [htodo] at h
      cases h
    | cons o todo =>
      cases o with
      | none =>
        simp only [htodo] at h
        exact .inl ⟨todo, rfl, (Option.some.inj h).symm⟩
      | some l =>
        simp only [htodo] at h
        right
        by_cases hcached : cachedSize s.cache l = true
        · rw [if_pos hcached] at h
          exact .inl ⟨l, todo, rfl, hcached, (Option.some.inj h).symm⟩
        · rw [if_neg hcached] at h
          right
          cases res with
          | fail =>
            obtain ⟨_, heq⟩ := Option.ite_none_right_eq_some.1 h
            exact .inl ⟨l, todo, rfl, (Option.some.inj heq).symm⟩
          | body r =>
            obtain ⟨_, heq⟩ := Option.ite_none_right_eq_some.1 h
            exact .inr (.inl ⟨l, todo, r, none, rfl, by simp, (Option.some.inj heq).symm⟩)
          | relay r =>
            obtain ⟨_, heq⟩ := Option.ite_none_right_eq_some.1 h
            exact .inr (.inl ⟨l, todo, r, some newChunked, rfl, fun c hc => (Option.some.inj hc).symm,
              (Option.some.inj heq).symm⟩)
  | step i =>
    obtain ⟨t, hi, h⟩ := Option.bind_eq_some_iff.1 h
    obtain ⟨_, h⟩ := Option.ite_none_right_eq_some.1 h
    obtain ⟨file, state, hnext, rfl⟩ := step_cases h
    exact .inr (.inr (.inr (.inr (.inl ⟨i, t, file, state, t.chunked, hi, hnext, .inl rfl, rfl⟩))))
  | chunk i b =>
    obtain ⟨t, hi, h⟩ := Option.bind_eq_some_iff.1 h
    obtain ⟨c, hc, h⟩ := Option.bind_eq_some_iff.1 h
    obtain ⟨c', hact, rfl | ⟨file, state, hnext, rfl⟩⟩ := chunk_cases h
    · exact .inr (.inr (.inr (.inr (.inr (.inl ⟨i, t, c, c', b, rfl, hi, hc, hact, rfl⟩)))))
    · exact .inr
        (.inr (.inr (.inr (.inl ⟨i, t, file, state, some c', hi, hnext, .inr ⟨c, c', b, rfl, hc, hact, rfl⟩, rfl⟩))))
  | late i file =>
    obtain ⟨t, hi, h⟩ := Option.bind_eq_some_iff.1 h
    split at h
    · rename_i err _ hstate
      obtain ⟨_, h⟩ := Option.ite_none_right_eq_some.1 h
      exact .inr (.inr (.inr (.inr (.inr (.inr (.inl ⟨i, t, _, file, hi, hstate, (Option.some.inj h).symm⟩))))))
    · cases h
  | wait =>
    obtain ⟨⟨htodo, _⟩, heq⟩ := Option.ite_none_right_eq_some.1 h
    exact .inr (.inr (.inr (.inr (.inr (.inr (.inr ⟨htodo, (Option.some.inj heq).symm⟩))))))

/-! ## The calls for a digest -/

/-- The calls for a digest, and its file. -/
def share (s : Pull) (d : Digest) : Share :=
  ⟨{call | ∃ t ∈ s.tasks, t.digest = d ∧ t.call = call}, ∃ l ∈ s.cached, l.digest = d, s.cache.blobs.lookup d⟩

/-- A layer is passed over as cached if its file has its size, and some byte. -/
theorem cachedSize_eq {c : DiskCache} {l : Layer} (h : cachedSize c l = true) :
    ∃ f, c.blobs.lookup l.digest = some f ∧ (f.length : Int) = l.size ∧ f ≠ [] := by
  unfold cachedSize DiskCache.get at h
  cases hf : c.blobs.lookup l.digest with
  | none =>
    rw [hf] at h
    nomatch h
  | some f =>
    rw [hf] at h
    dsimp only at h
    by_cases hzero : f.length = 0
    · rw [if_pos hzero] at h
      nomatch h
    · rw [if_neg hzero] at h
      exact ⟨f, rfl, of_decide_eq_true h, fun hnil => hzero (by rw [hnil, List.length_nil])⟩

/-- A layer that is cached is a file that is found. -/
theorem share_cached (sha : Bytes → Digest) {s : Pull} {l : Layer} (todo : List (Option Layer))
    (hcached : cachedSize s.cache l = true) (d : Digest) :
    share { s with todo, cached := s.cached ++ [l] } d = share s d ∨
      l.digest = d ∧ Share.Step sha d l.size (share s d) (share { s with todo, cached := s.cached ++ [l] } d) := by
  by_cases hd : l.digest = d
  · right
    refine ⟨hd, ?_⟩
    obtain ⟨f, hf, hlen, hne⟩ := cachedSize_eq hcached
    have hshare : share { s with todo, cached := s.cached ++ [l] } d = { share s d with found := True } := by
      have hfound : (∃ l' ∈ s.cached ++ [l], l'.digest = d) = True := eq_true ⟨l, by simp, hd⟩
      exact congrArg (fun found => (⟨(share s d).calls, found, (share s d).file⟩ : Share)) hfound
    rw [hshare]
    exact .find (hd ▸ hf) hlen hne
  · left
    have hfound : (∃ l' ∈ s.cached ++ [l], l'.digest = d) = ∃ l' ∈ s.cached, l'.digest = d := by
      refine propext ⟨?_, ?_⟩
      · rintro ⟨l', hmem, hd'⟩
        rcases List.mem_append.1 hmem with hold | hnew
        · exact ⟨l', hold, hd'⟩
        · exact absurd (List.mem_singleton.1 hnew ▸ hd') hd
      · rintro ⟨l', hmem, hd'⟩
        exact ⟨l', List.mem_append_left _ hmem, hd'⟩
    exact congrArg (fun found => (⟨(share s d).calls, found, (share s d).file⟩ : Share)) hfound

/-- A layer that is not cached is a call that begins. -/
theorem share_put (sha : Bytes → Digest) (s : Pull) (l : Layer) (todo : List (Option Layer)) (r : Reader)
    (chunked : Option Chunked) (d : Digest) :
    share { s with todo, tasks := s.tasks ++ [⟨l.digest, ⟨r, l.size, .stat⟩, chunked⟩] } d = share s d ∨
      l.digest = d ∧ Share.Step sha d l.size (share s d)
        (share { s with todo, tasks := s.tasks ++ [⟨l.digest, ⟨r, l.size, .stat⟩, chunked⟩] } d) := by
  have hcalls : {call | ∃ t ∈ s.tasks ++ [⟨l.digest, ⟨r, l.size, .stat⟩, chunked⟩], t.digest = d ∧ t.call = call} =
      if l.digest = d then insert ⟨r, l.size, .stat⟩ (share s d).calls else (share s d).calls := by
    ext call
    by_cases hd : l.digest = d
    · rw [if_pos hd]
      constructor
      · rintro ⟨t, hmem, hd', rfl⟩
        rcases List.mem_append.1 hmem with hold | hnew
        · exact .inr ⟨t, hold, hd', rfl⟩
        · exact .inl (List.mem_singleton.1 hnew ▸ rfl)
      · rintro (rfl | ⟨t, hmem, hd', rfl⟩)
        · exact ⟨_, List.mem_append_right _ (List.mem_singleton_self _), hd, rfl⟩
        · exact ⟨t, List.mem_append_left _ hmem, hd', rfl⟩
    · rw [if_neg hd]
      constructor
      · rintro ⟨t, hmem, hd', rfl⟩
        rcases List.mem_append.1 hmem with hold | hnew
        · exact ⟨t, hold, hd', rfl⟩
        · rw [List.mem_singleton.1 hnew] at hd'
          exact absurd hd' hd
      · rintro ⟨t, hmem, hd', rfl⟩
        exact ⟨t, List.mem_append_left _ hmem, hd', rfl⟩
  have hshare := congrArg (fun calls => (⟨calls, (share s d).found, (share s d).file⟩ : Share)) hcalls
  by_cases hd : l.digest = d
  · right
    rw [if_pos hd] at hshare
    have hput : Share.Step sha d l.size (share s d) { share s d with
      calls := insert ⟨r, l.size, .stat⟩ (share s d).calls } := .put r
    rw [← hshare] at hput
    exact ⟨hd, hput⟩
  · left
    rw [if_neg hd] at hshare
    exact hshare

/-- A goroutine's file step is a step of the calls for its digest, and of no other. -/
theorem share_step {s : Pull} {i : Nat} {t : Task} {file : Option Bytes} {state : PutState} (hi : s.tasks[i]? = some t)
    (hnext : t.call.next sha t.digest (s.cache.blobs.lookup t.digest) = some (file, state))
    (chunked : Option Chunked) (d : Digest) (size : Int) :
    share { s with
      cache := setBlob s.cache t.digest file
      tasks := s.tasks.set i { t with call := { t.call with state }, chunked } } d = share s d ∨
    Share.Step sha d size (share s d) (share { s with
      cache := setBlob s.cache t.digest file
      tasks := s.tasks.set i { t with call := { t.call with state }, chunked } } d) := by
  obtain ⟨l₁, l₂, htasks, hset⟩ := exists_split hi
  have hmem : t ∈ s.tasks := List.mem_of_getElem? hi
  have hafter : ∀ u ∈ s.tasks.set i { t with call := { t.call with state }, chunked },
      u ∈ s.tasks ∨ u = { t with call := { t.call with state }, chunked } := fun u hu => List.mem_or_eq_of_mem_set hu
  have hbefore : ∀ u ∈ s.tasks, u ∈ s.tasks.set i { t with call := { t.call with state }, chunked } ∨ u = t := by
    intro u hu
    rw [hset]
    rw [htasks, List.mem_append, List.mem_cons] at hu
    rw [List.mem_append, List.mem_cons]
    rcases hu with hu | rfl | hu
    · exact .inl (.inl hu)
    · exact .inr rfl
    · exact .inl (.inr (.inr hu))
  have hself : { t with call := { t.call with state }, chunked } ∈
    s.tasks.set i { t with call := { t.call with state }, chunked } := by
    rw [hset]
    simp
  by_cases hd : t.digest = d
  · subst hd
    right
    have hfile : (setBlob s.cache t.digest file).blobs.lookup t.digest = file :=
      lookup_setBlob s.cache t.digest (fun hnone => Share.next_none (hnone ▸ hnext))
    have hstep : Share.Step sha t.digest size (share s t.digest)
        ⟨{call | ∃ u ∈ s.tasks.set i { t with
          call := { t.call with state }, chunked }, u.digest = t.digest ∧ u.call = call},
          (share s t.digest).found, file⟩ := by
      refine .next ⟨t, hmem, rfl, rfl⟩ hnext ?_ ?_ ⟨_, hself, rfl, rfl⟩
      · rintro _ ⟨u, hu, hd', rfl⟩
        rcases hafter u hu with hold | rfl
        · exact .inl ⟨u, hold, hd', rfl⟩
        · exact .inr rfl
      · rintro _ ⟨u, hu, hd', rfl⟩
        rcases hbefore u hu with hstill | rfl
        · exact .inl ⟨u, hstill, hd', rfl⟩
        · exact .inr rfl
    unfold share at hstep ⊢
    dsimp only at hstep ⊢
    rw [hfile]
    exact hstep
  · left
    have hcalls : {call | ∃ u ∈ s.tasks.set i { t with
      call := { t.call with state }, chunked }, u.digest = d ∧ u.call = call} = (share s d).calls := by
      ext call
      constructor
      · rintro ⟨u, hu, hd', rfl⟩
        rcases hafter u hu with hold | rfl
        · exact ⟨u, hold, hd', rfl⟩
        · exact absurd hd' hd
      · rintro ⟨u, hu, hd', rfl⟩
        rcases hbefore u hu with hstill | rfl
        · exact ⟨u, hstill, hd', rfl⟩
        · exact absurd hd' hd
    unfold share at hcalls ⊢
    dsimp only at hcalls ⊢
    rw [hcalls, lookup_setBlob_ne s.cache (Ne.symm hd)]

/-- A chunked layer that goes on takes no file step. -/
theorem share_moved {s : Pull} {i : Nat} {t : Task} (hi : s.tasks[i]? = some t) (c : Chunked) (a : ChunkedAct)
    (d : Digest) :
    share (s.moved i t c a) d = share s d := by
  obtain ⟨l₁, l₂, htasks, hset⟩ := exists_split hi
  have hcalls : {call | ∃ u ∈ s.tasks.set i { t with chunked := some c }, u.digest = d ∧ u.call = call} =
    (share s d).calls := by
    unfold share
    rw [hset, htasks]
    simp only [List.mem_append, List.mem_cons, or_and_right, exists_or, exists_eq_left]
  exact congrArg (fun calls => (⟨calls, (share s d).found, (share s d).file⟩ : Share)) hcalls

/-! ## Runs -/

/-- Layers with one digest have one size. -/
def Agree (m : Manifest) : Prop :=
  ∀ l l', some l ∈ m.pulled → some l' ∈ m.pulled → l.digest = l'.digest → l.size = l'.size

/-- A pull that has not ended: where the layers of the manifest are, and which files are as they were. -/
structure Track (sha : Bytes → Digest) (cache : DiskCache) (name data : Bytes) (m : Manifest) (s : Pull) : Prop where
  result : s.result = none
  name : s.name = name
  data : s.data = data
  null : none ∈ m.pulled ↔ none ∈ s.todo
  todo : ∀ o ∈ s.todo, o ∈ m.pulled
  cached : ∀ l ∈ s.cached, some l ∈ m.pulled
  tasks : ∀ t ∈ s.tasks, some ⟨t.digest, t.call.size⟩ ∈ m.pulled
  cover : ∀ l, some l ∈ m.pulled → some l ∈ s.todo ∨ l ∈ s.cached ∨ (∃ t ∈ s.tasks, t.digest = l.digest) ∨
    s.failed = true
  manifests : s.cache.manifests = cache.manifests
  blobs : ∀ d, (∀ l, some l ∈ m.pulled → l.digest ≠ d) → s.cache.blobs.lookup d = cache.blobs.lookup d
  kept : Agree m → ∀ l, some l ∈ m.pulled → 0 < l.size ∨ l.size = 0 ∧ sha [] = l.digest →
    Share.Kept sha l.digest l.size (share s l.digest)

variable {cache : DiskCache} {name data : Bytes} {m : Manifest}

/-- A layer that is there already is counted. -/
theorem Track.cached_layer (hcol : ∀ l, some l ∈ m.pulled → NoCollision sha l.digest) {s : Pull}
    (h : Track sha cache name data m s) {l : Layer} {todo : List (Option Layer)} (htodo : s.todo = some l :: todo)
    (hcached : cachedSize s.cache l = true) :
    Track sha cache name data m { s with todo, cached := s.cached ++ [l] } := by
  have hl : some l ∈ m.pulled := h.todo _ (htodo ▸ List.mem_cons_self)
  refine { h with null := ?_, todo := ?_, cached := ?_, cover := ?_, kept := ?_ }
  · rw [h.null, htodo]
    simp
  · intro o ho
    exact h.todo o (htodo ▸ List.mem_cons_of_mem _ ho)
  · intro l' hl'
    rcases List.mem_append.1 hl' with hold | hnew
    · exact h.cached l' hold
    · rwa [List.mem_singleton.1 hnew]
  · intro l' hl'
    rcases h.cover l' hl' with hwait | hc | hrest
    · rw [htodo, List.mem_cons] at hwait
      rcases hwait with hnow | hlater
      · rw [Option.some.inj hnow]
        exact .inr (.inl (by simp))
      · exact .inl hlater
    · exact .inr (.inl (List.mem_append_left _ hc))
    · exact .inr (.inr hrest)
  · intro hagree l' hl' hsized
    have hkept := h.kept hagree l' hl' hsized
    rcases share_cached sha todo hcached l'.digest with hsame | ⟨hd, hstep⟩
    · rwa [hsame]
    · rw [hagree l l' hl hl' hd] at hstep
      exact hkept.step (hcol l' hl') hstep

/-- A layer that could not be fetched fails the pull. -/
theorem Track.failed_layer {s : Pull} (h : Track sha cache name data m s) {l : Layer} {todo : List (Option Layer)}
    (htodo : s.todo = some l :: todo) : Track sha cache name data m { s with todo, failed := true } := by
  refine { h with null := ?_, todo := ?_, cover := ?_, kept := h.kept }
  · rw [h.null, htodo]
    simp
  · intro o ho
    exact h.todo o (htodo ▸ List.mem_cons_of_mem _ ho)
  · exact fun _ _ => .inr (.inr (.inr rfl))

/-- A layer is put by a task of its own. -/
theorem Track.put_layer (hcol : ∀ l, some l ∈ m.pulled → NoCollision sha l.digest) {s : Pull}
    (h : Track sha cache name data m s) {l : Layer} {todo : List (Option Layer)} (htodo : s.todo = some l :: todo)
    (r : Reader) (chunked : Option Chunked) :
    Track sha cache name data m { s with todo, tasks := s.tasks ++ [⟨l.digest, ⟨r, l.size, .stat⟩, chunked⟩] } := by
  have hl : some l ∈ m.pulled := h.todo _ (htodo ▸ List.mem_cons_self)
  refine { h with null := ?_, todo := ?_, tasks := ?_, cover := ?_, kept := ?_ }
  · rw [h.null, htodo]
    simp
  · intro o ho
    exact h.todo o (htodo ▸ List.mem_cons_of_mem _ ho)
  · intro t ht
    rcases List.mem_append.1 ht with hold | hnew
    · exact h.tasks t hold
    · rwa [List.mem_singleton.1 hnew]
  · intro l' hl'
    rcases h.cover l' hl' with hwait | hc | ⟨t, ht, hd⟩ | hfail
    · rw [htodo, List.mem_cons] at hwait
      rcases hwait with hnow | hlater
      · rw [Option.some.inj hnow]
        exact .inr (.inr (.inl ⟨_, List.mem_append_right _ (List.mem_singleton_self _), rfl⟩))
      · exact .inl hlater
    · exact .inr (.inl hc)
    · exact .inr (.inr (.inl ⟨t, List.mem_append_left _ ht, hd⟩))
    · exact .inr (.inr (.inr hfail))
  · intro hagree l' hl' hsized
    have hkept := h.kept hagree l' hl' hsized
    rcases share_put sha s l todo r chunked l'.digest with hsame | ⟨hd, hstep⟩
    · rwa [hsame]
    · have hsize := hagree l l' hl hl' hd
      rw [← hsize] at hkept ⊢
      exact hkept.step (hcol l' hl') hstep

/-- A step of a task writes no blob but its own. -/
theorem Track.step_task (hcol : ∀ l, some l ∈ m.pulled → NoCollision sha l.digest) {s : Pull}
    (h : Track sha cache name data m s) {i : Nat} {t : Task} {file : Option Bytes} {state : PutState}
    (hi : s.tasks[i]? = some t)
    (hnext : t.call.next sha t.digest (s.cache.blobs.lookup t.digest) = some (file, state)) (chunked : Option Chunked) :
    Track sha cache name data m { s with
      cache := setBlob s.cache t.digest file
      tasks := s.tasks.set i { t with call := { t.call with state }, chunked } } := by
  have ht := h.tasks t (List.mem_of_getElem? hi)
  refine { h with tasks := ?_, cover := ?_, manifests := ?_, blobs := ?_, kept := ?_ }
  · intro u hu
    rcases List.mem_or_eq_of_mem_set hu with hold | rfl
    · exact h.tasks u hold
    · exact ht
  · intro l hl
    rcases h.cover l hl with hwait | hc | ⟨u, hu, hd⟩ | hfail
    · exact .inl hwait
    · exact .inr (.inl hc)
    · right; right; left
      obtain ⟨l₁, l₂, htasks, hset⟩ := exists_split hi
      rw [htasks, List.mem_append, List.mem_cons] at hu
      dsimp only
      rw [hset]
      rcases hu with hu | rfl | hu
      · exact ⟨u, List.mem_append_left _ hu, hd⟩
      · exact ⟨_, List.mem_append_right _ List.mem_cons_self, hd⟩
      · exact ⟨u, List.mem_append_right _ (List.mem_cons_of_mem _ hu), hd⟩
    · exact .inr (.inr (.inr hfail))
  · exact (setBlob_manifests ..).trans h.manifests
  · intro d hd
    exact (lookup_setBlob_ne s.cache (Ne.symm (hd _ ht)) file).trans (h.blobs d hd)
  · intro hagree l hl hsized
    have hkept := h.kept hagree l hl hsized
    rcases share_step hi hnext chunked l.digest l.size with hsame | hstep
    · rwa [hsame]
    · exact hkept.step (hcol l hl) hstep

/-- A step of a chunked layer keeps what is known of the pull. -/
theorem Track.moved {s : Pull} (h : Track sha cache name data m s) {i : Nat} {t : Task} (hi : s.tasks[i]? = some t)
    (c : Chunked) (a : ChunkedAct) (hres : (s.moved i t c a).result = none) :
    Track sha cache name data m (s.moved i t c a) := by
  have ht := h.tasks t (List.mem_of_getElem? hi)
  refine { h with result := hres, tasks := ?_, cover := ?_, kept := ?_ }
  · intro u hu
    rcases List.mem_or_eq_of_mem_set hu with hold | rfl
    · exact h.tasks u hold
    · exact ht
  · intro l hl
    rcases h.cover l hl with hwait | hc | ⟨u, hu, hd⟩ | hfail
    · exact .inl hwait
    · exact .inr (.inl hc)
    · right; right; left
      obtain ⟨l₁, l₂, htasks, hset⟩ := exists_split hi
      rw [htasks, List.mem_append, List.mem_cons] at hu
      unfold Pull.moved
      dsimp only
      rw [hset]
      rcases hu with hu | rfl | hu
      · exact ⟨u, List.mem_append_left _ hu, hd⟩
      · exact ⟨_, List.mem_append_right _ List.mem_cons_self, hd⟩
      · exact ⟨u, List.mem_append_right _ (List.mem_cons_of_mem _ hu), hd⟩
    · refine .inr (.inr (.inr ?_))
      unfold Pull.moved
      rw [hfail, Bool.true_or]
  · intro hagree l hl hsized
    rw [share_moved hi]
    exact h.kept hagree l hl hsized

/-- A late write to a layer that failed keeps what is known of the pull. -/
theorem Track.late {s : Pull} (h : Track sha cache name data m s) {i : Nat} {t : Task} {err : Err}
    (hi : s.tasks[i]? = some t) (hret : t.call.state = .returned (some err)) (file : Bytes) :
    Track sha cache name data m { s with cache := setBlob s.cache t.digest (some file) } := by
  have hmem := List.mem_of_getElem? hi
  refine { h with manifests := (setBlob_manifests ..).trans h.manifests, blobs := ?_, kept := ?_ }
  · intro d hd
    exact (lookup_setBlob_ne s.cache (Ne.symm (hd _ (h.tasks t hmem))) _).trans (h.blobs d hd)
  · intro hagree l hl hsized
    have hkept := h.kept hagree l hl hsized
    by_cases hd : t.digest = l.digest
    · have hfile : (setBlob s.cache t.digest (some file)).blobs.lookup l.digest = some file :=
        hd ▸ lookup_setBlob s.cache t.digest nofun
      have hspoiled := hkept.spoiled ⟨t, hmem, hd, rfl⟩ hret (some file)
      unfold share at hspoiled ⊢
      rwa [hfile]
    · unfold share at hkept ⊢
      rwa [lookup_setBlob_ne s.cache (Ne.symm hd)]

/-- What an act of a pull that has not ended comes to. -/
theorem Track.act (hcol : ∀ l, some l ∈ m.pulled → NoCollision sha l.digest) {s s' : Pull}
    (h : Track sha cache name data m s) {a : PullAct} (hact : s.act sha threshold chunkSize a = some s') :
    Track sha cache name data m s' ∨
      (s'.result = some .panicked ∧ (none ∈ m.pulled ∨ ∃ t ∈ s'.tasks, ∃ c ∈ t.chunked, c.relay.panicked = true)) ∨
      s'.result = some .failed ∨ (s.todo = [] ∧ s' = s.commit sha) := by
  obtain ⟨_, hcases⟩ := act_cases hact
  rcases hcases with ⟨todo, htodo, rfl⟩ | ⟨l, todo, htodo, hcached, rfl⟩ | ⟨l, todo, htodo, rfl⟩ |
    ⟨l, todo, r, chunked, htodo, _, rfl⟩ |
    ⟨i, t, file, state, chunked, hi, hnext, _, rfl⟩ | ⟨i, t, c, c', b, _, hi, _, _, rfl⟩ |
      ⟨i, t, err, file, hi, hret, rfl⟩ |
    ⟨htodo, rfl⟩
  · exact .inr (.inl ⟨rfl, .inl (h.null.2 (htodo ▸ List.mem_cons_self))⟩)
  · exact .inl (h.cached_layer hcol htodo hcached)
  · exact .inl (h.failed_layer htodo)
  · exact .inl (h.put_layer hcol htodo r chunked)
  · exact .inl (h.step_task hcol hi hnext chunked)
  · by_cases hpanic : c'.relay.panicked = true
    · have hself : { t with chunked := some c' } ∈ s.tasks.set i { t with chunked := some c' } :=
        List.mem_set (List.getElem?_eq_some_iff.1 hi).1 _
      exact .inr (.inl ⟨if_pos hpanic, .inr ⟨_, hself, c', rfl, hpanic⟩⟩)
    · by_cases hrefused : b = .request false
      · refine .inr (.inr (.inl ?_))
        unfold Pull.moved
        rw [if_neg hpanic, if_pos hrefused]
      · refine .inl (h.moved hi c' b ?_)
        unfold Pull.moved
        rw [if_neg hpanic, if_neg hrefused]
        exact h.result
  · exact .inl (h.late hi hret file)
  · exact .inr (.inr (.inr ⟨htodo, rfl⟩))

end PullAux

end Ollama.Client
