import Ollama.Client.Lemmas.Pull
import Ollama.Client.Theorems.Chunked

/-!
# What a pull commits

A null layer makes the loop of `Pull` panic, and so does the goroutine of a chunk that has its turn before `WriteTo`
has given the relay a destination: the goroutine of the chunk before it has failed, and has closed its ticket. When
`Pull` returns nil, no goroutine has failed; what the name is resolved to then, and what the files of the layers are,
depends on the manifest. A layer without a size is stored without a look at its digest, one with a size under zero
truncates the file, two layers with one digest and different sizes truncate each other's, the digest that the name
carries is not compared with anything, and the manifest is linked as `Link` does it. `pull_commits_iff` says when none
of this happens.
-/

namespace Ollama.Client

open Lib Utf8 Names Blob Syncs

/-- A writer gets its turn only after `WriteTo` has begun. -/
def Chunked.Turns (c : Chunked) : ChunkedAct → Prop
  | .turn _ => c.relay.begun = true
  | _ => True

/-- A condition on the steps of the chunked layers of a pull. -/
def Pull.Chunks (G : Int → Chunked → ChunkedAct → Prop) (s : Pull) : PullAct → Prop
  | .chunk i a => ∀ t ∈ s.tasks[i]?, ∀ c ∈ t.chunked, G t.call.size c a
  | _ => True

/-- A chunk of a layer is written only after `WriteTo` has begun. -/
def Pull.Turns : Pull → PullAct → Prop := Pull.Chunks (fun _ => Chunked.Turns)

/-- The cache has the model: the name is resolved to the manifest that was received, every layer has a file of its
size and with its digest, and the manifest has the digest that the name carries. -/
structure Committed (sha : Bytes → Digest) (n : Name) (pinned : Option Digest) (data : Bytes) (m : Manifest)
    (c : DiskCache) : Prop where
  resolved : (c.resolve sha n.string).2 = .ok (sha data)
  stored : ∀ l, some l ∈ m.pulled → ∃ content, c.blobs.lookup l.digest = some content ∧
    (content.length : Int) = l.size ∧ sha content = l.digest
  pinned : ∀ d, pinned = some d → sha data = d

/-- What the manifest that was received is like: a layer has a size over zero, or has none and the digest of the empty
file; layers with one digest have one size; `Resolve` reads all of the manifest; the name has no other manifest of the
same size; and the manifest has the digest that the name carries. -/
structure Sound (sha : Bytes → Digest) (cache : DiskCache) (n : Name) (pinned : Option Digest) (data : Bytes)
    (m : Manifest) : Prop where
  sized : ∀ l, some l ∈ m.pulled → 0 < l.size ∨ l.size = 0 ∧ sha [] = l.digest
  agree : ∀ l l', some l ∈ m.pulled → some l' ∈ m.pulled → l.digest = l'.digest → l.size = l'.size
  length : data.length ≤ 1 <<< 20
  linked : ∀ p old, cache.manifestPath n.string = .ok p → cache.manifests.lookup p = some old →
    old.length = data.length → old = data
  pinned : ∀ d, pinned = some d → sha data = d

namespace PullAux

variable {sha : Bytes → Digest} {decode : Bytes → Option Manifest} {threshold : Int} {chunkSize : Int64} {mask : Name}
variable {cache : DiskCache} {name data : Bytes} {m : Manifest}

/-! ## The end of a pull -/

/-- What it takes for `Pull` to return nil. -/
theorem commit_ok {s : Pull} (h : (s.commit sha).result = some .ok) :
    s.failed = false ∧ (∀ t ∈ s.tasks, t.call.state = .returned none) ∧
      ∃ c, s.cache.putBytes sha (sha s.data) s.data = (c, none) ∧
        c.link sha s.name (sha s.data) = ((s.commit sha).cache, none) := by
  unfold Pull.commit at h ⊢
  by_cases hfail : s.failed = true ∨ ∃ t ∈ s.tasks, t.call.state ≠ .returned none
  · rw [if_pos hfail] at h
    nomatch h
  rw [if_neg hfail] at h ⊢
  rw [not_or] at hfail
  refine ⟨Bool.not_eq_true _ ▸ hfail.1, fun t ht => by_contra fun hne => hfail.2 ⟨t, ht, hne⟩, ?_⟩
  dsimp only at h ⊢
  rcases hput : s.cache.putBytes sha (sha s.data) s.data with ⟨c, _ | err⟩
  · rw [hput] at h
    dsimp only at h ⊢
    rcases hlink : c.link sha s.name (sha s.data) with ⟨c', _ | err⟩
    · exact ⟨c, rfl, hlink⟩
    · rw [hlink] at h
      nomatch h
  · rw [hput] at h
    nomatch h

theorem commit_result (sha : Bytes → Digest) (s : Pull) :
    (s.commit sha).result = some .ok ∨ (s.commit sha).result = some .failed := by
  unfold Pull.commit
  split
  · exact .inr rfl
  · dsimp only
    split
    · exact .inr rfl
    · split
      · exact .inr rfl
      · exact .inl rfl

/-- What `PutBytes` does to the files. -/
theorem putBytes_ok {c c' : DiskCache} (h : c.putBytes sha (sha data) data = (c', none)) :
    c'.manifests = c.manifests ∧ (∀ d, d ≠ sha data → c'.blobs.lookup d = c.blobs.lookup d) ∧
      ((∀ f, c.blobs.lookup (sha data) = some f → f = [] ∨ f = data) → c'.blobs.lookup (sha data) = some data) := by
  unfold DiskCache.putBytes DiskCache.put at h
  rcases hcopy : copyNamedFile sha (c.blobs.lookup (sha data)) (.ofBytes data) (sha data) data.length with ⟨file, err⟩
  simp only [hcopy] at h
  obtain ⟨rfl, rfl⟩ := Prod.mk.inj h
  refine ⟨rfl, fun d hd => ?_, fun hfile => ?_⟩
  · show (Assoc.set c.blobs (sha data) file).lookup d = _
    rw [Assoc.lookup_set, if_neg hd]
  · show (Assoc.set c.blobs (sha data) file).lookup (sha data) = _
    rw [Assoc.lookup_set, if_pos rfl]
    congr 1
    rcases copyNamedFile_eq_ok hcopy with ⟨hold, hlen⟩ | ⟨hnil, hzero⟩ | ⟨hread, _, _⟩
    · rcases hfile file hold with rfl | rfl
      · exact (List.eq_nil_of_length_eq_zero (by rw [List.length_nil] at hlen; omega)).symm
      · rfl
    · rw [hnil, List.eq_nil_of_length_eq_zero (show data.length = 0 by omega)]
    · rw [hread]
      simp [Reader.ofBytes]

/-- What a name is resolved to after a link to the manifest, on a cache that has the manifests that were there before
the pull. -/
theorem resolve_link_iff (hinv : CacheInv sha cache) (hcol : NoCollision sha (sha data)) {c c' : DiskCache}
    (hmanifests : c.manifests = cache.manifests) (hblob : c.blobs.lookup (sha data) = some data)
    (hlink : c.link sha name (sha data) = (c', none)) :
    (c'.resolve sha name).2 = .ok (sha data) ↔ data.length ≤ 1 <<< 20 ∧
      ∀ p old, cache.manifestPath name = .ok p → cache.manifests.lookup p = some old → old.length = data.length →
        old = data := by
  obtain ⟨np, p, file, hnp, hp, rfl, hfile⟩ := link_eq_ok hblob hlink
  have hpath : ∀ c₁ c₂ : DiskCache, c₁.manifests = c₂.manifests → c₁.manifestPath name = c₂.manifestPath name := by
    intro c₁ c₂ heq
    unfold DiskCache.manifestPath DiskCache.links
    rw [heq]
  have hp₀ : cache.manifestPath name = .ok p := (hpath cache c hmanifests.symm).trans hp
  rw [hmanifests] at hfile
  obtain ⟨p', hp', hfold, _⟩ := manifestPath_spec hinv hnp
  obtain rfl : p' = p := Except.ok.inj (hp'.symm.trans hp₀)
  have hlookup : (Assoc.set cache.manifests p' file).lookup p' = some file := by rw [Assoc.lookup_set, if_pos rfl]
  have hset : { cache with manifests := Assoc.set cache.manifests p' file }.manifestPath name = .ok p' :=
    manifestPath_eq (hinv.setManifest hnp hp₀ file) hnp (by rw [hlookup]; rfl) hfold
  have hp₁ : { c with manifests := Assoc.set c.manifests p' file }.manifestPath name = .ok p' := by
    refine (hpath _ _ ?_).trans hset
    rw [hmanifests]
  rw [resolve_eq hnp hp₁ (by rw [hmanifests]; exact hlookup)]
  have hdigest : sha data = sha data := rfl
  have hiff := linked_digest_iff hdigest (fun x hx => hcol x data hx rfl) hfile
  constructor
  · intro h
    obtain ⟨hlen, hold⟩ := hiff.1 (Except.ok.inj h)
    refine ⟨hlen, fun q old hq => ?_⟩
    obtain rfl : p' = q := Except.ok.inj (hp₀.symm.trans hq)
    exact hold old
  · rintro ⟨hlen, hold⟩
    rw [hiff.2 ⟨hlen, fun old => hold p' old hp₀⟩]

/-- The manifest that a pull stores is what it links, where it is not the file of a layer, or that layer has its digest. -/
theorem data_stored (hinv : CacheInv sha cache) (hcol : NoCollision sha (sha data)) {s : Pull}
    (h : Track sha cache name data m s) {c : DiskCache} (hput : s.cache.putBytes sha (sha data) data = (c, none))
    (hlayer : ∀ l, some l ∈ m.pulled → l.digest = sha data → c.blobs.lookup (sha data) = some data) :
    c.blobs.lookup (sha data) = some data := by
  by_cases hex : ∃ l, some l ∈ m.pulled ∧ l.digest = sha data
  · obtain ⟨l, hl, hd⟩ := hex
    exact hlayer l hl hd
  · refine (putBytes_ok hput).2.2 (fun f hf => ?_)
    rw [h.blobs (sha data) (fun l hl hd => hex ⟨l, hl, hd⟩)] at hf
    rcases hinv.blobs (sha data) f hf with hnil | hsum
    · exact .inl hnil
    · exact .inr (hcol f data hsum rfl)

/-- The files of the layers when every goroutine has returned nil. -/
theorem layers_stored {s : Pull} (h : Track sha cache name data m s) (hagree : Agree m) (htodo : s.todo = [])
    (hfailed : s.failed = false) (hall : ∀ t ∈ s.tasks, t.call.state = .returned none) {l : Layer}
    (hl : some l ∈ m.pulled) (hsized : 0 < l.size ∨ l.size = 0 ∧ sha [] = l.digest) :
    ∃ content, s.cache.blobs.lookup l.digest = some content ∧ (content.length : Int) = l.size ∧
      sha content = l.digest := by
  refine (h.kept hagree l hl hsized).stored ?_ ?_
  · rintro _ ⟨t, ht, _, rfl⟩
    exact hall t ht
  · rcases h.cover l hl with hwait | hc | ⟨t, ht, hd⟩ | hfail
    · rw [htodo] at hwait
      exact absurd hwait List.not_mem_nil
    · exact .inl ⟨l, hc, rfl⟩
    · exact .inr ⟨t.call, t, ht, hd, rfl⟩
    · rw [hfailed] at hfail
      exact absurd hfail Bool.false_ne_true

/-- A pull that returns nil has committed the model if and only if the manifest is sound. -/
theorem committed_iff (hinv : CacheInv sha cache) {n : Name} {pinned : Option Digest}
    (hcol : NoCollision sha (sha data)) {s : Pull} (h : Track sha cache n.string data m s) (htodo : s.todo = [])
    (hok : (s.commit sha).result = some .ok) :
    Committed sha n pinned data m (s.commit sha).cache ↔ Sound sha cache n pinned data m := by
  obtain ⟨hfailed, hall, c, hput, hlink⟩ := commit_ok hok
  rw [h.data] at hput hlink
  rw [h.name] at hlink
  obtain ⟨hmanifests, hothers, hdata⟩ := putBytes_ok hput
  have hblobs : (s.commit sha).cache.blobs = c.blobs := by
    have hkeep : (c.link sha n.string (sha data)).1.blobs = c.blobs := link_blobs ..
    rwa [hlink] at hkeep
  have hresolve := fun hblob => resolve_link_iff hinv hcol (hmanifests.trans h.manifests) hblob hlink
  constructor
  · rintro ⟨hresolved, hstored, hpinned⟩
    rw [hblobs] at hstored
    have hblob : c.blobs.lookup (sha data) = some data := by
      refine data_stored hinv hcol h hput (fun l hl hd => ?_)
      obtain ⟨content, hcontent, _, hsum⟩ := hstored l hl
      rw [hd] at hcontent hsum
      rw [hcontent, hcol content data hsum rfl]
    obtain ⟨hlen, hlinked⟩ := (hresolve hblob).1 hresolved
    refine ⟨fun l hl => ?_, fun l l' hl hl' hd => ?_, hlen, hlinked, hpinned⟩
    · obtain ⟨content, _, hsize, hsum⟩ := hstored l hl
      rcases Int.lt_or_eq_of_le (show 0 ≤ l.size by omega) with hpos | hzero
      · exact .inl hpos
      · have hnil : content = [] := List.eq_nil_of_length_eq_zero (by omega)
        exact .inr ⟨hzero.symm, hnil ▸ hsum⟩
    · obtain ⟨content, hcontent, hsize, _⟩ := hstored l hl
      obtain ⟨content', hcontent', hsize', _⟩ := hstored l' hl'
      rw [hd, hcontent'] at hcontent
      rw [← hsize, ← hsize', Option.some.inj hcontent]
  · intro hsound
    have hlayers := fun l hl => layers_stored h hsound.agree htodo hfailed hall hl (hsound.sized l hl)
    have hblob : c.blobs.lookup (sha data) = some data := by
      refine data_stored hinv hcol h hput (fun l hl hd => hdata (fun f hf => .inr ?_))
      obtain ⟨content, hcontent, _, hsum⟩ := hlayers l hl
      rw [hd] at hcontent hsum
      rw [Option.some.inj (hf.symm.trans hcontent)]
      exact hcol content data hsum rfl
    refine ⟨(hresolve hblob).2 ⟨hsound.length, hsound.linked⟩, fun l hl => ?_, hsound.pinned⟩
    obtain ⟨content, hcontent, hsize, hsum⟩ := hlayers l hl
    refine ⟨content, ?_, hsize, hsum⟩
    rw [hblobs]
    by_cases hd : l.digest = sha data
    · rw [hd, hblob, hcol content data (hd ▸ hsum) rfl]
    · rw [hothers l.digest hd, hcontent]

/-! ## The chunked layers of a pull -/

theorem begin_tasks (decode : Bytes → Option Manifest) (mask : Name) (cache : DiskCache) (text : Bytes)
    (res : Option Bytes) :
    (Pull.begin decode mask cache text res).tasks = [] := by
  unfold Pull.begin
  dsimp only
  split
  · rfl
  · rfl
  · split
    · rfl
    · split
      · rfl
      · split <;> rfl

theorem commit_tasks (sha : Bytes → Digest) (s : Pull) : (s.commit sha).tasks = s.tasks := by
  unfold Pull.commit
  split
  · rfl
  · dsimp only
    split
    · rfl
    · split <;> rfl

/-- Each chunked layer of a pull takes its own steps, from its first state. -/
theorem chunked_of_pull {G : Int → Chunked → ChunkedAct → Prop} {text : Bytes} {res : Option Bytes} {s : Pull}
    (h : ((pull sha decode threshold chunkSize mask cache text res).guarded (Pull.Chunks G)).Reachable s) :
    ∀ t ∈ s.tasks, ∀ c ∈ t.chunked,
      ((chunked (Int64.ofInt t.call.size) chunkSize).guarded (G t.call.size)).Reachable c := by
  refine h.invariant (I := fun s => ∀ t ∈ s.tasks, ∀ c ∈ t.chunked,
    ((chunked (Int64.ofInt t.call.size) chunkSize).guarded (G t.call.size)).Reachable c) ?_ ?_
  · intro s hs t ht
    rw [show s = _ from hs, begin_tasks] at ht
    nomatch ht
  · rintro s s' ih ⟨a, hG, hact⟩
    obtain ⟨_, hcases⟩ := act_cases hact
    rcases hcases with ⟨_, _, rfl⟩ | ⟨_, _, _, _, rfl⟩ | ⟨_, _, _, rfl⟩ | ⟨l, todo, r, chunked, _, hnew, rfl⟩ |
      ⟨i, t, file, state, chunked, hi, _, hchunked, rfl⟩ | ⟨i, t, c, c', b, rfl, hi, hc, hstep, rfl⟩ |
      ⟨_, _, _, _, _, _, rfl⟩ |
      ⟨_, rfl⟩
    · exact ih
    · exact ih
    · exact ih
    · intro u hu c hc
      rcases List.mem_append.1 hu with hold | hu
      · exact ih u hold c hc
      · rw [List.mem_singleton.1 hu] at hc
        exact .init (hnew c hc)
    · intro u hu c' hc'
      rcases List.mem_or_eq_of_mem_set hu with hold | rfl
      · exact ih u hold c' hc'
      · have ht := ih t (List.mem_of_getElem? hi)
        rcases hchunked with rfl | ⟨c, c₁, b, rfl, hc, hstep, rfl⟩
        · exact ht c' hc'
        · obtain rfl := Option.some.inj hc'
          exact (ht c hc).step ⟨b, hG t hi c hc, hstep⟩
    · intro u hu c₁ hc₁
      rcases List.mem_or_eq_of_mem_set hu with hold | rfl
      · exact ih u hold c₁ hc₁
      · obtain rfl := Option.some.inj hc₁
        exact (ih t (List.mem_of_getElem? hi) c hc).step ⟨b, hG t hi c hc, hstep⟩
    · exact ih
    · rw [commit_tasks]
      exact ih

/-- A step of a chunked layer is one of its relay, or leaves it as it is. -/
theorem act_relay {size : Int64} {c c' : Chunked} {a : ChunkedAct} (h : c.act size chunkSize a = some c') :
    c'.relay = c.relay ∨ ∃ b, c.relay.act b = some c'.relay ∧ ∀ i, b = .turn i → a = .turn i := by
  have hmap : ∀ b, (∀ i, b = RelayAct.turn i → a = .turn i) → ∀ f : Relay → Chunked, (∀ r, (f r).relay = r) →
      (c.relay.act b).map f = some c' → c'.relay = c.relay ∨ ∃ b, c.relay.act b = some c'.relay ∧ ∀ i, b = .turn i →
      a = .turn i := by
    intro b hb f hf hmap
    obtain ⟨r, hr, rfl⟩ := Option.map_eq_some_iff.1 hmap
    exact .inr ⟨b, by rw [hf]; exact hr, hb⟩
  unfold Chunked.act at h
  split at h
  · nomatch h
  cases a with
  | request ok | copy =>
    obtain ⟨_, h⟩ := Option.ite_none_right_eq_some.1 h
    obtain rfl := Option.some.inj h
    exact .inl rfl
  | cancel =>
    obtain rfl := Option.some.inj h
    exact .inl rfl
  | next =>
    dsimp only at h
    split at h
    · split at h
      · obtain rfl := Option.some.inj h
        exact .inl rfl
      · split at h
        · obtain rfl := Option.some.inj h
          exact .inl rfl
        · exact hmap .take (fun _ hb => by cases hb) _ (fun _ => rfl) h
    · nomatch h
  | check | start | finish | putClose =>
    obtain ⟨_, h⟩ := Option.ite_none_right_eq_some.1 h
    exact hmap _ (fun _ hb => by cases hb) _ (fun _ => rfl) h
  | put =>
    dsimp only at h
    split at h
    · obtain rfl := Option.some.inj h
      exact .inl rfl
    · obtain rfl := Option.some.inj h
      exact .inl rfl
    · nomatch h
  | retry i | fail i | flushed i =>
    obtain ⟨chunk, _, h⟩ := Option.bind_eq_some_iff.1 h
    obtain ⟨_, h⟩ := Option.ite_none_right_eq_some.1 h
    obtain rfl := Option.some.inj h
    exact .inl rfl
  | write i p =>
    obtain ⟨chunk, _, h⟩ := Option.bind_eq_some_iff.1 h
    obtain ⟨_, h⟩ := Option.ite_none_right_eq_some.1 h
    exact hmap _ (fun _ hb => by cases hb) _ (fun _ => rfl) h
  | deliver i k failed =>
    obtain ⟨chunk, _, h⟩ := Option.bind_eq_some_iff.1 h
    obtain ⟨_, h⟩ := Option.ite_none_right_eq_some.1 h
    exact hmap _ (fun _ hb => by cases hb) _ (fun _ => rfl) h
  | turn i =>
    obtain ⟨chunk, _, h⟩ := Option.bind_eq_some_iff.1 h
    obtain ⟨_, h⟩ := Option.ite_none_right_eq_some.1 h
    refine hmap (.turn i) (fun j hj => ?_) _ (fun _ => rfl) h
    rw [RelayAct.turn.inj hj]
  | refuse i | complete i | failed i | done i =>
    obtain ⟨chunk, _, h⟩ := Option.bind_eq_some_iff.1 h
    obtain ⟨_, h⟩ := Option.ite_none_right_eq_some.1 h
    exact hmap _ (fun _ hb => by cases hb) _ (fun _ => rfl) h
  | written i =>
    obtain ⟨chunk, _, h⟩ := Option.bind_eq_some_iff.1 h
    simp only [Chunked.chunkAct] at h
    split at h
    · exact hmap _ (fun _ hb => by cases hb) _ (fun _ => rfl) h
    · nomatch h

/-- No writer has come to the destination before there is one. -/
structure Begun (r : Relay) : Prop where
  sane : r.panicked = false
  waits : r.begun = false → ∀ w ∈ r.writers, ∀ p counts, w.call ≠ .write p counts

theorem Begun.set {r : Relay} (h : Begun r) (i : Nat) {w : Writer}
    (hw : r.begun = false → ∀ p counts, w.call ≠ .write p counts) :
    Begun (r.set i w) := by
  refine ⟨h.sane, fun hno v hv => ?_⟩
  rcases List.mem_or_eq_of_mem_set hv with hold | rfl
  · exact h.waits hno v hold
  · exact hw hno

/-- A step of a writer. -/
theorem Begun.writerAct {r r' : Relay} (h : Begun r) {i : Nat} {w : Writer} (hw : w ∈ r.writers) {a : RelayAct}
    (hturn : ∀ j, a = .turn j → r.begun = true) (hact : r.writerAct i w a = some r') : Begun r' := by
  cases a with
  | call j p counts =>
    obtain ⟨_, hact⟩ := Option.ite_none_right_eq_some.1 hact
    obtain rfl := Option.some.inj hact
    exact h.set i (fun _ _ _ heq => by cases heq)
  | turn j =>
    simp only [Relay.writerAct] at hact
    split at hact
    · obtain ⟨_, hact⟩ := Option.ite_none_right_eq_some.1 hact
      obtain rfl := Option.some.inj hact
      refine h.set i (fun hno => ?_)
      exact absurd (hno.symm.trans (hturn j rfl)) Bool.false_ne_true
    · cases hact
  | refuse j =>
    simp only [Relay.writerAct] at hact
    split at hact
    · obtain ⟨_, hact⟩ := Option.ite_none_right_eq_some.1 hact
      obtain rfl := Option.some.inj hact
      exact h.set i (fun _ _ _ heq => by cases heq)
    · cases hact
  | deliver j k =>
    simp only [Relay.writerAct] at hact
    split at hact
    · rename_i p counts hcall
      split at hact
      · rename_i hno
        exact absurd hcall (h.waits (Bool.not_eq_true _ ▸ hno) w hw p counts)
      · obtain rfl := Option.some.inj hact
        have hset : Begun (r.set i { w with call := if counts then .count (p.take k).length else .idle }) :=
          h.set i (fun _ _ _ heq => by split at heq <;> cases heq)
        exact ⟨hset.sane, hset.waits⟩
    · cases hact
  | count j =>
    simp only [Relay.writerAct] at hact
    split at hact
    · obtain rfl := Option.some.inj hact
      have hset : Begun (r.set i { w with call := .idle }) := h.set i (fun _ _ _ heq => by cases heq)
      exact ⟨hset.sane, hset.waits⟩
    · cases hact
  | done j =>
    obtain rfl := Option.some.inj hact
    exact h.set i (fun hno => h.waits hno w hw)
  | take | check | start | finish | close => cases hact

/-- A step of a relay in which no writer gets its turn before there is a destination. -/
theorem Begun.act {r r' : Relay} (h : Begun r) {a : RelayAct} (hturn : ∀ j, a = .turn j → r.begun = true)
    (hact : r.act a = some r') : Begun r' := by
  have hwriter : ∀ i, (r.writers[i]?).bind (fun w => r.writerAct i w a) = some r' → Begun r' := by
    intro i hbind
    obtain ⟨w, hw, hact⟩ := Option.bind_eq_some_iff.1 hbind
    exact h.writerAct (List.mem_of_getElem? hw) hturn hact
  unfold Relay.act at hact
  split at hact
  · nomatch hact
  cases a with
  | take =>
    obtain rfl := Option.some.inj hact
    refine ⟨h.sane, fun hno w hw => ?_⟩
    rcases List.mem_append.1 hw with hold | hw
    · exact h.waits hno w hold
    · rw [List.mem_singleton.1 hw]
      exact fun _ _ => nofun
  | check =>
    obtain ⟨_, hact⟩ := Option.ite_none_left_eq_some.1 hact
    split at hact
    · obtain rfl := Option.some.inj hact
      exact ⟨h.sane, h.waits⟩
    · obtain rfl := Option.some.inj hact
      exact ⟨h.sane, h.waits⟩
  | start =>
    obtain ⟨_, hact⟩ := Option.ite_none_right_eq_some.1 hact
    obtain rfl := Option.some.inj hact
    exact ⟨h.sane, nofun⟩
  | finish =>
    obtain ⟨_, hact⟩ := Option.ite_none_right_eq_some.1 hact
    obtain rfl := Option.some.inj hact
    exact ⟨h.sane, h.waits⟩
  | close =>
    obtain rfl := Option.some.inj hact
    exact ⟨h.sane, h.waits⟩
  | call i p counts => exact hwriter i hact
  | turn i | refuse i | count i | done i => exact hwriter i hact
  | deliver i k => exact hwriter i hact

/-- A chunked layer whose writers get their turns only after `WriteTo` has begun does not panic. -/
theorem chunked_sane {size : Int64} {c : Chunked} (h : ((chunked size chunkSize).guarded Chunked.Turns).Reachable c) :
    c.relay.panicked = false := by
  refine (h.invariant (I := fun c => Begun c.relay) ?_ ?_).sane
  · rintro c rfl
    exact ⟨rfl, fun _ => nofun⟩
  · rintro c c' hbegun ⟨a, hG, hact⟩
    rcases act_relay hact with hsame | ⟨b, hb, hturn⟩
    · rwa [hsame]
    · refine hbegun.act (fun j hj => ?_) hb
      rw [hturn j hj] at hG
      exact hG

/-- A writer that has its turn before `WriteTo` has begun can write to no destination next. -/
theorem chunk_panics {size : Int64} {c c' : Chunked} {j : Nat} (hbegun : c.relay.begun = false)
    (h : c.act size chunkSize (.turn j) = some c') :
    c'.relay.begun = false ∧ c'.relay.panicked = false ∧
      ∃ c'', c'.act size chunkSize (.deliver j 0 false) = some c'' ∧ c''.relay.panicked = true := by
  unfold Chunked.act at h
  obtain ⟨hpanic, h⟩ := Option.ite_none_left_eq_some.1 h
  obtain ⟨chunk, hj, h⟩ := Option.bind_eq_some_iff.1 h
  obtain ⟨_, h⟩ := Option.ite_none_right_eq_some.1 h
  obtain ⟨r, hr, rfl⟩ := Option.map_eq_some_iff.1 h
  rw [Relay.act, if_neg hpanic] at hr
  obtain ⟨w, hw, hr⟩ := Option.bind_eq_some_iff.1 hr
  simp only [Relay.writerAct] at hr
  split at hr
  · rename_i p counts _
    obtain ⟨_, hr⟩ := Option.ite_none_right_eq_some.1 hr
    obtain rfl := Option.some.inj hr
    generalize hr₁ : c.relay.set j { w with ready := true, call := .write p counts } = r₁
    have hwriter : r₁.writers[j]? = some { w with ready := true, call := .write p counts } :=
      hr₁ ▸ List.getElem?_set_self (List.getElem?_eq_some_iff.1 hw).1
    have hpanic₁ : ¬r₁.panicked = true := hr₁ ▸ hpanic
    have hno : ¬r₁.begun = true := by
      rw [← hr₁]
      exact Bool.not_eq_true _ ▸ hbegun
    have hdeliver : r₁.act (.deliver j 0) = some { r₁ with panicked := true } := by
      rw [Relay.act, if_neg hpanic₁]
      simp only [hwriter, Option.bind_some, Relay.writerAct]
      exact if_pos hno
    have hchunk : (c.move j chunk (.writing false) r₁).chunks[j]? = some { chunk with phase := .writing false } :=
      List.getElem?_set_self (List.getElem?_eq_some_iff.1 hj).1
    refine ⟨Bool.not_eq_true _ ▸ hno, Bool.not_eq_true _ ▸ hpanic₁,
      (c.move j chunk (.writing false) r₁).move j { chunk with phase := .writing false } (.writing false) { r₁ with
      panicked := true }, ?_, rfl⟩
    have hsane : ¬(c.move j chunk (.writing false) r₁).relay.panicked = true := hpanic₁
    rw [Chunked.act, if_neg hsane, hchunk, Option.bind_some, Chunked.chunkAct, if_pos rfl]
    exact congrArg _ hdeliver
  · cases hr

/-- A pull in which a writer has had its turn before `WriteTo` has begun can panic next. -/
theorem panics_of_turn {s s' : Pull} {a : PullAct} (hno : ¬s.Turns a)
    (hact : s.act sha threshold chunkSize a = some s') :
    ∃ b s'', s'.act sha threshold chunkSize b = some s'' ∧ s''.result = some .panicked := by
  cases a with
  | layer _ | step _ | late _ _ | wait => exact absurd trivial hno
  | chunk i a =>
    obtain ⟨hres, _⟩ := act_cases hact
    rw [Pull.act, if_neg (not_not.2 hres)] at hact
    obtain ⟨t, hi, hact⟩ := Option.bind_eq_some_iff.1 hact
    obtain ⟨c, hc, hact⟩ := Option.bind_eq_some_iff.1 hact
    have hturn : ¬c.Turns a := fun h => hno (fun t' ht' c' hc' => by
      obtain rfl := Option.some.inj (hi.symm.trans ht')
      obtain rfl := Option.some.inj (hc.symm.trans hc')
      exact h)
    cases a with
    | turn j =>
      obtain ⟨c', hstep, hact⟩ := Option.bind_eq_some_iff.1 hact
      obtain rfl : s.moved i t c' (.turn j) = s' := Option.some.inj hact
      obtain ⟨hbegun, hsane, c'', hdeliver, hpanic⟩ := chunk_panics (Bool.not_eq_true _ ▸ hturn) hstep
      have hi' : (s.moved i t c' (.turn j)).tasks[i]? = some { t with chunked := some c' } :=
        List.getElem?_set_self (List.getElem?_eq_some_iff.1 hi).1
      have hres' : (s.moved i t c' (.turn j)).result = none := by
        unfold Pull.moved
        rw [hsane, if_neg Bool.false_ne_true, if_neg nofun]
        exact hres
      refine ⟨.chunk i (.deliver j 0 false),
        (s.moved i t c' (.turn j)).moved i { t with chunked := some c' } c'' (.deliver j 0 false), ?_, if_pos hpanic⟩
      rw [Pull.act, if_neg (not_not.2 hres'), hi', Option.bind_some, Option.bind_some, Pull.chunk, hdeliver,
        Option.bind_some, Task.joins, hbegun, if_pos Bool.false_ne_true]
    | _ => exact absurd trivial hturn

/-! ## Whole runs -/

theorem null_pulled (m : Manifest) : none ∈ m.pulled ↔ none ∈ m.layers := by
  unfold Manifest.pulled
  split
  · rfl
  · split
    · simp
    · rfl

/-- Where a pull begins. -/
theorem begin_cases (decode : Bytes → Option Manifest) (cache : DiskCache) {n : Name} {pinned : Option Digest}
    (hname : parseNameExtended mask name = some (n, pinned)) (hvalid : n.isFullyQualified = true) (res : Option Bytes) :
    (Pull.begin decode mask cache name res).result = some .failed ∧
        (∀ data m, res = some data → decode data = some m → m.layers = []) ∨
      ∃ data m, res = some data ∧ decode data = some m ∧
        Pull.begin decode mask cache name res = ⟨cache, n.string, data, m.pulled, [], [], false, none⟩ := by
  unfold Pull.begin
  rw [hname]
  cases res with
  | none => exact .inl ⟨rfl, nofun⟩
  | some data =>
    dsimp only
    rw [if_neg (not_not.2 hvalid)]
    cases hm : decode data with
    | none =>
      refine .inl ⟨rfl, fun data' m' hdata hm' => ?_⟩
      rw [← Option.some.inj hdata, hm] at hm'
      nomatch hm'
    | some m =>
      dsimp only
      by_cases hnil : m.layers = []
      · rw [if_pos hnil]
        refine .inl ⟨rfl, fun data' m' hdata hm' => ?_⟩
        rw [← Option.some.inj hdata, hm] at hm'
        rwa [← Option.some.inj hm']
      · rw [if_neg hnil]
        exact .inr ⟨data, m, rfl, hm, rfl⟩

/-- What every state of a pull is like. -/
theorem run_cases (hinv : CacheInv sha cache) {n : Name} {pinned : Option Digest}
    (hname : parseNameExtended mask name = some (n, pinned)) (hvalid : n.isFullyQualified = true) {res : Option Bytes}
    (hcol : ∀ data m, res = some data → decode data = some m → ∀ l, some l ∈ m.pulled → NoCollision sha l.digest)
    {s : Pull} (h : (pull sha decode threshold chunkSize mask cache name res).system.Reachable s) :
    s.result = some .failed ∨ ∃ data m, res = some data ∧ decode data = some m ∧
      (Track sha cache n.string data m s ∨
        (s.result = some .panicked ∧ (none ∈ m.layers ∨ ∃ t ∈ s.tasks, ∃ c ∈ t.chunked, c.relay.panicked = true)) ∨
        ∃ s₀, Track sha cache n.string data m s₀ ∧ s₀.todo = [] ∧ s = s₀.commit sha) := by
  apply h.invariant (I := fun s => s.result = some .failed ∨ ∃ data m, res = some data ∧ decode data = some m ∧
    (Track sha cache n.string data m s ∨
      (s.result = some .panicked ∧ (none ∈ m.layers ∨ ∃ t ∈ s.tasks, ∃ c ∈ t.chunked, c.relay.panicked = true)) ∨
      ∃ s₀, Track sha cache n.string data m s₀ ∧ s₀.todo = [] ∧ s = s₀.commit sha))
  · intro s hs
    rw [show s = _ from hs]
    rcases begin_cases decode cache hname hvalid res with ⟨hfailed, _⟩ | ⟨data, m, hres, hm, hbegin⟩
    · exact .inl hfailed
    · rw [hbegin]
      refine .inr ⟨data, m, hres, hm, .inl ?_⟩
      refine ⟨rfl, rfl, rfl, Iff.rfl, fun _ ho => ho, fun _ hl => absurd hl List.not_mem_nil,
        fun _ ht => absurd ht List.not_mem_nil, fun _ hl => .inl hl, rfl, fun _ _ => rfl, ?_⟩
      intro hagree l hl hsized
      have hkept := Share.Kept.begin (hcol data m hres hm l hl) hsized (hinv.blobs l.digest)
      have hshare : share ⟨cache, n.string, data, m.pulled, [], [], false, none⟩ l.digest =
          ⟨∅, False, cache.blobs.lookup l.digest⟩ := by simp [share]
      rwa [hshare]
  · rintro s s' hs ⟨a, _, hact⟩
    have hrunning : s.result = none := (act_cases hact).1
    rcases hs with hfailed | ⟨data, m, hres, hm, htrack | ⟨hpanic, _⟩ | ⟨s₀, _, _, rfl⟩⟩
    · rw [hfailed] at hrunning
      nomatch hrunning
    · rcases htrack.act (hcol data m hres hm) hact with hnext | ⟨hpanic, hnull⟩ | hfailed | ⟨htodo, rfl⟩
      · exact .inr ⟨data, m, hres, hm, .inl hnext⟩
      · exact .inr ⟨data, m, hres, hm, .inr (.inl ⟨hpanic, hnull.imp (null_pulled m).1 id⟩)⟩
      · exact .inl hfailed
      · exact .inr ⟨data, m, hres, hm, .inr (.inr ⟨s, htrack, htodo, rfl⟩)⟩
    · rw [hpanic] at hrunning
      nomatch hrunning
    · rcases commit_result sha s₀ with hok | hfailed
      · rw [hok] at hrunning
        nomatch hrunning
      · rw [hfailed] at hrunning
        nomatch hrunning

/-- The loop can leave a chunked layer that it comes to: the context is done before the first chunk is started. -/
theorem leave_step {s : Pull} (hres : s.result = none) (hleft : s.tasks.all Task.left = true) (l : Layer)
    (r : Blob.Reader) {run : Pull → Prop}
    (hrun : ∀ s s' a, run s → s.Turns a → s.act sha threshold chunkSize a = some s' → run s')
    (hs : run { s with tasks := s.tasks ++ [⟨l.digest, ⟨r, l.size, .stat⟩, some newChunked⟩] }) :
    ∃ s', run s' ∧ s'.result = none ∧ s'.todo = s.todo ∧ s'.tasks.all Task.left = true := by
  have hlast : ∀ t u : Task, (s.tasks ++ [t])[s.tasks.length]? = some t ∧ (s.tasks ++ [t]).set s.tasks.length u =
    s.tasks ++ [u] := by
    intro t u
    simp
  -- the step of the layer from where it stands
  have hchunk : ∀ (c c' : Chunked) (a : ChunkedAct) (s₁ : Pull), run s₁ → s₁.result = none → s₁.todo = s.todo →
      s₁.tasks = s.tasks ++ [⟨l.digest, ⟨r, l.size, .stat⟩, some c⟩] →
      c.act (Int64.ofInt l.size) chunkSize a = some c' →
        (∀ t : Task, t.joins sha c a = some false) → c.Turns a → c'.relay.panicked = false → a ≠ .request false →
          ∃ s₂, run s₂ ∧ s₂.result = none ∧ s₂.todo = s.todo ∧
            s₂.tasks = s.tasks ++ [⟨l.digest, ⟨r, l.size, .stat⟩, some c'⟩] := by
    intro c c' a s₁ hrun₁ hres₁ htodo₁ htasks₁ hact hjoins hturns hsane hrequest
    have hi : s₁.tasks[s.tasks.length]? = some ⟨l.digest, ⟨r, l.size, .stat⟩, some c⟩ :=
      htasks₁ ▸ (hlast _ ⟨l.digest, ⟨r, l.size, .stat⟩, none⟩).1
    refine ⟨s₁.moved s.tasks.length ⟨l.digest, ⟨r, l.size, .stat⟩, some c⟩ c' a,
      hrun s₁ _ (.chunk s.tasks.length a) hrun₁ ?_ ?_, ?_, htodo₁, ?_⟩
    · intro t ht c₁ hc₁
      obtain rfl := Option.some.inj (hi.symm.trans ht)
      obtain rfl := Option.some.inj hc₁
      exact hturns
    · rw [Pull.act, if_neg (not_not.2 hres₁), hi, Option.bind_some, Option.bind_some, Pull.chunk, hact,
        Option.bind_some, hjoins]
    · unfold Pull.moved
      rw [hsane, if_neg Bool.false_ne_true, if_neg hrequest]
      exact hres₁
    · unfold Pull.moved
      dsimp only
      rw [htasks₁]
      exact (hlast _ _).2
  obtain ⟨s₁, hs₁, hres₁, htodo₁, htasks₁⟩ :=
    hchunk newChunked { newChunked with loop := .next 0 } (.request true) _ hs hres rfl rfl
    rfl (fun _ => rfl) trivial rfl nofun
  obtain ⟨s₂, hs₂, hres₂, htodo₂, htasks₂⟩ :=
    hchunk _ { newChunked with loop := .next 0, canceled := true } .cancel s₁ hs₁ hres₁ htodo₁
    htasks₁ rfl (fun _ => rfl) trivial rfl nofun
  obtain ⟨s₃, hs₃, hres₃, htodo₃, htasks₃⟩ :=
    hchunk _ { newChunked with loop := .left, canceled := true } .next s₂ hs₂ hres₂ htodo₂
    htasks₂ (by
      show (if ¬0 < Int64.ofInt l.size then _ else _) = _
      split <;> rfl) (fun _ => rfl) trivial rfl nofun
  refine ⟨s₃, hs₃, hres₃, htodo₃, ?_⟩
  rw [htasks₃, List.all_append, hleft]
  rfl

/-- The loop can always go on to the layer after one that is not null. -/
theorem layer_step {s : Pull} (hres : s.result = none) (hleft : s.tasks.all Task.left = true) {l : Layer}
    {todo : List (Option Layer)} (htodo : s.todo = some l :: todo) {run : Pull → Prop}
    (hrun : ∀ s s' a, run s → s.Turns a → s.act sha threshold chunkSize a = some s' → run s') (hs : run s) :
    ∃ s', run s' ∧ s'.result = none ∧ s'.todo = todo ∧ s'.tasks.all Task.left = true := by
  have hact : ∀ res, s.act sha threshold chunkSize (.layer res) =
      if cachedSize s.cache l then some { s with todo, cached := s.cached ++ [l] }
      else Pull.get threshold { s with todo } l res := by
    intro res
    rw [Pull.act, if_neg (not_not.2 hres), htodo]
    exact if_neg (not_not.2 hleft)
  by_cases hcached : cachedSize s.cache l = true
  · exact ⟨_, hrun s _ (.layer .fail) hs trivial ((hact .fail).trans (if_pos hcached)), hres, rfl, hleft⟩
  · by_cases hsize : l.size ≤ threshold
    · refine ⟨_, hrun s _ (.layer (.body (.ofBytes []))) hs trivial
        ((hact _).trans ((if_neg hcached).trans (if_pos hsize))), hres, rfl, ?_⟩
      rw [List.all_append, hleft]
      rfl
    · have hrelay := hrun s _ (.layer (.relay (.ofBytes []))) hs trivial
        ((hact _).trans ((if_neg hcached).trans (if_pos (not_le.1 hsize))))
      exact leave_step (s := { s with todo }) hres hleft l _ hrun hrelay

/-- The loop comes to a null layer and panics. -/
theorem panics_of_null {run : Pull → Prop}
    (hrun : ∀ s s' a, run s → s.Turns a → s.act sha threshold chunkSize a = some s' → run s')
    (todo : List (Option Layer)) (hnull : none ∈ todo) {s : Pull} (h : run s) (hres : s.result = none)
    (htodo : s.todo = todo) (hleft : s.tasks.all Task.left = true) : ∃ s', run s' ∧ s'.result = some .panicked := by
  induction todo generalizing s with
  | nil => nomatch hnull
  | cons o todo ih =>
    cases o with
    | none =>
      refine ⟨{ s with result := some .panicked }, hrun s _ (.layer .fail) h trivial ?_, rfl⟩
      rw [Pull.act, if_neg (not_not.2 hres), htodo]
      exact if_neg (not_not.2 hleft)
    | some l =>
      obtain ⟨s', hs', hres', htodo', hleft'⟩ := layer_step hres hleft htodo hrun h
      refine ih ?_ hs' hres' htodo' hleft'
      rcases List.mem_cons.1 hnull with hhead | hrest
      · nomatch hhead
      · exact hrest

end PullAux

open PullAux

/-- A pull in which the loop leaves a chunked layer only where its relay is closed or will be does not get stuck in it. -/
theorem pull_not_stuck {sha : Bytes → Digest} {decode : Bytes → Option Manifest} {threshold : Int}
    {chunkSize : Int64} {mask : Name} {cache : DiskCache} {text : Bytes} {res : Option Bytes} {s : Pull}
    (h : ((pull sha decode threshold chunkSize mask cache text res).guarded
      (Pull.Chunks (fun size c a => c.Closes (Int64.ofInt size) chunkSize a))).Reachable s) :
    ∀ t ∈ s.tasks, ∀ c ∈ t.chunked, ¬c.Stuck :=
  fun t ht c hc => (ChunkedAux.inv_reachable (chunked_of_pull h t ht c hc)).not_stuck

/-! ## Manifests of one layer -/

/-- A manifest with the layer `1`, of the size that is written. -/
def layerManifest (size : String) : Bytes :=
  ascii "\x7b\"layers\":[\x7b\"size\":" ++ ascii size ++
    ascii ",\"digest\":\"sha256:6b86b273ff34fce19d6b804eff5a3f5747ada4eaa22f1d49c01e52ddb7875b4b\"\x7d]\x7d"

/-- A manifest with a null layer. -/
def nullManifest : Bytes := ascii "\x7b\"layers\":[null]\x7d"

/-- What `json.Unmarshal` makes of them. -/
def decodeOne (data : Bytes) : Option Manifest :=
  if data = layerManifest "1" then some ⟨[some ⟨sha12 [0x31], 1⟩], none⟩
  else if data = layerManifest "0" then some ⟨[some ⟨sha12 [0x31], 0⟩], none⟩
  else if data = layerManifest "3" then some ⟨[some ⟨sha12 [0x31], 3⟩], none⟩
  else if data = nullManifest then some ⟨[none], none⟩
  else none

/-- SHA-256 of the manifests with a layer, and of the layer. -/
def shaOne (content : Bytes) : Digest :=
  if content = layerManifest "1" then ⟨
    [0x4c, 0xe3, 0x55, 0xdc, 0x9c, 0x23, 0xd9, 0x89, 0x2a, 0x41, 0xea, 0x8e, 0x3a, 0x59, 0x82, 0x51,
    0x55, 0x3c, 0x5b, 0x2d, 0xfb, 0xb6, 0xcc, 0xeb, 0xca, 0x63, 0xfa, 0xf6, 0x34, 0x68, 0x7c, 0x43], by decide⟩
  else if content = layerManifest "0" then ⟨
    [0x1e, 0xe6, 0xd9, 0x44, 0x32, 0xee, 0x71, 0x85, 0xe3, 0xe9, 0x9d, 0x6a, 0x89, 0x00, 0x43, 0x1f,
    0x20, 0x6d, 0xf7, 0x06, 0x84, 0x0c, 0x83, 0x60, 0xca, 0xc9, 0xf3, 0x47, 0x7c, 0x4a, 0xef, 0x72], by decide⟩
  else sha12 content

/-- The digest of the manifest with the layer of one byte is that of no other content. -/
theorem shaOne_manifest {x : Bytes} (h : shaOne x = shaOne (layerManifest "1")) : x = layerManifest "1" := by
  by_contra hne
  rw [shaOne, shaOne, if_neg hne, if_pos rfl] at h
  unfold sha12 at h
  split at h
  · exact absurd h (by decide +kernel)
  · split at h
    · exact absurd h (by decide +kernel)
    · split at h <;> exact absurd h (by decide +kernel)

theorem shaOne_layer {x : Bytes} (h : shaOne x = sha12 [0x31]) : x = [0x31] := by
  rw [sha12, if_pos rfl] at h
  unfold shaOne at h
  split at h
  · exact absurd h (by decide +kernel)
  · split at h
    · exact absurd h (by decide +kernel)
    · exact sha12_one h

/-- The runs of `Pull` for a name on an empty cache, with the manifest that was received. A layer of more than two
bytes is chunked. -/
def pullOne (data : Bytes) : Machine Pull PullAct :=
  pull shaOne decodeOne 2 2 defaultMask .open_ (ascii "h/n/m:t") (some data)

/-- The name. -/
def nameOne : Name := ⟨ascii "h", ascii "n", ascii "m", ascii "t"⟩

/-- The state after a schedule of `pullOne`, from its first one. -/
def runOne (data : Bytes) (acts : List PullAct) : Option Pull :=
  (pullOne data).run (Pull.begin decodeOne defaultMask .open_ (ascii "h/n/m:t") (some data)) acts

/-- The first of two chunks fails, and its ticket is closed, while the layer's file has not been opened: the second
has its turn. -/
def secondChunk : List PullAct :=
  .layer (.relay (.ofBytes [])) :: List.map (.chunk 0)
    [.request true, .next, .next, .write 1 [0x31], .fail 0, .failed 0, .done 0, .turn 1, .deliver 1 1 false]

end Ollama.Client
