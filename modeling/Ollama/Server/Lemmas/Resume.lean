import Ollama.Server.Resume
import Mathlib.Data.List.Forall2
import Mathlib.Algebra.Order.BigOperators.Group.List

/-!
# Parts and the files that keep them

The parts of a blob lie one after the other and cover it. The files of the parts, while a download is going on and
after it was stopped, are those of some of the parts: not all have been made, or some have been removed. Where all are
there, the bytes that they say are completed are those of the blob.
-/

namespace Ollama.Server

open Lib

namespace ResumeAux

/-! ## The parts of a blob -/

/-- Parts that lie one after the other from an offset to another, and are numbered from `n`. -/
def Contig : Nat → Nat → List Part → Nat → Prop
  | offset, _, [], stop => offset = stop
  | offset, n, p :: ps, stop => p.n = n ∧ p.offset = offset ∧ 0 < p.size ∧ p.completed = 0 ∧
      Contig (offset + p.size) (n + 1) ps stop

/-- The new parts cover the rest of the file, one behind the other. -/
theorem contig_newParts {total fuel size offset : Nat} (n : Nat) (hsize : 0 < size) (hfuel : total ≤ offset + fuel)
    (hoffset : offset ≤ total) : Contig offset n (newParts total fuel size offset n) total := by
  induction fuel generalizing size offset n with
  | zero =>
    show offset = total
    omega
  | succ fuel ih =>
    rw [newParts]
    split
    · rename_i hlt
      dsimp only
      split
      · refine ⟨rfl, rfl, by simp; omega, rfl, ih (n + 1) (by omega) (by simp; omega) (by simp; omega)⟩
      · refine ⟨rfl, rfl, by simpa using hsize, rfl, ih (n + 1) hsize (by simp; omega) (by simp; omega)⟩
    · show offset = total
      omega

/-- The parts of a blob cover it. -/
theorem contig_partsOf (total : Nat) : Contig 0 0 (partsOf total) total := by
  refine contig_newParts 0 ?_ (by omega) (by omega)
  unfold partSize
  dsimp only
  split
  · omega
  · split <;> omega

/-- Parts that stand one behind the other can be split anywhere. -/
theorem Contig.append {a b : List Part} {offset n stop : Nat} (h : Contig offset n (a ++ b) stop) :
    Contig offset n a (offset + (a.map Part.size).sum) ∧
      Contig (offset + (a.map Part.size).sum) (n + a.length) b stop := by
  induction a generalizing offset n with
  | nil => exact ⟨rfl, h⟩
  | cons p a ih =>
    obtain ⟨hn, ho, hpos, hzero, hrest⟩ := h
    obtain ⟨ha, hb⟩ := ih hrest
    rw [List.map_cons, List.sum_cons, ← Nat.add_assoc]
    refine ⟨⟨hn, ho, hpos, hzero, ha⟩, ?_⟩
    rw [List.length_cons, show n + (a.length + 1) = n + 1 + a.length by omega]
    exact hb

/-- Parts that stand one behind the other end where their sizes say. -/
theorem Contig.sum_eq {ps : List Part} {offset n stop : Nat} (h : Contig offset n ps stop) :
    offset + (ps.map Part.size).sum = stop := by
  induction ps generalizing offset n with
  | nil => exact h
  | cons p ps ih =>
    obtain ⟨_, _, _, _, hrest⟩ := h
    rw [List.map_cons, List.sum_cons, ← ih hrest]
    omega

/-- Where the parts lie, and their numbers. -/
theorem Contig.bounds {ps : List Part} {offset n stop : Nat} (h : Contig offset n ps stop) {p : Part} (hp : p ∈ ps) :
    offset ≤ p.offset ∧ p.offset + p.size ≤ stop ∧ n ≤ p.n ∧ p.n < n + ps.length ∧ 0 < p.size := by
  induction ps generalizing offset n with
  | nil => simp at hp
  | cons q ps ih =>
    obtain ⟨hn, ho, hpos, _, hrest⟩ := h
    have hsum := hrest.sum_eq
    rcases List.mem_cons.1 hp with rfl | hp
    · refine ⟨by omega, by omega, by omega, by simp; omega, hpos⟩
    · obtain ⟨h1, h2, h3, h4, h5⟩ := ih hrest hp
      refine ⟨by omega, h2, by omega, by simp; omega, h5⟩

/-- Every byte is in one of the parts. -/
theorem Contig.cover {ps : List Part} {offset n stop : Nat} (h : Contig offset n ps stop) {k : Nat}
    (hk : offset ≤ k) (hstop : k < stop) :
    ∃ p ∈ ps, p.offset ≤ k ∧ k < p.offset + p.size := by
  induction ps generalizing offset n with
  | nil =>
    have hends : offset = stop := h
    omega
  | cons q ps ih =>
    obtain ⟨hn, ho, hpos, _, hrest⟩ := h
    by_cases hin : k < q.offset + q.size
    · exact ⟨q, List.mem_cons_self .., by omega, hin⟩
    · obtain ⟨p, hp, hcover⟩ := ih hrest (by omega)
      exact ⟨p, List.mem_cons_of_mem _ hp, hcover⟩

/-- A part lies behind those before it, and has a greater number. -/
theorem Contig.pairwise {ps : List Part} {offset n stop : Nat} (h : Contig offset n ps stop) :
    ps.Pairwise (fun p q => p.n < q.n ∧ p.offset + p.size ≤ q.offset) := by
  induction ps generalizing offset n with
  | nil => exact List.Pairwise.nil
  | cons p ps ih =>
    obtain ⟨hn, ho, _, _, hrest⟩ := h
    refine List.pairwise_cons.2 ⟨?_, ih hrest⟩
    intro q hq
    obtain ⟨hlo, _, hnum, _⟩ := hrest.bounds hq
    omega

/-! ## Files -/

/-- The file of a part is among the others. -/
theorem setFile_split {l₁ l₂ : List (Nat × Option Part)} {n : Nat} (v w : Option Part) (h₁ : n ∉ l₁.map Prod.fst)
    (h₂ : n ∉ l₂.map Prod.fst) : setFile (l₁ ++ (n, v) :: l₂) n w = l₁ ++ (n, w) :: l₂ := by
  have hsame : ∀ l : List (Nat × Option Part), n ∉ l.map Prod.fst →
    l.map (fun f => if f.1 = n then (n, w) else f) = l := by
    intro l hl
    refine (List.map_congr_left (g := id) ?_).trans (List.map_id l)
    intro f hf
    have hne : f.1 ≠ n := fun heq => hl (heq ▸ List.mem_map_of_mem hf)
    simp [hne]
  rw [setFile, if_pos (by simp), List.map_append, List.map_cons, hsame l₁ h₁, hsame l₂ h₂]
  simp

/-- The file of a part is new. -/
theorem setFile_new {files : List (Nat × Option Part)} {n : Nat} (w : Option Part) (h : n ∉ files.map Prod.fst) :
    setFile files n w = files ++ [(n, w)] := if_neg h

/-- The numbers of the files that are there. -/
theorem mem_setFile {files : List (Nat × Option Part)} {n m : Nat} {w : Option Part}
    (h : m ∈ (setFile files n w).map Prod.fst) :
    m = n ∨ m ∈ files.map Prod.fst := by
  unfold setFile at h
  split at h
  · obtain ⟨f, hf, rfl⟩ := List.mem_map.1 h
    obtain ⟨f', hf', rfl⟩ := List.mem_map.1 hf
    by_cases heq : f'.1 = n
    · exact .inl (by simp [heq])
    · rw [if_neg heq]
      exact .inr (List.mem_map_of_mem hf')
  · rw [List.map_append, List.mem_append] at h
    rcases h with h | h
    · exact .inr h
    · exact .inl (by simpa using h)

/-- The first file is removed. -/
theorem filter_first {l : List (Nat × Option Part)} {n : Nat} (v : Option Part) (h : n ∉ l.map Prod.fst) :
    ((n, v) :: l).filter (fun f => f.1 ≠ n) = l := by
  rw [List.filter_cons_of_neg (by simp), List.filter_eq_self]
  intro f hf
  have hne : f.1 ≠ n := fun heq => h (heq ▸ List.mem_map_of_mem hf)
  simpa using hne

/-! ## Data -/

/-- A write within a file. -/
theorem getElem?_writeAt {f p : Bytes} {n : Nat} (h : n + p.length ≤ f.length) (k : Nat) :
    (Blob.writeAt f n p)[k]? = if n ≤ k ∧ k < n + p.length then p[k - n]? else f[k]? := by
  have hzero : n - f.length = 0 := by omega
  have htake : (f.take n).length = n := by simp; omega
  rw [Blob.writeAt, hzero, List.replicate_zero, List.append_nil, List.append_assoc]
  by_cases hlo : k < n
  · rw [if_neg (by omega), List.getElem?_append_left (by omega), List.getElem?_take_of_lt hlo]
  · rw [List.getElem?_append_right (by omega), htake]
    by_cases hhi : k < n + p.length
    · rw [if_pos (by omega), List.getElem?_append_left (by omega)]
    · rw [if_neg (by omega), List.getElem?_append_right (by omega), List.getElem?_drop]
      congr 1
      omega

/-- A write within a file does not make it longer. -/
theorem length_writeAt {f p : Bytes} {n : Nat} (h : n + p.length ≤ f.length) :
    (Blob.writeAt f n p).length = f.length := by
  simp only [Blob.writeAt, List.length_append, List.length_take, List.length_replicate, List.length_drop]
  omega

/-- A file is made as long as it is asked to be. -/
theorem length_resize (f : Bytes) (n : Nat) : (resize f n).length = n := by
  simp only [resize, List.length_append, List.length_take, List.length_replicate]
  omega

/-- What remains of a file is as it was. -/
theorem getElem?_resize {f : Bytes} {n k : Nat} {b : UInt8} (h : f[k]? = some b) (hk : k < n) :
    (resize f n)[k]? = some b := by
  obtain ⟨hlt, _⟩ := List.getElem?_eq_some_iff.1 h
  rw [resize, List.getElem?_append_left (by simp; omega), List.getElem?_take_of_lt hk, h]

/-- The first `c` bytes of a part are those of the blob. -/
def DataOk (blob : Bytes) (data : Option Bytes) (part : Part) (c : Nat) : Prop :=
  ∀ k, part.offset ≤ k → k < part.offset + c → (data.getD [])[k]? = blob[k]?

/-- If so many bytes of a part are right, fewer are. -/
theorem DataOk.mono {blob : Bytes} {data : Option Bytes} {part : Part} {c c' : Nat} (h : DataOk blob data part c)
    (hc : c' ≤ c) :
    DataOk blob data part c' := fun k hlo hhi => h k hlo (by omega)

/-- No bytes of a part are right, whatever the file. -/
theorem DataOk.zero (blob : Bytes) (data : Option Bytes) (part : Part) : DataOk blob data part 0 :=
  fun k hlo hhi => absurd hhi (by omega)

/-- The blob itself is right in every part. -/
theorem DataOk.self (blob : Bytes) (part : Part) (c : Nat) : DataOk blob (some blob) part c := fun _ _ _ => rfl

/-- `Truncate` to the size of the blob. -/
theorem DataOk.resize {blob f : Bytes} {part : Part} {c : Nat} (h : DataOk blob (some f) part c)
    (hfit : part.offset + c ≤ blob.length) :
    DataOk blob (some (resize f blob.length)) part c := by
  intro k hlo hhi
  have hk : k < blob.length := by omega
  have hsome : f[k]? = some blob[k] := (h k hlo hhi).trans (List.getElem?_eq_getElem hk)
  exact (getElem?_resize hsome hk).trans (List.getElem?_eq_getElem hk).symm

/-- Bytes of the blob are written where they belong: to another part. -/
theorem DataOk.write {blob f : Bytes} {part : Part} {c start j : Nat} (h : DataOk blob (some f) part c)
    (hlen : f.length = blob.length) (hfit : start + j ≤ blob.length) :
    DataOk blob (some (Blob.writeAt f start ((blob.drop start).take j))) part c := by
  have hpiece : ((blob.drop start).take j).length = j := by simp; omega
  intro k hlo hhi
  rw [Option.getD_some, getElem?_writeAt (by omega), hpiece]
  split
  · rename_i hin
    rw [List.getElem?_take_of_lt (by omega), List.getElem?_drop]
    congr 1
    omega
  · exact h k hlo hhi

/-- Bytes of the blob are written where they belong: to the part itself. -/
theorem DataOk.extend {blob f : Bytes} {part : Part} {c j : Nat} (h : DataOk blob (some f) part c)
    (hlen : f.length = blob.length) (hfit : part.offset + c + j ≤ blob.length) :
    DataOk blob (some (Blob.writeAt f (part.offset + c) ((blob.drop (part.offset + c)).take j))) part (c + j) := by
  have hpiece : ((blob.drop (part.offset + c)).take j).length = j := by simp; omega
  intro k hlo hhi
  rw [Option.getD_some, getElem?_writeAt (by omega), hpiece]
  split
  · rw [List.getElem?_take_of_lt (by omega), List.getElem?_drop]
    congr 1
    omega
  · exact h k hlo (by omega)

/-- A file that has the bytes of all parts is the blob. -/
theorem eq_blob {blob f : Bytes} (hlen : f.length = blob.length)
    (h : ∀ p ∈ partsOf blob.length, DataOk blob (some f) p p.size) :
    f = blob := by
  refine List.ext_getElem? ?_
  intro k
  by_cases hk : k < blob.length
  · obtain ⟨p, hp, hlo, hhi⟩ := (contig_partsOf blob.length).cover (Nat.zero_le k) hk
    exact h p hp k hlo hhi
  · rw [List.getElem?_eq_none (by omega), List.getElem?_eq_none (by omega)]

/-! ## What holds along a run -/

/-- The file of a part, with the bytes that it says are completed, or one that cannot be decoded. -/
def fileOf (part : Part) (saved : Option Nat) : Nat × Option Part :=
  (part.n, saved.map (fun c => { part with completed := c }))

/-- The files of some of the parts. Where all are there, the bytes that are completed are those of the blob. -/
def Sound (blob : Bytes) (disk : PullDisk) : Prop :=
  ∃ es : List (Part × Option Nat), (es.map Prod.fst).Sublist (partsOf blob.length) ∧
    disk.files = es.map (fun e => fileOf e.1 e.2) ∧
    ∀ e ∈ es, ∀ c, e.2 = some c → c ≤ e.1.size ∧
      (es.length = (partsOf blob.length).length → DataOk blob disk.data e.1 c)

/-- The parts that were read from the files. -/
def Loaded (blob : Bytes) (disk : PullDisk) (parts : List Part) : Prop :=
  ∃ es : List (Part × Nat), (es.map Prod.fst).Sublist (partsOf blob.length) ∧
    parts = es.map (fun e => { e.1 with completed := e.2 }) ∧ disk.files = es.map (fun e => fileOf e.1 (some e.2)) ∧
    ∀ e ∈ es, e.2 ≤ e.1.size ∧ (es.length = (partsOf blob.length).length → DataOk blob disk.data e.1 e.2)

/-- The goroutine of a part: the bytes that are completed, where it stands, and what its file says. -/
structure Row where
  part : Part
  completed : Nat
  phase : ChunkPhase
  saved : Option Nat

namespace Row

def chunk (r : Row) : Chunk := ⟨{ r.part with completed := r.completed }, r.phase⟩

def file (r : Row) : Nat × Option Part := fileOf r.part r.saved

/-- The bytes that are there of a part. -/
def written (r : Row) : Nat :=
  match r.phase with
  | .copy k => r.completed + k
  | _ => r.completed

/-- What the file of a part says, from where its goroutine stands. -/
structure Ok (r : Row) : Prop where
  fits : r.written ≤ r.part.size
  saved : ∀ c, r.saved = some c → c ≤ r.completed
  whole : r.phase ≠ .encode → r.saved ≠ none
  ended : r.phase = .ended → r.completed = r.part.size

end Row

/-- No more bytes are recorded for a part than were written. -/
theorem completed_le_written (r : Row) : r.completed ≤ r.written := by
  unfold Row.written
  split <;> omega

/-- The goroutines of the parts, and their files. -/
def Downloading (blob : Bytes) (disk : PullDisk) (chunks : List Chunk) : Prop :=
  ∃ rows : List Row, (rows.map Row.part).Sublist (partsOf blob.length) ∧ chunks = rows.map Row.chunk ∧
    disk.files = rows.map Row.file ∧ (∀ r ∈ rows, r.Ok) ∧ ∃ f, disk.data = some f ∧
      (rows.length = (partsOf blob.length).length → f.length = blob.length ∧
      ∀ r ∈ rows, DataOk blob (some f) r.part r.written)

/-- All files from the `i`th on are there, and the data is complete. -/
def Removing (blob : Bytes) (disk : PullDisk) (i n : Nat) : Prop :=
  n = (partsOf blob.length).length ∧ i ≤ n ∧ disk.data = some blob ∧
    ∃ es : List (Part × Option Nat), es.map Prod.fst = (partsOf blob.length).drop i ∧
    disk.files = es.map (fun e => fileOf e.1 e.2) ∧ ∀ e ∈ es, ∀ c, e.2 = some c → c ≤ e.1.size

/-- Not all files are there. -/
def Lacking (blob : Bytes) (disk : PullDisk) : Prop :=
  Sound blob disk ∧ disk.files.length < (partsOf blob.length).length

/-- What holds in every state of a run. -/
def Inv (blob : Bytes) (s : Pull) : Prop :=
  match s.attempt with
  | .idle | .done | .failed => Sound blob s.disk
  | .head => s.disk.files = []
  | .create todo made => made ++ todo = partsOf blob.length ∧ s.disk.files = made.map (fun p => fileOf p (some 0))
  | .encode part todo made =>
    made ++ part :: todo = partsOf blob.length ∧ s.disk.files =
      made.map (fun p => fileOf p (some 0)) ++ [fileOf part none]
  | .openFile parts => Loaded blob s.disk parts
  | .truncate parts => Loaded blob s.disk parts ∧ s.disk.data ≠ none
  | .download chunks => Downloading blob s.disk chunks
  | .remove i n => Removing blob s.disk i n ∨ Lacking blob s.disk
  | .rename => (s.disk.data = some blob ∧ s.disk.files = []) ∨ Lacking blob s.disk

/-! ### What is left on the disk when an attempt stops -/

/-- A new part has nothing completed. -/
theorem completed_partsOf {total : Nat} {p : Part} (hp : p ∈ partsOf total) : { p with completed := 0 } = p := by
  have hzero : ∀ (ps : List Part) (offset n stop : Nat), Contig offset n ps stop → ∀ p ∈ ps, p.completed = 0 := by
    intro ps
    induction ps with
    | nil => simp
    | cons q ps ih =>
      rintro offset n stop ⟨_, _, _, hq, hrest⟩ p hp
      rcases List.mem_cons.1 hp with rfl | hp
      · exact hq
      · exact ih _ _ _ hrest p hp
  rw [← hzero _ _ _ _ (contig_partsOf total) p hp]

/-- A disk with no files is sound. -/
theorem sound_nil {blob : Bytes} {disk : PullDisk} (h : disk.files = []) : Sound blob disk :=
  ⟨[], List.nil_sublist _, by simpa using h, by simp⟩

/-- A disk whose parts were loaded is sound. -/
theorem Loaded.sound {blob : Bytes} {disk : PullDisk} {parts : List Part} (h : Loaded blob disk parts) :
    Sound blob disk := by
  obtain ⟨es, hsub, _, hfiles, hok⟩ := h
  refine ⟨es.map (fun e => (e.1, some e.2)), by simpa [List.map_map, Function.comp_def] using hsub,
    by simpa [List.map_map, Function.comp_def] using hfiles, ?_⟩
  intro e he c hc
  obtain ⟨e', he', rfl⟩ := List.mem_map.1 he
  obtain rfl : e'.2 = c := by simpa using hc
  simpa using hok e' he'

/-- A disk is sound while its parts are downloaded. -/
theorem Downloading.sound {blob : Bytes} {disk : PullDisk} {chunks : List Chunk}
    (h : Downloading blob disk chunks) : Sound blob disk := by
  obtain ⟨rows, hsub, _, hfiles, hok, f, hf, hdata⟩ := h
  refine ⟨rows.map (fun r => (r.part, r.saved)), by simpa [List.map_map, Function.comp_def] using hsub,
    by rw [hfiles, List.map_map]; rfl, ?_⟩
  intro e he c hc
  obtain ⟨r, hr, rfl⟩ := List.mem_map.1 he
  have hsaved : c ≤ r.completed := (hok r hr).saved c hc
  have hwritten := completed_le_written r
  have hfits := (hok r hr).fits
  refine ⟨by show c ≤ r.part.size; omega, ?_⟩
  intro hall
  rw [hf]
  exact ((hdata (by simpa using hall)).2 r hr).mono (by omega)

/-- A disk is sound while the files of its parts are removed. -/
theorem Removing.sound {blob : Bytes} {disk : PullDisk} {i n : Nat} (h : Removing blob disk i n) : Sound blob disk := by
  obtain ⟨_, _, hdata, es, hparts, hfiles, hok⟩ := h
  refine ⟨es, hparts ▸ List.drop_sublist i _, hfiles, ?_⟩
  intro e he c hc
  refine ⟨hok e he c hc, fun _ => ?_⟩
  rw [hdata]
  exact DataOk.self blob e.1 c

/-- Files of parts of which nothing is completed. -/
theorem sound_made {blob : Bytes} {disk : PullDisk} (es : List (Part × Option Nat))
    (hparts : (es.map Prod.fst).Sublist (partsOf blob.length))
    (hfiles : disk.files = es.map (fun e => fileOf e.1 e.2)) (hzero : ∀ e ∈ es, ∀ c, e.2 = some c → c = 0) :
    Sound blob disk := by
  refine ⟨es, hparts, hfiles, ?_⟩
  intro e he c hc
  obtain rfl := hzero e he c hc
  exact ⟨Nat.zero_le _, fun _ => DataOk.zero blob _ _⟩

/-- Whenever an attempt stops, the disk is sound. -/
theorem Inv.sound {blob : Bytes} {s : Pull} (h : Inv blob s) : Sound blob s.disk := by
  obtain ⟨disk, attempt⟩ := s
  cases attempt with
  | idle => exact h
  | done => exact h
  | failed => exact h
  | head => exact sound_nil h
  | create todo made =>
    obtain ⟨hplan, hfiles⟩ := h
    refine sound_made (made.map (fun p => (p, some 0))) ?_
      (by simpa [List.map_map, Function.comp_def] using hfiles) (by simp)
    rw [← hplan]
    simp [List.map_map, Function.comp_def]
  | encode part todo made =>
    obtain ⟨hplan, hfiles⟩ := h
    refine sound_made (made.map (fun p => (p, some 0)) ++ [(part, none)]) ?_
      (by simpa [List.map_map, Function.comp_def] using hfiles) ?_
    · rw [← hplan]
      simp [List.map_map, Function.comp_def]
    · intro e he c hc
      rcases List.mem_append.1 he with he | he
      · obtain ⟨p, _, rfl⟩ := List.mem_map.1 he
        simpa using hc.symm
      · rw [List.mem_singleton.1 he] at hc
        simp at hc
  | openFile parts => exact Loaded.sound h
  | truncate parts => exact Loaded.sound h.1
  | download chunks => exact Downloading.sound h
  | remove i n =>
    rcases h with h | h
    · exact h.sound
    · exact h.1
  | rename =>
    rcases h with h | h
    · exact sound_nil h.2
    · exact h.1

/-! ### Steps of an attempt -/

/-- The numbers of parts, in the order of the blob. -/
theorem pairwise_sublist {total : Nat} {ps : List Part} (h : ps.Sublist (partsOf total)) :
    ps.Pairwise (fun p q => p.n < q.n) :=
  ((contig_partsOf total).pairwise.imp And.left).sublist h

/-- No two parts have one number. -/
theorem notMem_of_split {total : Nat} {a b : List Part} {p : Part} (h : (a ++ p :: b).Sublist (partsOf total)) :
    p.n ∉ a.map Part.n ∧ p.n ∉ b.map Part.n := by
  have hpair := pairwise_sublist h
  rw [List.pairwise_append, List.pairwise_cons] at hpair
  obtain ⟨_, ⟨hb, _⟩, ha⟩ := hpair
  constructor
  · intro hmem
    obtain ⟨q, hq, heq⟩ := List.mem_map.1 hmem
    have hlt := ha q hq p (List.mem_cons_self ..)
    omega
  · intro hmem
    obtain ⟨q, hq, heq⟩ := List.mem_map.1 hmem
    have hlt := hb q hq
    omega

/-- Reading the files of parts. -/
theorem readParts_eq_some {es : List (Part × Option Nat)} {parts : List Part}
    (h : readParts (es.map (fun e => fileOf e.1 e.2)) = some parts) :
    ∃ es' : List (Part × Nat), es = es'.map (fun e => (e.1, some e.2)) ∧
      parts = es'.map (fun e => { e.1 with completed := e.2 }) := by
  induction es generalizing parts with
  | nil => exact ⟨[], rfl, by simpa [readParts] using h.symm⟩
  | cons e es ih =>
    obtain ⟨part, saved⟩ := e
    cases saved with
    | none => simp [readParts, fileOf] at h
    | some c =>
      obtain ⟨parts', hparts', rfl⟩ := Option.map_eq_some_iff.1 h
      obtain ⟨es', rfl, rfl⟩ := ih hparts'
      exact ⟨(part, c) :: es', rfl, rfl⟩

/-- The parts that `Prepare` reads. -/
theorem Sound.loaded {blob : Bytes} {disk : PullDisk} {parts : List Part} (h : Sound blob disk)
    (hread : readParts disk.files = some parts) : Loaded blob disk parts := by
  obtain ⟨es, hsub, hfiles, hok⟩ := h
  rw [hfiles] at hread
  obtain ⟨es', rfl, rfl⟩ := readParts_eq_some hread
  refine ⟨es', by simpa [List.map_map, Function.comp_def] using hsub, rfl,
    by simpa [List.map_map, Function.comp_def] using hfiles, ?_⟩
  intro e he
  simpa using hok (e.1, some e.2) (List.mem_map.2 ⟨e, he, rfl⟩) e.2 rfl

/-- `Prepare` reads the files. -/
theorem inv_prepare {blob : Bytes} {disk : PullDisk} (h : Sound blob disk) : Inv blob ⟨disk, Pull.prepare disk⟩ := by
  unfold Pull.prepare
  split
  · exact h
  · rename_i hread
    obtain ⟨es, _, hparts, hfiles, _⟩ := h.loaded hread
    obtain rfl : es = [] := by simpa using hparts.symm
    exact hfiles
  · rename_i parts _ hread
    exact h.loaded hread

/-- A file is emptied, to be written for the first time. -/
theorem inv_create {blob : Bytes} {disk : PullDisk} {part : Part} {todo made : List Part}
    (h : Inv blob ⟨disk, .create (part :: todo) made⟩) :
    Inv blob ⟨{ disk with files := setFile disk.files part.n none }, .encode part todo made⟩ := by
  obtain ⟨hplan, hfiles⟩ := h
  refine ⟨hplan, ?_⟩
  have hsub : (made ++ part :: todo).Sublist (partsOf blob.length) := by rw [hplan]
  have hnew : part.n ∉ disk.files.map Prod.fst := by
    rw [hfiles, List.map_map]
    exact (notMem_of_split hsub).1
  show setFile disk.files part.n none = _
  rw [setFile_new none hnew, hfiles]
  rfl

/-- A file is written for the first time. -/
theorem inv_encode {blob : Bytes} {disk : PullDisk} {part : Part} {todo made : List Part}
    (h : Inv blob ⟨disk, .encode part todo made⟩) :
    Inv blob ⟨{ disk with files := setFile disk.files part.n (some part) }, .create todo (made ++ [part])⟩ := by
  obtain ⟨hplan, hfiles⟩ := h
  refine ⟨by rw [← hplan]; simp, ?_⟩
  have hsub : (made ++ part :: todo).Sublist (partsOf blob.length) := by rw [hplan]
  have hnew : part.n ∉ (made.map (fun p => fileOf p (some 0))).map Prod.fst := by
    rw [List.map_map]
    exact (notMem_of_split hsub).1
  have hzero : { part with completed := 0 } = part := completed_partsOf (hplan ▸ by simp : part ∈ partsOf blob.length)
  show setFile disk.files part.n (some part) = _
  rw [hfiles, fileOf, Option.map_none, setFile_split none (some part) hnew (by simp)]
  simp [fileOf, hzero]

/-- All files are made. -/
theorem inv_created {blob : Bytes} {disk : PullDisk} {made : List Part} (h : Inv blob ⟨disk, .create [] made⟩) :
    Loaded blob disk made := by
  obtain ⟨hplan, hfiles⟩ := h
  rw [List.append_nil] at hplan
  refine ⟨made.map (fun p => (p, 0)), ?_, ?_, by simpa [List.map_map, Function.comp_def] using hfiles, ?_⟩
  · rw [← hplan]
    simp [List.map_map, Function.comp_def]
  · rw [List.map_map]
    refine ((List.map_congr_left (g := id) ?_).trans (List.map_id made)).symm
    intro p hp
    exact completed_partsOf (hplan ▸ hp)
  · intro e he
    obtain ⟨p, _, rfl⟩ := List.mem_map.1 he
    exact ⟨Nat.zero_le _, fun _ => DataOk.zero blob _ _⟩

/-- `Truncate`, and the goroutines of the parts. -/
theorem inv_truncate {blob : Bytes} {disk : PullDisk} {parts : List Part} (h : Loaded blob disk parts)
    (hdata : disk.data ≠ none) :
    Downloading blob { disk with data := disk.data.map (fun f => resize f (parts.map Part.size).sum) }
      (parts.map Chunk.start) := by
  obtain ⟨es, hsub, rfl, hfiles, hok⟩ := h
  obtain ⟨f, hf⟩ := Option.ne_none_iff_exists'.1 hdata
  have hsizes : ((es.map (fun e => { e.1 with completed := e.2 })).map Part.size) =
    (es.map Prod.fst).map Part.size := by
    simp [List.map_map, Function.comp_def]
  have hwritten : ∀ e : Part × Nat, Row.written ⟨e.1, e.2, (Chunk.start { e.1 with completed := e.2 }).phase,
    some e.2⟩ = e.2 := by
    intro e
    unfold Chunk.start Row.written
    by_cases hall : e.2 = e.1.size
    · simp [hall]
    · simp [hall]
  refine ⟨es.map (fun e => ⟨e.1, e.2, (Chunk.start { e.1 with completed := e.2 }).phase, some e.2⟩), ?_, ?_, ?_, ?_, ?_⟩
  · simpa [List.map_map, Function.comp_def] using hsub
  · simp [List.map_map, Function.comp_def, Row.chunk, Chunk.start]
  · show disk.files = _
    rw [hfiles, List.map_map]
    rfl
  · intro r hr
    obtain ⟨e, he, rfl⟩ := List.mem_map.1 hr
    refine ⟨by rw [hwritten]; exact (hok e he).1, by simp, by simp, ?_⟩
    intro hover
    by_contra hne
    simp [Chunk.start, show e.2 ≠ e.1.size from hne] at hover
  · refine ⟨resize f ((es.map Prod.fst).map Part.size).sum, by simp only [hf, hsizes, Option.map_some], ?_⟩
    intro hall
    rw [List.length_map] at hall
    have hplan : es.map Prod.fst = partsOf blob.length := hsub.eq_of_length (by simpa using hall)
    have hsum : ((es.map Prod.fst).map Part.size).sum = blob.length := by
      rw [hplan]
      simpa using (contig_partsOf blob.length).sum_eq
    rw [hsum]
    refine ⟨length_resize f _, ?_⟩
    intro r hr
    obtain ⟨e, he, rfl⟩ := List.mem_map.1 hr
    obtain ⟨hle, hdataOk⟩ := hok e he
    have hbound := (contig_partsOf blob.length).bounds (hplan ▸ List.mem_map_of_mem he : e.1 ∈ partsOf blob.length)
    rw [hwritten]
    refine DataOk.resize (hf ▸ hdataOk hall) ?_
    show e.1.offset + e.2 ≤ blob.length
    omega

/-! ### Steps of a goroutine -/

/-- The row of a goroutine among the others. -/
structure Split (blob : Bytes) (disk : PullDisk) (l₁ : List Row) (r : Row) (l₂ : List Row) (f : Bytes) : Prop where
  sub : ((l₁ ++ r :: l₂).map Row.part).Sublist (partsOf blob.length)
  files : disk.files = (l₁ ++ r :: l₂).map Row.file
  ok : ∀ q ∈ l₁ ++ r :: l₂, q.Ok
  data : disk.data = some f
  all : (l₁ ++ r :: l₂).length = (partsOf blob.length).length →
    f.length = blob.length ∧ ∀ q ∈ l₁ ++ r :: l₂, DataOk blob (some f) q.part q.written

/-- The chunk of a part, and the rows before and behind its own. -/
theorem Downloading.split {blob : Bytes} {disk : PullDisk} {chunks : List Chunk} {i : Nat} {c : Chunk}
    (h : Downloading blob disk chunks) (hc : chunks[i]? = some c) :
    ∃ l₁ r l₂ f, Split blob disk l₁ r l₂ f ∧ c = r.chunk ∧
      ∀ c', chunks.set i c' = l₁.map Row.chunk ++ c' :: l₂.map Row.chunk := by
  obtain ⟨rows, hsub, hchunks, hfiles, hok, f, hdata, hall⟩ := h
  obtain ⟨a, b, rfl, hset⟩ := exists_split hc
  obtain ⟨l₁, l, rfl, rfl, hl⟩ := List.map_eq_append_iff.1 hchunks.symm
  obtain ⟨r, l₂, rfl, rfl, rfl⟩ := List.map_eq_cons_iff.1 hl
  exact ⟨l₁, r, l₂, f, ⟨hsub, hfiles, hok, hdata, hall⟩, rfl, hset⟩

/-- The row of a goroutine is replaced. -/
theorem Split.downloading {blob : Bytes} {disk disk' : PullDisk} {l₁ l₂ : List Row} {r : Row} {f : Bytes}
    (h : Split blob disk l₁ r l₂ f) (r' : Row) (f' : Bytes) (hpart : r'.part = r.part)
    (hfiles : disk'.files = (l₁ ++ r' :: l₂).map Row.file) (hok : r'.Ok)
    (hdata : disk'.data = some f')
    (hall : f.length = blob.length → (∀ q ∈ l₁ ++ r :: l₂, DataOk blob (some f) q.part q.written) →
      f'.length = blob.length ∧ (∀ q ∈ l₁ ++ r :: l₂, DataOk blob (some f') q.part q.written) ∧
        DataOk blob (some f') r'.part r'.written) :
    Downloading blob disk' (l₁.map Row.chunk ++ r'.chunk :: l₂.map Row.chunk) := by
  have hcases : ∀ q ∈ l₁ ++ r' :: l₂, q ∈ l₁ ++ r :: l₂ ∨ q = r' := by
    intro q hq
    rcases List.mem_append.1 hq with hq | hq
    · exact .inl (List.mem_append_left _ hq)
    · rcases List.mem_cons.1 hq with hq | hq
      · exact .inr hq
      · exact .inl (List.mem_append_right _ (List.mem_cons_of_mem _ hq))
  refine ⟨l₁ ++ r' :: l₂, by simpa [hpart] using h.sub, by simp, hfiles, ?_, f', hdata, ?_⟩
  · intro q hq
    rcases hcases q hq with hq | rfl
    · exact h.ok q hq
    · exact hok
  · intro hlen
    obtain ⟨hf, hold⟩ := h.all (by simpa using hlen)
    obtain ⟨hf', hkept, hnew⟩ := hall hf hold
    refine ⟨hf', ?_⟩
    intro q hq
    rcases hcases q hq with hq | rfl
    · exact hkept q hq
    · exact hnew

/-- The file of a goroutine is written. -/
theorem Split.setFile {blob : Bytes} {disk : PullDisk} {l₁ l₂ : List Row} {r : Row} {f : Bytes}
    (h : Split blob disk l₁ r l₂ f) (v : Option Part) :
    setFile disk.files r.part.n v = l₁.map Row.file ++ (r.part.n, v) :: l₂.map Row.file := by
  have hsub : (l₁.map Row.part ++ r.part :: l₂.map Row.part).Sublist (partsOf blob.length) := by simpa using h.sub
  obtain ⟨h₁, h₂⟩ := notMem_of_split hsub
  rw [h.files, List.map_append, List.map_cons]
  refine setFile_split _ v ?_ ?_
  · rw [List.map_map] at h₁ ⊢
    exact h₁
  · rw [List.map_map] at h₂ ⊢
    exact h₂

/-- A goroutine steps. -/
theorem inv_nextChunk {blob : Bytes} {disk disk' : PullDisk} {l₁ l₂ : List Row} {r : Row} {f : Bytes} {c' : Chunk}
    (h : Split blob disk l₁ r l₂ f) (hnext : Pull.nextChunk disk r.chunk = some (disk', c')) :
    Downloading blob disk' (l₁.map Row.chunk ++ c' :: l₂.map Row.chunk) := by
  have hmem : r ∈ l₁ ++ r :: l₂ := by simp
  have hr := h.ok r hmem
  have hset := fun v => h.setFile v
  obtain ⟨part, completed, phase, saved⟩ := r
  cases phase with
  | copy k =>
    change (if completed + k = part.size then some (disk,
      (⟨{ part with completed := completed + k }, .openFile⟩ : Chunk)) else none) = some (disk', c') at hnext
    by_cases hall : completed + k = part.size
    · rw [if_pos hall] at hnext
      obtain ⟨rfl, rfl⟩ := Prod.mk.inj (Option.some.inj hnext)
      have hok : Row.Ok ⟨part, completed + k, .openFile, saved⟩ := by
        refine ⟨hr.fits, ?_, fun _ => hr.whole (by simp), by simp⟩
        intro c hc
        have hle : c ≤ completed := hr.saved c hc
        show c ≤ completed + k
        omega
      refine h.downloading ⟨part, completed + k, .openFile,
        saved⟩ f rfl (by simpa [Row.file] using h.files) hok h.data ?_
      intro hf hold
      have hrow := hold _ hmem
      exact ⟨hf, hold, hrow⟩
    · rw [if_neg hall] at hnext
      simp at hnext
  | openFile =>
    obtain ⟨rfl, rfl⟩ := Prod.mk.inj (Option.some.inj hnext)
    refine h.downloading ⟨part, completed, .encode, none⟩ f rfl ((hset none).trans ?_) ⟨hr.fits,
      by simp, by simp, by simp⟩ h.data ?_
    · simp [Row.file, fileOf]
    · intro hf hold
      have hrow := hold _ hmem
      exact ⟨hf, hold, hrow⟩
  | encode =>
    obtain ⟨rfl, rfl⟩ := Prod.mk.inj (Option.some.inj hnext)
    have hfits : completed ≤ part.size := hr.fits
    by_cases hover : completed = part.size
    · have hstart : Chunk.start { part with completed } = Row.chunk ⟨part, completed, .ended, some completed⟩ := by
        simp [Chunk.start, Row.chunk, hover]
      show Downloading blob _ (_ ++ Chunk.start { part with completed } :: _)
      rw [hstart]
      refine h.downloading _ f rfl ((hset _).trans ?_) ⟨hfits, by simp, by simp, fun _ => hover⟩ h.data ?_
      · simp [Row.file, Row.chunk, fileOf]
      · intro hf hold
        have hrow := hold _ hmem
        exact ⟨hf, hold, hrow⟩
    · have hstart : Chunk.start { part with completed } = Row.chunk ⟨part, completed, .copy 0, some completed⟩ := by
        simp [Chunk.start, Row.chunk, hover]
      show Downloading blob _ (_ ++ Chunk.start { part with completed } :: _)
      rw [hstart]
      refine h.downloading _ f rfl ((hset _).trans ?_) ⟨hfits, by simp, by simp, by simp⟩ h.data ?_
      · simp [Row.file, Row.chunk, fileOf]
      · intro hf hold
        have hrow := hold _ hmem
        exact ⟨hf, hold, hrow⟩
  | ended => simp [Pull.nextChunk, Row.chunk] at hnext

/-- A goroutine writes bytes of the blob. -/
theorem inv_copy {blob : Bytes} {disk disk' : PullDisk} {l₁ l₂ : List Row} {r : Row} {f : Bytes} {j : Nat} {c' : Chunk}
    (h : Split blob disk l₁ r l₂ f) (hnext : Pull.copy blob disk r.chunk j = some (disk', c')) :
    Downloading blob disk' (l₁.map Row.chunk ++ c' :: l₂.map Row.chunk) := by
  have hmem : r ∈ l₁ ++ r :: l₂ := by simp
  have hr := h.ok r hmem
  have hpart : r.part ∈ partsOf blob.length := h.sub.subset (by simp)
  obtain ⟨part, completed, phase, saved⟩ := r
  cases phase with
  | copy k =>
    change (if 0 < j ∧ completed + k + j ≤ part.size then
      some ({ disk with data := disk.data.map (fun f => Blob.writeAt f (part.offset + completed + k)
          ((blob.drop (part.offset + completed + k)).take j)) }, (⟨{ part with completed }, .copy (k + j)⟩ : Chunk))
      else none) = some (disk', c') at hnext
    by_cases hj : 0 < j ∧ completed + k + j ≤ part.size
    · rw [if_pos hj] at hnext
      obtain ⟨rfl, rfl⟩ := Prod.mk.inj (Option.some.inj hnext)
      have hbound := (contig_partsOf blob.length).bounds hpart
      dsimp only at hbound
      refine h.downloading ⟨part, completed, .copy (k + j), saved⟩
        (Blob.writeAt f (part.offset + completed + k) ((blob.drop (part.offset + completed + k)).take j)) rfl
        (by simpa [Row.file] using h.files) ?_ (by simp only [h.data, Option.map_some]) ?_
      · exact ⟨by show completed + (k + j) ≤ part.size; omega, hr.saved, fun _ => hr.whole (by simp), by simp⟩
      · intro hf hold
        have hrow : DataOk blob (some f) part (completed + k) := hold _ hmem
        have hpiece : ((blob.drop (part.offset + completed + k)).take j).length = j := by
          simp
          omega
        refine ⟨by rw [length_writeAt (by omega)]; exact hf, ?_, ?_⟩
        · intro q hq
          exact (hold q hq).write hf (by omega)
        · have hextend := hrow.extend (j := j) hf (by omega)
          rw [show part.offset + (completed + k) = part.offset + completed + k by omega,
            show completed + k + j = completed + (k + j) by omega] at hextend
          exact hextend
    · rw [if_neg hj] at hnext
      simp at hnext
  | openFile => simp [Pull.copy, Row.chunk] at hnext
  | encode => simp [Pull.copy, Row.chunk] at hnext
  | ended => simp [Pull.copy, Row.chunk] at hnext

/-- The copy of a part ends early. -/
theorem inv_cut {blob : Bytes} {disk : PullDisk} {l₁ l₂ : List Row} {r : Row} {f : Bytes} {kept : Bool} {c' : Chunk}
    (h : Split blob disk l₁ r l₂ f) (hnext : Pull.cut r.chunk kept = some c') :
    Downloading blob disk (l₁.map Row.chunk ++ c' :: l₂.map Row.chunk) := by
  have hmem : r ∈ l₁ ++ r :: l₂ := by simp
  have hr := h.ok r hmem
  obtain ⟨part, completed, phase, saved⟩ := r
  cases phase with
  | copy k =>
    have hfits : completed + k ≤ part.size := hr.fits
    change (if completed + k < part.size then some
      (if kept then (⟨{ part with completed := completed + k }, .openFile⟩ : Chunk)
      else ⟨{ part with completed }, .copy 0⟩) else none) = some c' at hnext
    by_cases hlt : completed + k < part.size
    · rw [if_pos hlt] at hnext
      cases kept with
      | true =>
        obtain rfl : Row.chunk ⟨part, completed + k, .openFile, saved⟩ = c' := by simpa [Row.chunk] using hnext
        refine h.downloading _ f rfl (by simpa [Row.file] using h.files) ?_ h.data ?_
        · refine ⟨hr.fits, ?_, fun _ => hr.whole (by simp), by simp⟩
          intro c hc
          have hle : c ≤ completed := hr.saved c hc
          show c ≤ completed + k
          omega
        · intro hf hold
          have hrow := hold _ hmem
          exact ⟨hf, hold, hrow⟩
      | false =>
        obtain rfl : Row.chunk ⟨part, completed, .copy 0, saved⟩ = c' := by simpa [Row.chunk] using hnext
        refine h.downloading _ f rfl (by simpa [Row.file] using h.files) ?_ h.data ?_
        · exact ⟨by show completed + 0 ≤ part.size; omega, hr.saved, fun _ => hr.whole (by simp), by simp⟩
        · intro hf hold
          have hrow : DataOk blob (some f) part (completed + k) := hold _ hmem
          exact ⟨hf, hold, hrow.mono (by show completed + 0 ≤ completed + k; omega)⟩
    · rw [if_neg hlt] at hnext
      simp at hnext
  | openFile => simp [Pull.cut, Row.chunk] at hnext
  | encode => simp [Pull.cut, Row.chunk] at hnext
  | ended => simp [Pull.cut, Row.chunk] at hnext

/-! ### The end of an attempt -/

/-- There are at most as many files as parts. -/
theorem Sound.length_le {blob : Bytes} {disk : PullDisk} (h : Sound blob disk) :
    disk.files.length ≤ (partsOf blob.length).length := by
  obtain ⟨es, hsub, hfiles, _⟩ := h
  rw [hfiles]
  simpa using hsub.length_le

/-- All goroutines are over. With the files of all parts, the data is the blob. -/
theorem Downloading.ended {blob : Bytes} {disk : PullDisk} {chunks : List Chunk} (h : Downloading blob disk chunks)
    (hover : ∀ c ∈ chunks, c.phase = .ended) (hall : chunks.length = (partsOf blob.length).length) :
    Removing blob disk 0 chunks.length := by
  obtain ⟨rows, hsub, rfl, hfiles, hok, f, hdata, hcomplete⟩ := h
  rw [List.length_map] at hall
  have hplan : rows.map Row.part = partsOf blob.length := hsub.eq_of_length (by simpa using hall)
  obtain ⟨hlen, hrows⟩ := hcomplete hall
  have hwritten : ∀ r ∈ rows, r.written = r.part.size := by
    intro r hr
    have hphase : r.phase = .ended := hover r.chunk (List.mem_map_of_mem hr)
    rw [Row.written, hphase]
    exact (hok r hr).ended hphase
  have hblob : f = blob := by
    refine eq_blob hlen ?_
    intro p hp
    rw [← hplan] at hp
    obtain ⟨r, hr, rfl⟩ := List.mem_map.1 hp
    exact hwritten r hr ▸ hrows r hr
  refine ⟨by simpa using hall, Nat.zero_le _, hblob ▸ hdata, rows.map (fun r => (r.part, r.saved)), ?_, ?_, ?_⟩
  · rw [List.map_map, List.drop_zero]
    exact hplan
  · rw [hfiles, List.map_map]
    rfl
  · intro e he c hc
    obtain ⟨r, hr, rfl⟩ := List.mem_map.1 he
    have hsaved : c ≤ r.completed := (hok r hr).saved c hc
    have hsize : r.completed = r.part.size := (hok r hr).ended (hover r.chunk (List.mem_map_of_mem hr))
    show c ≤ r.part.size
    omega

/-- Of the files of all parts the next is removed. -/
theorem Removing.next {blob : Bytes} {disk : PullDisk} {i n : Nat} (h : Removing blob disk i n) (hi : i < n) :
    i ∈ disk.files.map Prod.fst ∧ Removing blob { disk with
      files := disk.files.filter (fun f => f.1 ≠ i) } (i + 1) n := by
  obtain ⟨hn, _, hdata, es, hparts, hfiles, hok⟩ := h
  have hlt : i < (partsOf blob.length).length := by omega
  rw [List.drop_eq_getElem_cons hlt] at hparts
  obtain ⟨e, es', rfl, he, hes'⟩ := List.map_eq_cons_iff.1 hparts
  have hnum : e.1.n = i := by
    have hcontig := contig_partsOf blob.length
    rw [← List.take_append_drop i (partsOf blob.length), List.drop_eq_getElem_cons hlt, ← he] at hcontig
    obtain ⟨hnum, _⟩ := hcontig.append.2
    rw [hnum, List.length_take]
    omega
  have hsub : ((e :: es').map Prod.fst).Sublist (partsOf blob.length) := by
    rw [List.map_cons, he, hes', ← List.drop_eq_getElem_cons hlt]
    exact List.drop_sublist i _
  have hnot : i ∉ (es'.map (fun e => fileOf e.1 e.2)).map Prod.fst := by
    have hsplit := (notMem_of_split (a := []) hsub).2
    rw [List.map_map] at hsplit ⊢
    rw [← hnum]
    exact hsplit
  rw [List.map_cons, fileOf, hnum] at hfiles
  refine ⟨by rw [hfiles]; simp, hn, by omega, hdata, es', hes', ?_, fun e' he' => hok e' (List.mem_cons_of_mem _ he')⟩
  show disk.files.filter (fun f => f.1 ≠ i) = _
  rw [hfiles]
  exact filter_first _ hnot

/-- Where not all files are there, one more is removed. -/
theorem Lacking.filter {blob : Bytes} {disk : PullDisk} (h : Lacking blob disk) (i : Nat) :
    Lacking blob { disk with files := disk.files.filter (fun f => f.1 ≠ i) } := by
  obtain ⟨⟨es, hsub, hfiles, hok⟩, hlen⟩ := h
  have hfewer : (disk.files.filter (fun f => f.1 ≠ i)).length < (partsOf blob.length).length :=
    Nat.lt_of_le_of_lt (List.length_filter_le _ _) hlen
  have hfilter : disk.files.filter (fun f => f.1 ≠ i) =
    (es.filter (fun e => e.1.n ≠ i)).map (fun e => fileOf e.1 e.2) := by
    rw [hfiles, List.filter_map]
    rfl
  refine ⟨⟨es.filter (fun e => e.1.n ≠ i), (List.filter_sublist.map Prod.fst).trans hsub, hfilter, ?_⟩, hfewer⟩
  intro e he c hc
  refine ⟨(hok e (List.mem_of_mem_filter he) c hc).1, ?_⟩
  intro hall
  rw [hfilter, List.length_map] at hfewer
  omega

/-- Where not all files are there, nothing is said of the data. -/
theorem Lacking.of_files {blob : Bytes} {disk disk' : PullDisk} (h : Lacking blob disk)
    (hfiles : disk'.files = disk.files) :
    Lacking blob disk' := by
  obtain ⟨⟨es, hsub, hes, hok⟩, hlen⟩ := h
  refine ⟨⟨es, hsub, hfiles.trans hes, ?_⟩, hfiles ▸ hlen⟩
  intro e he c hc
  refine ⟨(hok e he c hc).1, ?_⟩
  intro hall
  rw [hes, List.length_map] at hlen
  omega

/-- A step of an attempt. -/
theorem inv_next {blob : Bytes} {s s' : Pull} (h : Inv blob s) (hnext : Pull.next blob s.disk s.attempt = some s') :
    Inv blob s' := by
  have hsound := h.sound
  obtain ⟨disk, attempt⟩ := s
  cases attempt with
  | idle => simp [Pull.next] at hnext
  | done => simp [Pull.next] at hnext
  | failed => simp [Pull.next] at hnext
  | head =>
    obtain rfl := Option.some.inj hnext
    exact ⟨rfl, h⟩
  | create todo made =>
    cases todo with
    | nil =>
      obtain rfl := Option.some.inj hnext
      exact inv_created h
    | cons part todo =>
      obtain rfl := Option.some.inj hnext
      exact inv_create h
  | encode part todo made =>
    obtain rfl := Option.some.inj hnext
    exact inv_encode h
  | openFile parts =>
    obtain rfl := Option.some.inj hnext
    obtain ⟨es, hsub, hparts, hfiles, hok⟩ := h
    exact ⟨⟨es, hsub, hparts, hfiles, hok⟩, by simp⟩
  | truncate parts =>
    obtain rfl := Option.some.inj hnext
    exact inv_truncate h.1 h.2
  | download chunks =>
    simp only [Pull.next] at hnext
    split at hnext
    · rename_i hover
      obtain rfl := Option.some.inj hnext
      have hdown : Downloading blob disk chunks := h
      have hlen : disk.files.length = chunks.length := by
        obtain ⟨rows, _, rfl, hfiles, _⟩ := hdown
        simp [hfiles]
      by_cases hall : chunks.length = (partsOf blob.length).length
      · exact .inl (hdown.ended hover hall)
      · have hle : disk.files.length ≤ (partsOf blob.length).length := hsound.length_le
        exact .inr ⟨hsound, by show disk.files.length < _; omega⟩
    · simp at hnext
  | remove i n =>
    simp only [Pull.next] at hnext
    split at hnext
    · rename_i hi
      split at hnext
      · obtain rfl := Option.some.inj hnext
        rcases h with h | h
        · exact .inl (h.next hi).2
        · exact .inr (h.filter i)
      · obtain rfl := Option.some.inj hnext
        exact hsound
    · rename_i hi
      obtain rfl := Option.some.inj hnext
      rcases h with ⟨hn, hle, hdata, es, hparts, hfiles, _⟩ | h
      · refine .inl ⟨hdata, ?_⟩
        obtain rfl : es = [] := by
          rw [List.drop_eq_nil_of_le (by omega)] at hparts
          simpa using hparts
        exact hfiles
      · exact .inr h
  | rename =>
    simp only [Pull.next] at hnext
    split at hnext
    · obtain rfl := Option.some.inj hnext
      exact hsound
    · rename_i f _
      obtain rfl := Option.some.inj hnext
      rcases h with h | h
      · exact sound_nil h.2
      · have hlacking : Lacking blob { disk with data := none, blob := some f } := Lacking.of_files h rfl
        exact hlacking.1

/-- Something that a goroutine does. -/
theorem inv_onChunk {blob : Bytes} {s s' : Pull} {i : Nat} {g : Chunk → Option (PullDisk × Chunk)} (h : Inv blob s)
    (hg : ∀ l₁ r l₂ f disk' c', Split blob s.disk l₁ r l₂ f → g r.chunk = some (disk', c') →
      Downloading blob disk' (l₁.map Row.chunk ++ c' :: l₂.map Row.chunk))
    (hact : s.onChunk i g = some s') : Inv blob s' := by
  obtain ⟨disk, attempt⟩ := s
  cases attempt with
  | download chunks =>
    obtain ⟨c, hc, hout⟩ := Option.bind_eq_some_iff.1 hact
    obtain ⟨⟨disk', c'⟩, hstep, rfl⟩ := Option.map_eq_some_iff.1 hout
    obtain ⟨l₁, r, l₂, f, hsplit, rfl, hset⟩ := Downloading.split h hc
    show Downloading blob disk' (chunks.set i c')
    rw [hset]
    exact hg l₁ r l₂ f disk' c' hsplit hstep
  | _ => simp [Pull.onChunk] at hact

/-- An act keeps the invariant. -/
theorem Inv.act {blob : Bytes} {s s' : Pull} {a : PullAct} (h : Inv blob s) (hact : s.act blob a = some s') :
    Inv blob s' := by
  cases a with
  | start =>
    simp only [Pull.act] at hact
    split at hact
    · obtain rfl := Option.some.inj hact
      exact inv_prepare h.sound
    · simp at hact
  | step => exact inv_next h hact
  | copy i j => exact inv_onChunk h (fun _ _ _ _ _ _ hsplit hstep => inv_copy hsplit hstep) hact
  | chunk i => exact inv_onChunk h (fun _ _ _ _ _ _ hsplit hstep => inv_nextChunk hsplit hstep) hact
  | resume i =>
    refine inv_onChunk h ?_ hact
    intro l₁ r l₂ f disk' c' hsplit hstep
    obtain ⟨c, hcut, heq⟩ := Option.map_eq_some_iff.1 hstep
    obtain ⟨rfl, rfl⟩ := Prod.mk.inj heq
    exact inv_cut hsplit hcut
  | rollback i =>
    refine inv_onChunk h ?_ hact
    intro l₁ r l₂ f disk' c' hsplit hstep
    obtain ⟨c, hcut, heq⟩ := Option.map_eq_some_iff.1 hstep
    obtain ⟨rfl, rfl⟩ := Prod.mk.inj heq
    exact inv_cut hsplit hcut
  | stop =>
    obtain rfl := Option.some.inj hact
    exact h.sound

/-- The invariant holds in every state of a run. -/
theorem inv_of_reachable {blob : Bytes} {s : Pull} (h : (pulls blob).system.Reachable s) : Inv blob s := by
  refine h.invariant ?_ ?_
  · rintro s rfl
    exact sound_nil rfl
  · rintro s s' hinv ⟨a, _, hact⟩
    exact hinv.act hact

end ResumeAux

end Ollama.Server
