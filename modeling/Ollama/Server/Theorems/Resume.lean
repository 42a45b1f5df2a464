import Ollama.Server.Lemmas.Resume

/-!
# When a download can be taken up again

A further attempt succeeds, and leaves the blob, exactly if the files of the parts that it finds are none, or those of
all parts and none of them cut short (`resume_iff`). Otherwise it fails to read one, or removes one that is not there,
or takes the size of the blob from too few: what an attempt leaves behind that was stopped while it made, wrote or
removed these files.
-/

namespace Ollama.Server

open Lib

/-- An attempt without a failure. -/
def cleanPulls (blob : Bytes) : System Pull := (pulls blob).guarded (fun _ a => a.clean = true)

/-- `Prepare` and `run` have returned nil, and the blob is there. -/
def Pull.Succeeded (blob : Bytes) (s : Pull) : Prop := s.attempt = .done ∧ s.disk.blob = some blob

/-- There is no file of a part, or that of every part, and none is cut short. -/
def PullDisk.Resumable (blob : Bytes) (disk : PullDisk) : Prop :=
  disk.files = [] ∨ (disk.files.length = (partsOf blob.length).length ∧ ∀ f ∈ disk.files, f.2 ≠ none)

namespace ResumeAux

/-! ## An attempt that succeeds -/

/-- The attempt knows of all parts. -/
def Fine (blob : Bytes) (s : Pull) : Prop :=
  match s.attempt with
  | .idle => s.disk.Resumable blob
  | .head | .create _ _ | .encode _ _ _ => True
  | .openFile parts | .truncate parts => parts.length = (partsOf blob.length).length
  | .download chunks => chunks.length = (partsOf blob.length).length
  | .remove i n => Removing blob s.disk i n
  | .rename => s.disk.data = some blob
  | .done => s.disk.blob = some blob
  | .failed => False

/-- The steps that the goroutine of a part can still take. -/
def work (c : Chunk) : Nat :=
  match c.phase with
  | .copy k => c.part.size - (c.part.completed + k) + 3
  | .openFile => 4 * (c.part.size - c.part.completed) + 2
  | .encode => 4 * (c.part.size - c.part.completed) + 1
  | .ended => 0

/-- The steps that an attempt can still take. -/
def left (blob : Bytes) : Attempt → Nat
  | .idle | .done | .failed => 0
  | .rename => 1
  | .remove i n => n - i + 2
  | .download chunks => (chunks.map work).sum + chunks.length + 3
  | .truncate parts => ((parts.map Chunk.start).map work).sum + parts.length + 4
  | .openFile parts => ((parts.map Chunk.start).map work).sum + parts.length + 5
  | .create todo made => 2 * todo.length + (((made ++ todo).map Chunk.start).map work).sum + (made ++ todo).length + 6
  | .encode part todo made =>
    2 * todo.length + 1 + (((made ++ part :: todo).map Chunk.start).map work).sum + (made ++ part :: todo).length + 6
  | .head => 2 * (partsOf blob.length).length + (((partsOf blob.length).map Chunk.start).map work).sum +
      (partsOf blob.length).length + 7

/-- The steps that can still be taken without a failure. -/
def measure (blob : Bytes) (s : Pull) : Nat :=
  if s.attempt = .idle then left blob (Pull.prepare s.disk) + 1 else left blob s.attempt

/-- Files that cannot be decoded are those that are not read. -/
theorem readParts_eq_none {files : List (Nat × Option Part)} : readParts files = none ↔ ∃ f ∈ files, f.2 = none := by
  induction files with
  | nil => simp [readParts]
  | cons f files ih =>
    obtain ⟨n, content⟩ := f
    cases content with
    | none => simp [readParts]
    | some part => simp [readParts, ih]

theorem length_readParts {files : List (Nat × Option Part)} {parts : List Part} (h : readParts files = some parts) :
    parts.length = files.length := by
  induction files generalizing parts with
  | nil =>
    obtain rfl : [] = parts := by simpa [readParts] using h
    rfl
  | cons f files ih =>
    obtain ⟨n, content⟩ := f
    cases content with
    | none => simp [readParts] at h
    | some part =>
      obtain ⟨parts', hparts', rfl⟩ := Option.map_eq_some_iff.1 h
      simp [ih hparts']

/-- `Prepare` finds all parts, or none. -/
theorem fine_prepare {blob : Bytes} {disk : PullDisk} (h : disk.Resumable blob) :
    Fine blob ⟨disk, Pull.prepare disk⟩ ∧ Pull.prepare disk ≠ .idle := by
  unfold Pull.prepare
  split
  · rename_i hread
    obtain ⟨f, hf, hnone⟩ := readParts_eq_none.1 hread
    rcases h with h | h
    · simp [h] at hf
    · exact absurd hnone (h.2 f hf)
  · exact ⟨trivial, by simp⟩
  · rename_i parts hne hread
    have hlen := length_readParts hread
    refine ⟨?_, by simp⟩
    rcases h with h | h
    · rw [h] at hlen
      exact absurd (List.eq_nil_of_length_eq_zero hlen) (by simpa using hne)
    · show parts.length = _
      omega

/-- A step of an attempt that knows of all parts. -/
theorem fine_next {blob : Bytes} {s s' : Pull} (hinv : Inv blob s) (h : Fine blob s)
    (hnext : Pull.next blob s.disk s.attempt = some s') :
    Fine blob s' ∧ s'.attempt ≠ .idle ∧ left blob s'.attempt < left blob s.attempt := by
  obtain ⟨disk, attempt⟩ := s
  cases attempt with
  | idle => simp [Pull.next] at hnext
  | done => simp [Pull.next] at hnext
  | failed => simp [Pull.next] at hnext
  | head =>
    obtain rfl := Option.some.inj hnext
    refine ⟨trivial, by simp, ?_⟩
    simp [left]
  | create todo made =>
    cases todo with
    | nil =>
      obtain rfl := Option.some.inj hnext
      obtain ⟨hplan, _⟩ := hinv
      refine ⟨?_, by simp, by simp [left]⟩
      show made.length = _
      rw [← hplan]
      simp
    | cons part todo =>
      obtain rfl := Option.some.inj hnext
      refine ⟨trivial, by simp, ?_⟩
      simp [left]
      omega
  | encode part todo made =>
    obtain rfl := Option.some.inj hnext
    refine ⟨trivial, by simp, ?_⟩
    simp [left]
  | openFile parts =>
    obtain rfl := Option.some.inj hnext
    exact ⟨h, by simp, by simp [left]⟩
  | truncate parts =>
    obtain rfl := Option.some.inj hnext
    refine ⟨?_, by simp, by simp [left]⟩
    show (parts.map Chunk.start).length = _
    rw [List.length_map]
    exact h
  | download chunks =>
    simp only [Pull.next] at hnext
    split at hnext
    · rename_i hover
      obtain rfl := Option.some.inj hnext
      refine ⟨Downloading.ended hinv hover h, by simp, ?_⟩
      show chunks.length - 0 + 2 < (chunks.map work).sum + chunks.length + 3
      omega
    · simp at hnext
  | remove i n =>
    have hremoving : Removing blob disk i n := h
    simp only [Pull.next] at hnext
    split at hnext
    · rename_i hi
      obtain ⟨hmem, hafter⟩ := hremoving.next hi
      rw [if_pos hmem] at hnext
      obtain rfl := Option.some.inj hnext
      refine ⟨hafter, by simp, ?_⟩
      show n - (i + 1) + 2 < n - i + 2
      omega
    · obtain rfl := Option.some.inj hnext
      refine ⟨hremoving.2.2.1, by simp, ?_⟩
      show 1 < n - i + 2
      omega
  | rename =>
    have hdata : disk.data = some blob := h
    simp only [Pull.next, hdata] at hnext
    obtain rfl := Option.some.inj hnext
    exact ⟨rfl, by simp, by simp [left]⟩

/-- Something that a goroutine does with less work left. -/
theorem fine_onChunk {blob : Bytes} {s s' : Pull} {i : Nat} {g : Chunk → Option (PullDisk × Chunk)} (hinv : Inv blob s)
    (h : Fine blob s) (hg : ∀ c disk' c', c.part.completed ≤ c.part.size → g c = some (disk', c') → work c' < work c)
    (hact : s.onChunk i g = some s') :
    Fine blob s' ∧ s'.attempt ≠ .idle ∧ left blob s'.attempt < left blob s.attempt := by
  obtain ⟨disk, attempt⟩ := s
  cases attempt with
  | download chunks =>
    obtain ⟨c, hc, hout⟩ := Option.bind_eq_some_iff.1 hact
    obtain ⟨⟨disk', c'⟩, hstep, rfl⟩ := Option.map_eq_some_iff.1 hout
    have hfits : c.part.completed ≤ c.part.size := by
      obtain ⟨rows, _, rfl, _, hok, _⟩ := hinv
      obtain ⟨r, hr, rfl⟩ := List.mem_map.1 (List.mem_of_getElem? hc)
      exact (completed_le_written r).trans (hok r hr).fits
    have hless := hg c disk' c' hfits hstep
    obtain ⟨a, b, rfl, hset⟩ := exists_split hc
    have hlen : (a ++ c :: b).length = (partsOf blob.length).length := h
    refine ⟨?_, by simp, ?_⟩
    · show ((a ++ c :: b).set i c').length = _
      rw [List.length_set]
      exact hlen
    · show (((a ++ c :: b).set i c').map work).sum + ((a ++ c :: b).set i c').length + 3 <
        ((a ++ c :: b).map work).sum + (a ++ c :: b).length + 3
      rw [hset]
      simp
      omega
  | _ => simp [Pull.onChunk] at hact

theorem work_copy {blob : Bytes} {disk disk' : PullDisk} {c c' : Chunk} {j : Nat}
    (h : Pull.copy blob disk c j = some (disk', c')) :
    work c' < work c := by
  obtain ⟨part, phase⟩ := c
  cases phase with
  | copy k =>
    simp only [Pull.copy] at h
    split at h
    · rename_i hj
      obtain ⟨_, rfl⟩ := Prod.mk.inj (Option.some.inj h)
      show part.size - (part.completed + (k + j)) + 3 < part.size - (part.completed + k) + 3
      omega
    · simp at h
  | _ => simp [Pull.copy] at h

theorem work_nextChunk {disk disk' : PullDisk} {c c' : Chunk} (hfits : c.part.completed ≤ c.part.size)
    (h : Pull.nextChunk disk c = some (disk', c')) : work c' < work c := by
  obtain ⟨part, phase⟩ := c
  cases phase with
  | copy k =>
    simp only [Pull.nextChunk] at h
    split at h
    · rename_i hall
      obtain ⟨_, rfl⟩ := Prod.mk.inj (Option.some.inj h)
      show 4 * (part.size - (part.completed + k)) + 2 < part.size - (part.completed + k) + 3
      omega
    · simp at h
  | openFile =>
    obtain ⟨_, rfl⟩ := Prod.mk.inj (Option.some.inj h)
    show 4 * (part.size - part.completed) + 1 < 4 * (part.size - part.completed) + 2
    omega
  | encode =>
    obtain ⟨_, rfl⟩ := Prod.mk.inj (Option.some.inj h)
    have hle : part.completed ≤ part.size := hfits
    by_cases hover : part.completed = part.size
    · simp [Chunk.start, work, hover]
    · simp only [Chunk.start, work, if_neg hover]
      omega
  | ended => simp [Pull.nextChunk] at h

/-- A goroutine that is not over can go on. -/
theorem chunk_progress (blob : Bytes) (disk : PullDisk) {r : Row} (hok : r.Ok) (hphase : r.phase ≠ .ended) :
    (∃ out, Pull.nextChunk disk r.chunk = some out) ∨ ∃ out, Pull.copy blob disk r.chunk 1 = some out := by
  have hfits := hok.fits
  obtain ⟨part, completed, phase, saved⟩ := r
  cases phase with
  | copy k =>
    have hle : completed + k ≤ part.size := hfits
    by_cases hall : completed + k = part.size
    · exact .inl ⟨_, if_pos hall⟩
    · exact .inr ⟨_, if_pos (show 0 < 1 ∧ completed + k + 1 ≤ part.size by omega)⟩
  | openFile => exact .inl ⟨_, rfl⟩
  | encode => exact .inl ⟨_, rfl⟩
  | ended => exact absurd rfl hphase

/-- An attempt that knows of all parts can go on until it is done. -/
theorem fine_progress {blob : Bytes} {s : Pull} (hinv : Inv blob s) (h : Fine blob s) (hnot : ¬s.Succeeded blob) :
    ∃ s', (cleanPulls blob).step s s' := by
  obtain ⟨disk, attempt⟩ := s
  cases attempt with
  | idle => exact ⟨_, .start, rfl, rfl⟩
  | done => exact absurd ⟨rfl, h⟩ hnot
  | failed => exact absurd h id
  | head => exact ⟨_, .step, rfl, rfl⟩
  | create todo made =>
    cases todo with
    | nil => exact ⟨_, .step, rfl, rfl⟩
    | cons part todo => exact ⟨_, .step, rfl, rfl⟩
  | encode part todo made => exact ⟨_, .step, rfl, rfl⟩
  | openFile parts => exact ⟨_, .step, rfl, rfl⟩
  | truncate parts => exact ⟨_, .step, rfl, rfl⟩
  | download chunks =>
    by_cases hover : ∀ c ∈ chunks, c.phase = .ended
    · exact ⟨⟨disk, .remove 0 chunks.length⟩, .step, rfl, if_pos hover⟩
    · obtain ⟨rows, _, rfl, _, hok, _⟩ := hinv
      simp only [not_forall] at hover
      obtain ⟨c, hc, hphase⟩ := hover
      obtain ⟨i, hi⟩ := List.mem_iff_getElem?.1 hc
      obtain ⟨r, hr, rfl⟩ := List.mem_map.1 hc
      rcases chunk_progress blob disk (hok r hr) hphase with ⟨out, hout⟩ | ⟨out, hout⟩
      · refine ⟨⟨out.1, .download ((rows.map Row.chunk).set i out.2)⟩, .chunk i, rfl, ?_⟩
        simp only [pulls, Pull.act, Pull.onChunk, hi, hout, Option.bind_some, Option.map_some]
      · refine ⟨⟨out.1, .download ((rows.map Row.chunk).set i out.2)⟩, .copy i 1, rfl, ?_⟩
        simp only [pulls, Pull.act, Pull.onChunk, hi, hout, Option.bind_some, Option.map_some]
  | remove i n =>
    by_cases hi : i < n
    · have hmem := (Removing.next h hi).1
      refine ⟨⟨{ disk with files := disk.files.filter (fun f => f.1 ≠ i) }, .remove (i + 1) n⟩, .step, rfl, ?_⟩
      show (if i < n then _ else _) = _
      rw [if_pos hi, if_pos hmem]
    · exact ⟨⟨disk, .rename⟩, .step, rfl, if_neg hi⟩
  | rename =>
    have hdata : disk.data = some blob := h
    exact ⟨⟨{ disk with data := none, blob := some blob }, .done⟩, .step, rfl,
      by simp [pulls, Pull.act, Pull.next, hdata]⟩

/-- From a disk with the files of all parts, or none, an attempt succeeds. -/
theorem inevitable_of_resumable {blob : Bytes} {disk : PullDisk} (hsound : Sound blob disk) (h : disk.Resumable blob) :
    (cleanPulls blob).Inevitable (Pull.Succeeded blob) ⟨disk, .idle⟩ := by
  have hmeasure : ∀ s : Pull, s.attempt ≠ .idle → measure blob s = left blob s.attempt := fun s hs => if_neg hs
  refine System.Inevitable.of_measure (I := fun s => Inv blob s ∧ Fine blob s) (measure blob) ?_ ⟨hsound, h⟩
  rintro s ⟨hinv, hfine⟩
  by_cases hdone : s.Succeeded blob
  · exact .inl hdone
  · refine .inr ⟨fine_progress hinv hfine hdone, ?_⟩
    rintro s' ⟨a, hclean, hact⟩
    have hinv' : Inv blob s' := hinv.act hact
    have hsmaller : s'.attempt ≠ .idle → left blob s'.attempt < left blob s.attempt →
      measure blob s' < measure blob s := by
      intro hne hless
      have hold : s.attempt ≠ .idle := by
        intro hidle
        rw [hidle] at hless
        simp [left] at hless
      rw [hmeasure s' hne, hmeasure s hold]
      exact hless
    cases a with
    | start =>
      change (if s.attempt = .idle then some (⟨s.disk, Pull.prepare s.disk⟩ : Pull) else none) = some s' at hact
      split at hact
      · rename_i hidle
        obtain rfl := Option.some.inj hact
        obtain ⟨disk, attempt⟩ := s
        obtain rfl : attempt = .idle := hidle
        obtain ⟨hfine', hne⟩ := fine_prepare hfine
        refine ⟨⟨hinv', hfine'⟩, ?_⟩
        rw [hmeasure _ hne]
        exact Nat.lt_succ_self _
      · simp at hact
    | step =>
      obtain ⟨hfine', hne, hless⟩ := fine_next hinv hfine hact
      exact ⟨⟨hinv', hfine'⟩, hsmaller hne hless⟩
    | copy i j =>
      obtain ⟨hfine', hne, hless⟩ := fine_onChunk hinv hfine (fun _ _ _ _ hstep => work_copy hstep) hact
      exact ⟨⟨hinv', hfine'⟩, hsmaller hne hless⟩
    | chunk i =>
      obtain ⟨hfine', hne, hless⟩ := fine_onChunk hinv hfine (fun _ _ _ hfits hstep => work_nextChunk hfits hstep) hact
      exact ⟨⟨hinv', hfine'⟩, hsmaller hne hless⟩
    | resume i => simp [PullAct.clean] at hclean
    | rollback i => simp [PullAct.clean] at hclean
    | stop => simp [PullAct.clean] at hclean

/-! ## An attempt that does not -/

/-- Parts that are not all: they are the first, or one of the numbers that they would then have is missing. -/
theorem sublist_cases {ps qs : List Part} {offset n stop : Nat} (h : Contig offset n ps stop) (hsub : qs.Sublist ps) :
    qs = ps.take qs.length ∨ ∃ j, n ≤ j ∧ j < n + qs.length ∧ j ∉ qs.map Part.n := by
  induction ps generalizing qs offset n with
  | nil =>
    obtain rfl := List.sublist_nil.1 hsub
    exact .inl rfl
  | cons p ps ih =>
    obtain ⟨hn, _, _, _, hrest⟩ := h
    cases qs with
    | nil => exact .inl rfl
    | cons q qs =>
      cases hsub with
      | cons _ hsub =>
        -- the first part is not there, and all others have greater numbers
        refine .inr ⟨n, le_rfl, by simp, ?_⟩
        intro hmem
        obtain ⟨q', hq', heq⟩ := List.mem_map.1 hmem
        obtain ⟨_, _, hge, _⟩ := hrest.bounds (hsub.subset hq')
        omega
      | cons_cons _ hsub =>
        rcases ih hrest hsub with hfirst | ⟨j, hlo, hhi, hmem⟩
        · exact .inl (by rw [List.length_cons, List.take_succ_cons, ← hfirst])
        · refine .inr ⟨j, by omega, by simp; omega, ?_⟩
          rw [List.map_cons, List.mem_cons, not_or]
          exact ⟨by omega, hmem⟩

/-- One of the files that are to be removed is neither there nor will be. -/
def Missing (parts : List Part) (files : List (Nat × Option Part)) : Prop :=
  ∃ j < parts.length, j ∉ parts.map Part.n ∧ j ∉ files.map Prod.fst

/-- The data does not have the length of the blob. -/
def Misfit (blob : Bytes) (data : Option Bytes) : Prop := ∃ f, data = some f ∧ f.length ≠ blob.length

/-- The attempt is going to fail, or to leave a file of another length. -/
def Trapped (blob : Bytes) (s : Pull) : Prop :=
  match s.attempt with
  | .idle => Sound blob s.disk ∧ ¬s.disk.Resumable blob
  | .head | .create _ _ | .encode _ _ _ => False
  | .openFile parts => Missing parts s.disk.files ∨
      ((parts.map Part.size).sum ≠ blob.length ∧ ∀ p ∈ parts, p.offset + p.size ≤ (parts.map Part.size).sum)
  | .truncate parts => s.disk.data ≠ none ∧ (Missing parts s.disk.files ∨
      ((parts.map Part.size).sum ≠ blob.length ∧ ∀ p ∈ parts, p.offset + p.size ≤ (parts.map Part.size).sum))
  | .download chunks => Missing (chunks.map Chunk.part) s.disk.files ∨
      ∃ f, s.disk.data = some f ∧ f.length ≠ blob.length ∧ ∀ c ∈ chunks, c.part.offset + c.part.size ≤ f.length
  | .remove i n => (∃ j, i ≤ j ∧ j < n ∧ j ∉ s.disk.files.map Prod.fst) ∨ Misfit blob s.disk.data
  | .rename => Misfit blob s.disk.data
  | .done => s.disk.blob ≠ some blob
  | .failed => True

/-- `Prepare` does not find all parts. -/
theorem trapped_prepare {blob : Bytes} {disk : PullDisk} (hsound : Sound blob disk) (h : ¬disk.Resumable blob) :
    Trapped blob ⟨disk, Pull.prepare disk⟩ := by
  have hne : disk.files ≠ [] := fun heq => h (.inl heq)
  unfold Pull.prepare
  split
  · trivial
  · rename_i hread
    exact absurd (List.eq_nil_of_length_eq_zero (length_readParts hread).symm) hne
  · rename_i parts _ hread
    have hwhole : ∀ f ∈ disk.files, f.2 ≠ none := by
      intro f hf hnone
      rw [readParts_eq_none.2 ⟨f, hf, hnone⟩] at hread
      simp at hread
    have hfewer : disk.files.length ≠ (partsOf blob.length).length := fun heq => h (.inr ⟨heq, hwhole⟩)
    obtain ⟨es, hsub, rfl, hfiles, _⟩ := hsound.loaded hread
    have hsizes : (es.map (fun e => { e.1 with completed := e.2 })).map Part.size =
      (es.map Prod.fst).map Part.size := by
      simp [List.map_map, Function.comp_def]
    have hcontig := contig_partsOf blob.length
    rcases sublist_cases hcontig hsub with hfirst | ⟨j, _, hlt, hmem⟩
    · -- the first parts: their sizes are too little for the blob
      refine .inr ?_
      have hlen : es.length < (partsOf blob.length).length := by
        have hle := hsub.length_le
        rw [hfiles] at hfewer
        simp at hle hfewer
        omega
      rw [List.length_map] at hfirst
      rw [hsizes]
      rw [← List.take_append_drop es.length (partsOf blob.length), ← hfirst] at hcontig
      obtain ⟨hbefore, hafter⟩ := hcontig.append
      rw [Nat.zero_add] at hbefore hafter
      constructor
      · have hmem := (contig_partsOf blob.length).bounds (List.getElem_mem hlen)
        rw [List.drop_eq_getElem_cons hlen] at hafter
        obtain ⟨_, hoffset, _, _, _⟩ := hafter
        omega
      · intro p hp
        obtain ⟨e, he, rfl⟩ := List.mem_map.1 hp
        exact (hbefore.bounds (List.mem_map_of_mem he)).2.1
    · refine .inl ⟨j, by simpa using hlt, ?_, ?_⟩
      · simpa [List.map_map, Function.comp_def] using hmem
      · rw [hfiles]
        simpa [List.map_map, Function.comp_def, fileOf] using hmem

/-- A step of an attempt that does not know of all parts. -/
theorem trapped_next {blob : Bytes} {s s' : Pull} (h : Trapped blob s)
    (hnext : Pull.next blob s.disk s.attempt = some s') :
    Trapped blob s' := by
  obtain ⟨disk, attempt⟩ := s
  cases attempt with
  | idle => simp [Pull.next] at hnext
  | done => simp [Pull.next] at hnext
  | failed => simp [Pull.next] at hnext
  | head => exact absurd h id
  | create todo made => exact absurd h id
  | encode part todo made => exact absurd h id
  | openFile parts =>
    obtain rfl := Option.some.inj hnext
    exact ⟨by simp, h⟩
  | truncate parts =>
    obtain rfl := Option.some.inj hnext
    obtain ⟨hdata, hmissing | ⟨hsum, hranges⟩⟩ := h
    · refine .inl ?_
      rw [List.map_map]
      simpa [Missing, Chunk.start, Function.comp_def] using hmissing
    · obtain ⟨f, hf⟩ := Option.ne_none_iff_exists'.1 hdata
      refine .inr ⟨resize f (parts.map Part.size).sum, ?_, ?_, ?_⟩
      · show disk.data.map _ = _
        rw [show disk.data = some f from hf, Option.map_some]
      · rw [length_resize]
        exact hsum
      · intro c hc
        obtain ⟨p, hp, rfl⟩ := List.mem_map.1 hc
        rw [length_resize]
        exact hranges p hp
  | download chunks =>
    simp only [Pull.next] at hnext
    split at hnext
    · obtain rfl := Option.some.inj hnext
      rcases h with ⟨j, hlt, _, hmem⟩ | ⟨f, hf, hlen, _⟩
      · exact .inl ⟨j, Nat.zero_le j, by simpa using hlt, hmem⟩
      · exact .inr ⟨f, hf, hlen⟩
    · simp at hnext
  | remove i n =>
    simp only [Pull.next] at hnext
    split at hnext
    · split at hnext
      · rename_i hmem
        obtain rfl := Option.some.inj hnext
        rcases h with ⟨j, hlo, hhi, hnot⟩ | hmisfit
        · have hne : j ≠ i := by
            rintro rfl
            exact hnot hmem
          refine .inl ⟨j, by omega, hhi, ?_⟩
          intro hj
          obtain ⟨f, hf, rfl⟩ := List.mem_map.1 hj
          exact hnot (List.mem_map_of_mem (List.mem_of_mem_filter hf))
        · exact .inr hmisfit
      · obtain rfl := Option.some.inj hnext
        trivial
    · rename_i hi
      obtain rfl := Option.some.inj hnext
      rcases h with ⟨j, hlo, hhi, _⟩ | hmisfit
      · omega
      · exact hmisfit
  | rename =>
    obtain ⟨f, hf, hlen⟩ := h
    have hdata : disk.data = some f := hf
    simp only [Pull.next, hdata] at hnext
    obtain rfl := Option.some.inj hnext
    show some f ≠ some blob
    rintro heq
    exact hlen (by rw [Option.some.inj heq])

/-- What a goroutine does without a failure leaves its part where it is, the length of the data as it is where its
part is within, and makes no other file. -/
structure Tame (disk disk' : PullDisk) (c c' : Chunk) : Prop where
  n : c'.part.n = c.part.n
  offset : c'.part.offset = c.part.offset
  size : c'.part.size = c.part.size
  files : ∀ m ∈ disk'.files.map Prod.fst, m = c.part.n ∨ m ∈ disk.files.map Prod.fst
  data : ∀ f, disk.data = some f → c.part.offset + c.part.size ≤ f.length → ∃ f', disk'.data = some f' ∧
    f'.length = f.length

theorem tame_copy {blob : Bytes} {disk disk' : PullDisk} {c c' : Chunk} {j : Nat}
    (h : Pull.copy blob disk c j = some (disk', c')) :
    Tame disk disk' c c' := by
  obtain ⟨part, phase⟩ := c
  cases phase with
  | copy k =>
    simp only [Pull.copy] at h
    split at h
    · rename_i hj
      obtain ⟨rfl, rfl⟩ := Prod.mk.inj (Option.some.inj h)
      refine ⟨rfl, rfl, rfl, fun m hm => .inr hm, ?_⟩
      intro f hf hfits
      have hfits' : part.offset + part.size ≤ f.length := hfits
      refine ⟨_, by show disk.data.map _ = _; rw [hf, Option.map_some], length_writeAt ?_⟩
      simp
      omega
    · simp at h
  | _ => simp [Pull.copy] at h

theorem tame_nextChunk {disk disk' : PullDisk} {c c' : Chunk} (h : Pull.nextChunk disk c = some (disk', c')) :
    Tame disk disk' c c' := by
  obtain ⟨part, phase⟩ := c
  cases phase with
  | copy k =>
    simp only [Pull.nextChunk] at h
    split at h
    · obtain ⟨rfl, rfl⟩ := Prod.mk.inj (Option.some.inj h)
      exact ⟨rfl, rfl, rfl, fun m hm => .inr hm, fun f hf _ => ⟨f, hf, rfl⟩⟩
    · simp at h
  | openFile =>
    obtain ⟨rfl, rfl⟩ := Prod.mk.inj (Option.some.inj h)
    exact ⟨rfl, rfl, rfl, fun m hm => mem_setFile hm, fun f hf _ => ⟨f, hf, rfl⟩⟩
  | encode =>
    obtain ⟨rfl, rfl⟩ := Prod.mk.inj (Option.some.inj h)
    exact ⟨rfl, rfl, rfl, fun m hm => mem_setFile hm, fun f hf _ => ⟨f, hf, rfl⟩⟩
  | ended => simp [Pull.nextChunk] at h

/-- Something that a goroutine does without a failure. -/
theorem trapped_onChunk {blob : Bytes} {s s' : Pull} {i : Nat} {g : Chunk → Option (PullDisk × Chunk)}
    (h : Trapped blob s) (hg : ∀ c disk' c', g c = some (disk', c') → Tame s.disk disk' c c')
    (hact : s.onChunk i g = some s') : Trapped blob s' := by
  obtain ⟨disk, attempt⟩ := s
  cases attempt with
  | download chunks =>
    obtain ⟨c, hc, hout⟩ := Option.bind_eq_some_iff.1 hact
    obtain ⟨⟨disk', c'⟩, hstep, rfl⟩ := Option.map_eq_some_iff.1 hout
    have htame := hg c disk' c' hstep
    have hmem : c ∈ chunks := List.mem_of_getElem? hc
    rcases h with ⟨j, hlt, hparts, hfiles⟩ | ⟨f, hf, hlen, hranges⟩
    · have hnumbers : ((chunks.set i c').map Chunk.part).map Part.n = (chunks.map Chunk.part).map Part.n := by
        obtain ⟨a, b, rfl, hset⟩ := exists_split hc
        simp [hset, htame.n]
      refine .inl ⟨j, by simpa using hlt, hnumbers ▸ hparts, ?_⟩
      intro hj
      rcases htame.files j hj with rfl | hj
      · exact hparts (by simpa using ⟨c, hmem, rfl⟩)
      · exact hfiles hj
    · obtain ⟨f', hf', hlen'⟩ := htame.data f hf (hranges c hmem)
      refine .inr ⟨f', hf', by rw [hlen']; exact hlen, ?_⟩
      intro q hq
      rw [hlen']
      rcases List.mem_or_eq_of_mem_set hq with hq | rfl
      · exact hranges q hq
      · rw [htame.offset, htame.size]
        exact hranges c hmem
  | _ => simp [Pull.onChunk] at hact

/-- From a disk with the files of some parts, or with one that is cut short, an attempt does not succeed. -/
theorem not_inevitable {blob : Bytes} {disk : PullDisk} (hsound : Sound blob disk) (h : ¬disk.Resumable blob) :
    ¬(cleanPulls blob).Inevitable (Pull.Succeeded blob) ⟨disk, .idle⟩ := by
  refine System.Inevitable.not_of_trap (T := Trapped blob) ?_ ?_ ⟨hsound, h⟩
  · rintro s s' htrapped ⟨a, hclean, hact⟩
    cases a with
    | start =>
      change (if s.attempt = .idle then some (⟨s.disk, Pull.prepare s.disk⟩ : Pull) else none) = some s' at hact
      split at hact
      · rename_i hidle
        obtain rfl := Option.some.inj hact
        obtain ⟨disk, attempt⟩ := s
        obtain rfl : attempt = .idle := hidle
        exact trapped_prepare htrapped.1 htrapped.2
      · simp at hact
    | step => exact trapped_next htrapped hact
    | copy i j => exact trapped_onChunk htrapped (fun _ _ _ hstep => tame_copy hstep) hact
    | chunk i => exact trapped_onChunk htrapped (fun _ _ _ hstep => tame_nextChunk hstep) hact
    | resume i => simp [PullAct.clean] at hclean
    | rollback i => simp [PullAct.clean] at hclean
    | stop => simp [PullAct.clean] at hclean
  · rintro ⟨disk, attempt⟩ htrapped ⟨hdone, hblob⟩
    obtain rfl : attempt = .done := hdone
    exact htrapped hblob

end ResumeAux

instance (blob : Bytes) (disk : PullDisk) : Decidable (disk.Resumable blob) := inferInstanceAs (Decidable (_ ∨ (_ ∧ _)))

/-- An attempt that is stopped when one byte of three is there, and that is noted. -/
def stoppedAfterOne : List PullAct :=
  [.start, .step, .step, .step, .step, .step, .step, .copy 0 1, .resume 0, .chunk 0, .chunk 0, .stop]

end Ollama.Server
