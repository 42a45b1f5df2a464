import Ollama.Server.Images
import Mathlib.Data.List.Basic

/-!
# Which downloaded blobs a pull verifies

`PullModel` notes in `skipVerify`, under the digest of each layer, whether its blob was there. A digest that occurs
once more is there the second time, for the first has downloaded it: the note then says that it need not be verified,
and it never is.
-/

namespace Ollama.Server

open Lib Utf8

/-- The blob of a digest is not there, and no layer `before` has the same blob. -/
def Fresh (blobs : List (Bytes × Bytes)) (before : List Bytes) (digest : Bytes) : Prop :=
  ∃ fp, getBlobsPath digest = some fp ∧ blobs.lookup fp = none ∧ ∀ d ∈ before, getBlobsPath d ≠ some fp

namespace PullAux

/-- What `downloadBlob` does without an error. -/
theorem downloadBlob_ok {blobs blobs' : List (Bytes × Bytes)} {d : Bytes} {answer : Option Bytes} {hit : Bool}
    (h : downloadBlob blobs d answer = .ok (hit, blobs')) : ∃ fp, getBlobsPath d = some fp ∧
      ((hit = true ∧ blobs' = blobs ∧ blobs.lookup fp ≠ none) ∨
        (hit = false ∧ blobs.lookup fp = none ∧ ∃ content, blobs' = Assoc.set blobs fp content)) := by
  unfold downloadBlob at h
  split at h
  · simp at h
  · rename_i fp hfp
    refine ⟨fp, hfp, ?_⟩
    split at h
    · simp at h
    · split at h
      · rename_i hlookup
        obtain ⟨rfl, rfl⟩ : true = hit ∧ blobs = blobs' := by simpa using h
        exact .inl ⟨rfl, rfl, by simp [hlookup]⟩
      · rename_i hlookup
        split at h
        · simp at h
        · rename_i content
          obtain ⟨rfl, rfl⟩ : false = hit ∧ Assoc.set blobs fp content = blobs' := by simpa using h
          exact .inr ⟨rfl, hlookup, content, rfl⟩

/-- A blob is a cache hit unless its digest is fresh. -/
theorem hit_iff {blobs blobs' : List (Bytes × Bytes)} {d : Bytes} {answer : Option Bytes} {hit : Bool}
    (h : downloadBlob blobs d answer = .ok (hit, blobs')) : hit = false ↔ Fresh blobs [] d := by
  obtain ⟨fp, hfp, hcase⟩ := downloadBlob_ok h
  constructor
  · intro hhit
    rcases hcase with ⟨htrue, _⟩ | ⟨_, hnone, _⟩
    · simp [hhit] at htrue
    · exact ⟨fp, hfp, hnone, by simp⟩
  · rintro ⟨fp', hfp', hnone, _⟩
    obtain rfl : fp = fp' := by simpa [hfp] using hfp'
    rcases hcase with ⟨_, _, hsome⟩ | ⟨hfalse, _⟩
    · exact absurd hnone hsome
    · exact hfalse

/-- After a download its digest counts among those before. -/
theorem fresh_step {blobs blobs' : List (Bytes × Bytes)} {d : Bytes} {answer : Option Bytes} {hit : Bool}
    (h : downloadBlob blobs d answer = .ok (hit, blobs')) (before : List Bytes) (e : Bytes) :
    Fresh blobs' before e ↔ Fresh blobs (d :: before) e := by
  obtain ⟨fp, hfp, hcase⟩ := downloadBlob_ok h
  have hlookup : ∀ fp', blobs'.lookup fp' = none ↔ blobs.lookup fp' = none ∧ fp ≠ fp' := by
    intro fp'
    rcases hcase with ⟨_, rfl, hsome⟩ | ⟨_, _, content, rfl⟩
    · refine ⟨fun hnone => ⟨hnone, ?_⟩, fun hnone => hnone.1⟩
      rintro rfl
      exact hsome hnone
    · rw [Assoc.lookup_set]
      by_cases heq : fp' = fp
      · simp [heq]
      · simp [heq, Ne.symm heq]
  constructor
  · rintro ⟨fp', hfp', hnone, hbefore⟩
    obtain ⟨hnone, hne⟩ := (hlookup fp').1 hnone
    refine ⟨fp', hfp', hnone, ?_⟩
    intro d' hd'
    rcases List.mem_cons.1 hd' with rfl | hd'
    · simpa [hfp] using hne
    · exact hbefore d' hd'
  · rintro ⟨fp', hfp', hnone, hbefore⟩
    have hne : fp ≠ fp' := by simpa [hfp] using hbefore d (List.mem_cons_self ..)
    exact ⟨fp', hfp', (hlookup fp').2 ⟨hnone, hne⟩, fun d' hd' => hbefore d' (List.mem_cons_of_mem _ hd')⟩

/-- The digests that a run of the first loop downloads are those that are fresh at one of their places. -/
def FreshAt (blobs : List (Bytes × Bytes)) (layers : List Bytes) (d : Bytes) (after : List Bytes) : Prop :=
  ∃ before, layers = before ++ d :: after ∧ Fresh blobs before d

/-- A place in a list is its head or a place in its tail. -/
theorem freshAt_cons {blobs blobs' : List (Bytes × Bytes)} {x : Bytes} {answer : Option Bytes} {hit : Bool}
    (h : downloadBlob blobs x answer = .ok (hit, blobs')) (layers : List Bytes) (d : Bytes) (after : List Bytes) :
    FreshAt blobs (x :: layers) d after ↔ (x = d ∧ layers = after ∧ hit = false) ∨ FreshAt blobs' layers d after := by
  constructor
  · rintro ⟨before, hsplit, hfresh⟩
    cases before with
    | nil =>
      obtain ⟨rfl, rfl⟩ : x = d ∧ layers = after := by simpa using hsplit
      exact .inl ⟨rfl, rfl, (hit_iff h).2 hfresh⟩
    | cons y before =>
      obtain ⟨rfl, rfl⟩ : x = y ∧ layers = before ++ d :: after := by simpa using hsplit
      exact .inr ⟨before, rfl, (fresh_step h before d).2 hfresh⟩
  · rintro (⟨rfl, rfl, hhit⟩ | ⟨before, rfl, hfresh⟩)
    · exact ⟨[], rfl, (hit_iff h).1 hhit⟩
    · exact ⟨x :: before, rfl, (fresh_step h before d).1 hfresh⟩

/-- The step of the first loop. -/
theorem downloadLayers_cons {p p' : Pulling} {x : Bytes} {answer : Option Bytes} {layers : List (Bytes × Option Bytes)}
    (h : downloadLayers p ((x, answer) :: layers) = (p', none)) :
    ∃ hit blobs, downloadBlob p.blobs x answer = .ok (hit, blobs) ∧
      downloadLayers { p with blobs, skipVerify := Assoc.set p.skipVerify x hit,
                              downloaded := if hit then p.downloaded else p.downloaded ++ [x] } layers =
                                (p', none) := by
  rw [downloadLayers] at h
  split at h
  · simp at h
  · rename_i hit blobs hblob
    exact ⟨hit, blobs, hblob, h⟩

/-- The digests that the first loop downloads. -/
theorem mem_downloaded {layers : List (Bytes × Option Bytes)} {p p' : Pulling}
    (h : downloadLayers p layers = (p', none)) (d : Bytes) :
    d ∈ p'.downloaded ↔ d ∈ p.downloaded ∨ ∃ after, FreshAt p.blobs (layers.map Prod.fst) d after := by
  induction layers generalizing p with
  | nil =>
    obtain rfl : p = p' := by simpa [downloadLayers] using h
    simp [FreshAt]
  | cons e layers ih =>
    obtain ⟨x, answer⟩ := e
    obtain ⟨hit, blobs, hblob, hrest⟩ := downloadLayers_cons h
    rw [ih hrest, List.map_cons]
    simp only [freshAt_cons hblob]
    cases hit with
    | true => simp
    | false => simp [eq_comm, or_assoc, exists_or]

/-- The digests that the first loop leaves to be verified: those whose last place is fresh. -/
theorem skipVerify_eq_false {layers : List (Bytes × Option Bytes)} {p p' : Pulling}
    (h : downloadLayers p layers = (p', none)) (d : Bytes) : p'.skipVerify.lookup d = some false ↔
      (d ∉ layers.map Prod.fst ∧ p.skipVerify.lookup d = some false) ∨
        ∃ after, FreshAt p.blobs (layers.map Prod.fst) d after ∧ d ∉ after := by
  induction layers generalizing p with
  | nil =>
    obtain rfl : p = p' := by simpa [downloadLayers] using h
    simp [FreshAt]
  | cons e layers ih =>
    obtain ⟨x, answer⟩ := e
    obtain ⟨hit, blobs, hblob, hrest⟩ := downloadLayers_cons h
    rw [ih hrest, List.map_cons]
    simp only [freshAt_cons hblob, Assoc.lookup_set]
    by_cases hx : d = x
    · subst hx
      by_cases hmem : d ∈ layers.map Prod.fst
      · constructor
        · rintro (⟨hnot, _⟩ | ⟨after, hat, hafter⟩)
          · exact absurd hmem hnot
          · exact .inr ⟨after, .inr hat, hafter⟩
        · rintro (⟨hnot, _⟩ | ⟨after, ⟨_, rfl, _⟩ | hat, hafter⟩)
          · simp at hnot
          · exact absurd hmem hafter
          · exact .inr ⟨after, hat, hafter⟩
      · constructor
        · rintro (⟨_, hhit⟩ | ⟨after, hat, hafter⟩)
          · exact .inr ⟨_, .inl ⟨rfl, rfl, by simpa using hhit⟩, hmem⟩
          · exact .inr ⟨after, .inr hat, hafter⟩
        · rintro (⟨hnot, _⟩ | ⟨after, ⟨_, rfl, rfl⟩ | hat, hafter⟩)
          · simp at hnot
          · exact .inl ⟨hmem, by simp⟩
          · exact .inr ⟨after, hat, hafter⟩
    · simp [hx, Ne.symm hx]

/-- The first loop hashes nothing. -/
theorem downloadLayers_verified {layers : List (Bytes × Option Bytes)} {p p' : Pulling}
    (h : downloadLayers p layers = (p', none)) :
    p'.verified = p.verified := by
  induction layers generalizing p with
  | nil =>
    obtain rfl : p = p' := by simpa [downloadLayers] using h
    rfl
  | cons e layers ih =>
    obtain ⟨hit, blobs, _, hrest⟩ := downloadLayers_cons h
    rw [ih hrest]

/-- The first loop makes a note of every layer, and forgets none. -/
theorem skipVerify_isSome {layers : List (Bytes × Option Bytes)} {p p' : Pulling}
    (h : downloadLayers p layers = (p', none)) (d : Bytes)
    (hd : d ∈ layers.map Prod.fst ∨ (p.skipVerify.lookup d).isSome) : (p'.skipVerify.lookup d).isSome := by
  induction layers generalizing p with
  | nil =>
    obtain rfl : p = p' := by simpa [downloadLayers] using h
    simpa using hd
  | cons e layers ih =>
    obtain ⟨x, answer⟩ := e
    obtain ⟨hit, blobs, _, hrest⟩ := downloadLayers_cons h
    refine ih hrest ?_
    rw [Assoc.lookup_set]
    by_cases hx : d = x
    · simp [hx]
    · simpa [hx] using hd

/-- The second loop hashes what is not skipped. -/
theorem verifyLayers_verified (sha : Bytes → Bytes) {layers : List Bytes} {p p' : Pulling}
    (h : verifyLayers sha p layers = (p', none)) :
    p'.verified = p.verified ++ layers.filter (fun d => !(p.skipVerify.lookup d).getD false) ∧
      p'.downloaded = p.downloaded := by
  induction layers generalizing p with
  | nil =>
    obtain rfl : p = p' := by simpa [verifyLayers] using h
    simp
  | cons d layers ih =>
    rw [verifyLayers] at h
    split at h
    · rename_i hskip
      obtain ⟨hverified, hdownloaded⟩ := ih h
      exact ⟨by rw [hverified, List.filter_cons_of_neg (by simp [hskip])], hdownloaded⟩
    · rename_i hskip
      split at h
      · simp at h
      · simp at h
      · obtain ⟨hverified, hdownloaded⟩ := ih h
        refine ⟨?_, hdownloaded⟩
        rw [hverified, List.filter_cons_of_pos (by simpa using hskip)]
        simp

end PullAux

namespace PullAux

/-- What the second loop has hashed matches. -/
theorem verifyLayers_matches (sha : Bytes → Bytes) {layers : List Bytes} {p p' : Pulling}
    (h : verifyLayers sha p layers = (p', none)) (hp : ∀ d ∈ p.verified, verifyBlob sha p.blobs d = none) :
    ∀ d ∈ p'.verified, verifyBlob sha p'.blobs d = none := by
  induction layers generalizing p with
  | nil =>
    obtain rfl : p = p' := by simpa [verifyLayers] using h
    exact hp
  | cons d layers ih =>
    rw [verifyLayers] at h
    split at h
    · exact ih h hp
    · split at h
      · simp at h
      · simp at h
      · rename_i hmatch
        refine ih h ?_
        intro e he
        rcases List.mem_append.1 he with he | he
        · exact hp e he
        · rw [List.mem_singleton.1 he]
          exact hmatch

/-- What a pull without an error did. -/
theorem pullModel_ok (sha : Bytes → Bytes) (lib : Library) (path : Bytes) (m : Manifest)
    (answers : Nat → Option Bytes) (noPrune : Bool) (h : (pullModel sha lib path m answers noPrune).2.2 = none) : ∃ p,
      downloadLayers ⟨lib.blobs, [], [], []⟩ (m.pulled.zipIdx.map (fun e => (e.1, answers e.2))) = (p, none) ∧
        verifyLayers sha p m.pulled = ((pullModel sha lib path m answers noPrune).2.1, none) := by
  unfold pullModel at h ⊢
  split at h
  · simp at h
  · rename_i p hdownload
    split at h
    · simp at h
    · rename_i p' hverify
      exact ⟨p, hdownload, by simp only [hverify]⟩

end PullAux

open PullAux in
/-- A pull that writes its manifest has hashed every blob that it downloaded, and each matched, exactly if no digest
that was downloaded is named once more by a later layer or the config. -/
theorem pull_verifies_iff (sha : Bytes → Bytes) (lib : Library) (path : Bytes) (m : Manifest)
    (answers : Nat → Option Bytes) (noPrune : Bool) (hok : (pullModel sha lib path m answers noPrune).2.2 = none) :
    (∀ d ∈ (pullModel sha lib path m answers noPrune).2.1.downloaded,
      d ∈ (pullModel sha lib path m answers noPrune).2.1.verified ∧
        verifyBlob sha (pullModel sha lib path m answers noPrune).2.1.blobs d = none) ↔
      ∀ before d after, m.pulled = before ++ d :: after → Fresh lib.blobs before d → d ∉ after := by
  obtain ⟨p, hdownload, hverify⟩ := pullModel_ok sha lib path m answers noPrune hok
  generalize (pullModel sha lib path m answers noPrune).2.1 = p' at hverify
  obtain ⟨hverified, hdownloaded⟩ := verifyLayers_verified sha hverify
  have hlayers : (m.pulled.zipIdx.map (fun e => (e.1, answers e.2))).map Prod.fst = m.pulled := by
    simp [List.map_map, Function.comp_def, List.zipIdx_map_fst]
  have hmatches : ∀ d ∈ p'.verified, verifyBlob sha p'.blobs d = none := by
    refine verifyLayers_matches sha hverify ?_
    rw [downloadLayers_verified hdownload]
    simp
  have hmem : ∀ d, d ∈ p'.downloaded ↔ ∃ after, FreshAt lib.blobs m.pulled d after := by
    intro d
    rw [hdownloaded, mem_downloaded hdownload, hlayers]
    simp
  have hhashed : ∀ d, d ∈ p'.verified ↔ ∃ after, FreshAt lib.blobs m.pulled d after ∧ d ∉ after := by
    intro d
    have hnote := skipVerify_eq_false hdownload d
    have hsome := skipVerify_isSome hdownload d
    rw [hlayers] at hnote hsome
    rw [hverified, downloadLayers_verified hdownload, List.nil_append, List.mem_filter]
    constructor
    · rintro ⟨hd, hskip⟩
      obtain ⟨skip, hlookup⟩ := Option.isSome_iff_exists.1 (hsome (.inl hd))
      obtain rfl : skip = false := by simpa [hlookup] using hskip
      simpa using hnote.1 hlookup
    · rintro ⟨after, hat, hafter⟩
      refine ⟨?_, by simp [hnote.2 (.inr ⟨after, hat, hafter⟩)]⟩
      obtain ⟨before, hsplit, _⟩ := hat
      simp [hsplit]
  constructor
  · intro hall before d after hsplit hfresh
    obtain ⟨after', ⟨before', hsplit', hfresh'⟩, hafter'⟩ :=
      (hhashed d).1 (hall d ((hmem d).2 ⟨after, before, hsplit, hfresh⟩)).1
    -- at a fresh place the digest does not stand before, so the two places are one
    obtain ⟨fp, hfp, _, hbefore⟩ := hfresh'
    have hnot : d ∉ before' := fun hmem => hbefore d hmem hfp
    rw [hsplit'] at hsplit
    obtain ⟨_, _, rfl⟩ := (List.append_cons_inj_of_notMem hnot hafter').1 hsplit
    exact hafter'
  · intro hcond d hd
    obtain ⟨after, before, hsplit, hfresh⟩ := (hmem d).1 hd
    have hverified : d ∈ p'.verified :=
      (hhashed d).2 ⟨after, ⟨before, hsplit, hfresh⟩, hcond before d after hsplit hfresh⟩
    exact ⟨hverified, hmatches d hverified⟩

/-- A model of one layer and a config that are both downloaded. -/
def pulledOnce : Library × Pulling × Option PullErr :=
  pullModel shaOf ⟨[], []⟩ (ascii "h/n/m/t") ⟨digestOf 0x62,
    [digestOf 0x61]⟩ (fun i => some [0x61 + UInt8.ofNat i]) false

/-- Both are verified. -/
theorem pull_verifies_once : pulledOnce.2.1.downloaded = [digestOf 0x61, digestOf 0x62] ∧
    ∀ d ∈ pulledOnce.2.1.downloaded, d ∈ pulledOnce.2.1.verified ∧ verifyBlob shaOf pulledOnce.2.1.blobs d = none := by
  refine ⟨by decide, (pull_verifies_iff shaOf ⟨[], []⟩ _ _ _ false (by decide)).2 ?_⟩
  intro before d after hsplit _ hafter
  have hnodup : (Manifest.pulled ⟨digestOf 0x62, [digestOf 0x61]⟩).Nodup := by decide
  rw [hsplit, List.nodup_append, List.nodup_cons] at hnodup
  exact hnodup.2.1.1 hafter

/-- A model that names one layer twice. The registry serves another content. -/
def pulledTwice : Library × Pulling × Option PullErr :=
  pullModel shaOf ⟨[], []⟩ (ascii "h/n/m/t") ⟨[], [digestOf 0x61, digestOf 0x61]⟩ (fun _ => some [0x62]) false

/-- The manifest is written, and the blob that was downloaded was never hashed. It does not match. -/
theorem pull_skips_repeated : pulledTwice.2.2 = none ∧ digestOf 0x61 ∈ pulledTwice.2.1.downloaded ∧
    digestOf 0x61 ∉ pulledTwice.2.1.verified ∧ verifyBlob shaOf pulledTwice.2.1.blobs (digestOf 0x61) =
      some .digestMismatch := by
  decide

end Ollama.Server
