import Ollama.Blob.Lemmas.Files

/-!
# Manifests and names

In every cache that calls make, the content of a blob has its digest or is empty, and no two manifests have names that
differ in letter case only: a name that is linked is looked for first. So a name finds its manifest in any case of
letters, and a call that is not of that name leaves it alone.
-/

namespace Ollama.Blob

open Lib Utf8 Names

variable {sha : Bytes → Digest} {c : DiskCache}

/-- Every blob is empty or has the content its name says. -/
def BlobsIntact (sha : Bytes → Digest) (c : DiskCache) : Prop :=
  ∀ d content, c.blobs.lookup d = some content → content = [] ∨ sha content = d

/-- What every call keeps. -/
structure CacheInv (sha : Bytes → Digest) (c : DiskCache) : Prop where
  blobs : ∀ d content, c.blobs.lookup d = some content → content = [] ∨ sha content = d
  manifests : ∀ p q, (c.manifests.lookup p).isSome → (c.manifests.lookup q).isSome → equalFold p q = true → p = q

/-- The file of a name that is not in the cache yet. -/
def manifestFile (np : Bytes) : Bytes := join [ascii "manifests", np]

/-- Two texts that are read as one name, but for letter case. -/
def SameName (name name' : Bytes) : Prop :=
  ∃ np np', nameToPath name = .ok np ∧ nameToPath name' = .ok np' ∧ equalFold np np' = true

/-! ## Paths -/

/-- Parts are joined with a slash behind the first. -/
theorem join_cons (x y : Bytes) (parts : List Bytes) : join (x :: y :: parts) = x ++ ([0x2f] ++ join (y :: parts)) := by
  simp [join, List.intercalate]

/-- Parts are put into small letters one by one. -/
theorem map_lower_join (parts : List Bytes) : (join parts).map lower = join (parts.map (List.map lower)) := by
  have hslash : [(0x2f : UInt8)].map lower = [0x2f] := by decide
  induction parts with
  | nil => rfl
  | cons x parts ih =>
    cases parts with
    | nil => simp [join, List.intercalate]
    | cons y parts =>
      rw [join_cons, List.map_append, List.map_append, ih, hslash]
      simp only [List.map_cons, join_cons]

/-- Names that differ in case only have files that do. -/
theorem equalFold_manifestFile {np np' : Bytes} (h : equalFold np np' = true) :
    equalFold (manifestFile np) (manifestFile np') = true := by
  rw [equalFold_iff] at h ⊢
  rw [manifestFile, manifestFile, map_lower_join, map_lower_join]
  simp only [List.map_cons, List.map_nil, h]

/-- Files that differ in case only are of names that do. -/
theorem equalFold_of_manifestFile {np np' : Bytes} (h : equalFold (manifestFile np) (manifestFile np') = true) :
    equalFold np np' = true := by
  have happend : ∀ x : Bytes, manifestFile x = (ascii "manifests" ++ [0x2f]) ++ x := by
    intro x
    rw [manifestFile, join_cons, List.append_assoc]
    simp [join, List.intercalate]
  rw [equalFold_iff, happend, happend, List.map_append, List.map_append] at h
  exact equalFold_iff.2 (List.append_cancel_left h)

/-- A name in another case of letters has the same path but for letter case. -/
theorem nameToPath_fold {name name' np : Bytes} (hfold : equalFold name name' = true) (h : nameToPath name = .ok np) :
    ∃ np', nameToPath name' = .ok np' ∧ equalFold np np' = true := by
  rw [equalFold_iff] at hfold
  have hat : ∀ s : Bytes, 0x40 ∈ s.map lower ↔ 0x40 ∈ s := by
    intro s
    have hb : ∀ b : UInt8, lower b = 0x40 ↔ b = 0x40 :=
      forall_byte (P := fun b => lower b = 0x40 ↔ b = 0x40) (by decide +kernel)
    simp [List.mem_map, hb]
  have hname : (parse name).fold = (parse name').fold := by rw [← parse_lower, ← parse_lower, hfold]
  unfold nameToPath at h ⊢
  dsimp only at h ⊢
  split at h
  · nomatch h
  · rename_i hno
    rw [if_neg (fun hmem => hno ((hat name).1 (hfold ▸ (hat name').2 hmem)))]
    split at h
    · rename_i hq
      have hq' : (parse name').isFullyQualified = true := by
        rw [← isFullyQualified_fold, ← hname, isFullyQualified_fold]
        exact hq
      rw [if_pos hq']
      refine ⟨_, rfl, equalFold_iff.2 ?_⟩
      obtain rfl := Except.ok.inj h
      obtain ⟨h1, h2, h3, h4⟩ := Name.mk.inj hname
      rw [map_lower_join, map_lower_join]
      simp only [List.map_cons, List.map_nil, h1, h2, h3, h4]
    · nomatch h

/-! ## The manifest of a name -/

/-- The links are the names that have a manifest. -/
theorem mem_links {p : Bytes} : p ∈ c.links ↔ (c.manifests.lookup p).isSome := by
  rw [DiskCache.links, List.mem_insertionSort]
  constructor
  · intro h
    by_contra hnone
    rw [Option.not_isSome_iff_eq_none, List.lookup_eq_none_iff] at hnone
    obtain ⟨e, he, rfl⟩ := List.mem_map.1 h
    simpa using hnone e he
  · intro h
    by_contra hmem
    rw [Assoc.lookup_eq_none hmem] at h
    nomatch h

/-- Where a name is linked: at the one manifest there is for it. -/
theorem manifestPath_spec (hc : CacheInv sha c) {name np : Bytes} (h : nameToPath name = .ok np) :
    ∃ p, c.manifestPath name = .ok p ∧ equalFold (manifestFile np) p = true ∧
      ∀ q, (c.manifests.lookup q).isSome → equalFold (manifestFile np) q = true → q = p := by
  rw [DiskCache.manifestPath, h]
  dsimp only
  rcases hfind : c.links.find? (fun l => equalFold (join [ascii "manifests", np]) l) with _ | l
  · refine ⟨_, rfl, equalFold_refl _, fun q hq hfold => ?_⟩
    exact absurd hfold (List.find?_eq_none.1 hfind q (mem_links.2 hq))
  · have hl := List.find?_some hfind
    have hmem := mem_links.1 (List.mem_of_find?_eq_some hfind)
    exact ⟨l, rfl, hl, fun q hq hfold => hc.manifests q l hq hmem (equalFold_trans (equalFold_symm hfold) hl)⟩

/-- A name that has a manifest finds it. -/
theorem manifestPath_eq (hc : CacheInv sha c) {name np q : Bytes} (h : nameToPath name = .ok np)
    (hq : (c.manifests.lookup q).isSome) (hfold : equalFold (manifestFile np) q = true) :
    c.manifestPath name = .ok q := by
  obtain ⟨p, hp, _, hone⟩ := manifestPath_spec hc h
  rw [hp, hone q hq hfold]

/-- A name that has a file has a path. -/
theorem nameToPath_of_manifestPath {name p : Bytes} (h : c.manifestPath name = .ok p) :
    ∃ np, nameToPath name = .ok np := by
  rw [DiskCache.manifestPath] at h
  cases hn : nameToPath name with
  | error err =>
    rw [hn] at h
    nomatch h
  | ok np => exact ⟨np, rfl⟩

/-! ## Calls -/

/-- `Resolve` changes no manifest. -/
theorem resolve_manifests (c : DiskCache) (name : Bytes) : (c.resolve sha name).1.manifests = c.manifests := by
  unfold DiskCache.resolve
  dsimp only
  split
  · rfl
  · split
    · rfl
    · split
      · rfl
      · split
        · rename_i hput
          exact congrArg (fun x => x.1.manifests) hput.symm
        · rename_i hput
          exact congrArg (fun x => x.1.manifests) hput.symm

/-- `Import` changes no manifest. -/
theorem importBlob_manifests (c : DiskCache) (r : Reader) (size : Int) :
    (c.importBlob sha r size).1.manifests = c.manifests := by
  unfold DiskCache.importBlob
  dsimp only
  split
  · rfl
  · split <;> rfl

/-- The blobs after a copy to the file of one. -/
theorem BlobsIntact.put (hc : BlobsIntact sha c) (d : Digest) (r : Reader) (size : Int) :
    BlobsIntact sha (c.put sha d r size).1 := by
  intro d' content h
  rw [DiskCache.put, Assoc.lookup_set] at h
  split at h
  · rename_i hd
    have hfile := Option.some.inj h
    rcases copyNamedFile_cases sha (c.blobs.lookup d) r d size with hold | hnil | hsum
    · exact hd ▸ hc d content (hfile ▸ hold)
    · exact Or.inl (hfile ▸ hnil)
    · exact Or.inr (hd ▸ hfile ▸ hsum)
  · exact hc d' content h

/-- `Import` leaves the blobs intact. -/
theorem BlobsIntact.importBlob (hc : BlobsIntact sha c) (r : Reader) (size : Int) :
    BlobsIntact sha (c.importBlob sha r size).1 := by
  unfold DiskCache.importBlob
  dsimp only
  split
  · exact hc
  · split
    · exact hc
    · intro d content h
      rw [Assoc.lookup_set] at h
      split at h
      · rename_i hd
        rw [← Option.some.inj h]
        exact Or.inr hd.symm
      · exact hc d content h

/-- The manifests after one of them is written. -/
theorem CacheInv.setManifest (hc : CacheInv sha c) {name np p : Bytes} (h : nameToPath name = .ok np)
    (hp : c.manifestPath name = .ok p) (file : Bytes) :
    CacheInv sha { c with manifests := Assoc.set c.manifests p file } := by
  obtain ⟨p', hp', hfold, hone⟩ := manifestPath_spec hc h
  obtain rfl : p' = p := Except.ok.inj (hp'.symm.trans hp)
  refine ⟨hc.blobs, fun q q' hq hq' heq => ?_⟩
  dsimp only at hq hq'
  rw [Assoc.lookup_set] at hq hq'
  by_cases h1 : q = p'
  · by_cases h2 : q' = p'
    · rw [h1, h2]
    · rw [if_neg h2] at hq'
      rw [h1, hone q' hq' (equalFold_trans hfold (h1 ▸ heq))]
  · rw [if_neg h1] at hq
    by_cases h2 : q' = p'
    · rw [h2, hone q hq (equalFold_trans hfold (equalFold_symm (h2 ▸ heq)))]
    · rw [if_neg h2] at hq'
      exact hc.manifests q q' hq hq' heq

/-- `Link` changes no blob. -/
theorem link_blobs (c : DiskCache) (name : Bytes) (d : Digest) : (c.link sha name d).1.blobs = c.blobs := by
  unfold DiskCache.link
  split
  · rfl
  · split <;> rfl

/-- `Unlink` changes no blob. -/
theorem unlink_blobs (c : DiskCache) (name : Bytes) : (c.unlink name).1.blobs = c.blobs := by
  unfold DiskCache.unlink
  split
  · rfl
  · split <;> rfl

/-- `Link` keeps the invariant. -/
theorem CacheInv.link (hc : CacheInv sha c) (name : Bytes) (d : Digest) : CacheInv sha (c.link sha name d).1 := by
  unfold DiskCache.link
  cases hp : c.manifestPath name with
  | error err => exact hc
  | ok p =>
    obtain ⟨np, hnp⟩ := nameToPath_of_manifestPath hp
    cases c.blobs.lookup d with
    | none => exact hc
    | some content => exact hc.setManifest hnp hp _

/-- `Unlink` keeps the invariant. -/
theorem CacheInv.unlink (hc : CacheInv sha c) (name : Bytes) : CacheInv sha (c.unlink name).1 := by
  unfold DiskCache.unlink
  cases c.manifestPath name with
  | error err => exact hc
  | ok p =>
    dsimp only
    split
    · refine ⟨hc.blobs, fun q q' hq hq' heq => ?_⟩
      dsimp only at hq hq'
      rw [Assoc.lookup_filter_ne] at hq hq'
      split at hq
      · nomatch hq
      · split at hq'
        · nomatch hq'
        · exact hc.manifests q q' hq hq' heq
    · exact hc

/-- `Resolve` leaves the blobs intact. -/
theorem BlobsIntact.resolve (hc : BlobsIntact sha c) (name : Bytes) : BlobsIntact sha (c.resolve sha name).1 := by
  unfold DiskCache.resolve
  dsimp only
  split
  · exact hc
  · split
    · exact hc
    · split
      · exact hc
      · rename_i content _
        have hput := hc.put (sha (content.take (1 <<< 20))) (.ofBytes (content.take (1 <<< 20)))
          (content.take (1 <<< 20)).length
        split
        · rename_i heq
          rw [DiskCache.putBytes] at heq
          rwa [heq] at hput
        · rename_i heq
          rw [DiskCache.putBytes] at heq
          rwa [heq] at hput

/-- Every call leaves the blobs intact. -/
theorem BlobsIntact.run (hc : BlobsIntact sha c) (call : Call) : BlobsIntact sha (call.run sha c) := by
  cases call with
  | put d r size => exact hc.put d r size
  | importBlob r size => exact hc.importBlob r size
  | link name d =>
    rw [BlobsIntact, Call.run, link_blobs]
    exact hc
  | unlink name =>
    rw [BlobsIntact, Call.run, unlink_blobs]
    exact hc
  | resolve name => exact hc.resolve name

/-- Every call keeps the invariant. -/
theorem cacheInv_run (hc : CacheInv sha c) (call : Call) : CacheInv sha (call.run sha c) := by
  refine ⟨BlobsIntact.run hc.blobs call, ?_⟩
  cases call with
  | put d r size => exact hc.manifests
  | importBlob r size =>
    rw [Call.run, importBlob_manifests]
    exact hc.manifests
  | link name d => exact (hc.link name d).manifests
  | unlink name => exact (hc.unlink name).manifests
  | resolve name =>
    rw [Call.run, resolve_manifests]
    exact hc.manifests

/-- Every reachable cache has the invariant. -/
theorem cacheInv_reachable (h : (diskCache sha).Reachable c) : CacheInv sha c := by
  apply h.invariant
  · intro c hc
    obtain rfl : c = .open_ := hc
    refine ⟨fun d content h => ?_, fun p q h => ?_⟩
    · rw [DiskCache.open_, List.lookup_nil] at h
      nomatch h
    · rw [DiskCache.open_, List.lookup_nil] at h
      nomatch h
  · intro c c' hc hstep
    obtain ⟨call, rfl⟩ := hstep
    exact cacheInv_run hc call

/-! ## Calls of other names -/

/-- A call that links or unlinks a name. -/
def Call.OfName (name : Bytes) : Call → Prop
  | .link name' _ => SameName name name'
  | .unlink name' => SameName name name'
  | _ => False

/-- A call that is not of a name leaves its manifest. -/
theorem lookup_run (hc : CacheInv sha c) {name np p : Bytes} (hnp : nameToPath name = .ok np)
    (hfold : equalFold (manifestFile np) p = true) {call : Call} (hcall : ¬call.OfName name) :
    (call.run sha c).manifests.lookup p = c.manifests.lookup p := by
  -- what is written is another file
  have hother : ∀ name' p', c.manifestPath name' = .ok p' → ¬SameName name name' → p ≠ p' := by
    intro name' p' hp' hsame heq
    obtain ⟨np', hnp'⟩ := nameToPath_of_manifestPath hp'
    obtain ⟨q, hq, hfold', _⟩ := manifestPath_spec hc hnp'
    obtain rfl : q = p' := Except.ok.inj (hq.symm.trans hp')
    refine hsame ⟨np, np', hnp, hnp', equalFold_of_manifestFile ?_⟩
    exact equalFold_trans hfold (heq ▸ equalFold_symm hfold')
  cases call with
  | put d r size => rfl
  | importBlob r size => rw [Call.run, importBlob_manifests]
  | resolve name' => rw [Call.run, resolve_manifests]
  | link name' d =>
    unfold Call.run DiskCache.link
    dsimp only
    cases hp' : c.manifestPath name' with
    | error err => rfl
    | ok p' =>
      cases c.blobs.lookup d with
      | none => rfl
      | some content =>
        dsimp only
        rw [Assoc.lookup_set, if_neg (hother name' p' hp' hcall)]
  | unlink name' =>
    unfold Call.run DiskCache.unlink
    dsimp only
    cases hp' : c.manifestPath name' with
    | error err => rfl
    | ok p' =>
      dsimp only
      split
      · dsimp only
        rw [Assoc.lookup_filter_ne, if_neg (hother name' p' hp' hcall)]
      · rfl

end Ollama.Blob
