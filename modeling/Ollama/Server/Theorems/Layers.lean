import Ollama.Server.Layers

/-!
# Manifests and their blobs

A create request finds or makes its blobs long before its manifest names them, and a request that removes a blob looks
through the manifests before it does, but not through the layers of the requests. A manifest is left without a blob
where the two overlap, or where the blob is named in the other spelling. Kept apart, every manifest has its blobs in
every state of every run (`manifests_complete`).
-/

namespace Ollama.Server

open Lib Utf8

namespace Request

/-- The digests of the layers that a create request has made and not dropped, before its manifest names them. -/
def made : Request → List Bytes
  | .layers c | .rename _ _ _ c => c.made.map Layer.digest
  | .removeLayers _ back | .removeLayer _ _ _ back => (back.elim [] Creating.made).map Layer.digest
  | .encode _ _ made => made.map Layer.digest
  | _ => []

/-- The digest of the layer whose blob a create request finds or makes in its next step. -/
def makes (sha : Bytes → Bytes) : Request → Option Bytes
  | .layers c =>
    match c.fromModel, c.todo with
    | l :: _, _ => some l.digest
    | [], .make _ (.reader content) _ :: _ => some (ascii "sha256:" ++ sha content)
    | [], .make _ (.layer digest) _ :: _ => some digest
    | [], _ => none
  | .rename _ content _ _ => some (ascii "sha256:" ++ sha content)
  | _ => none

/-- The digest of the layer whose manifests a request begins to look for in its next step. -/
def seeks : Request → Option Bytes
  | .removeLayers (digest :: _) _ => some digest
  | _ => none

/-- The digest of the layer whose manifests a request is looking for, or whose blob it is about to remove. -/
def removes : Request → Option Bytes
  | .removeLayer digest _ _ _ => some digest
  | _ => none

end Request

/-- The manifests. -/
def Disk.manifests (disk : Disk) : List Manifest := disk.names.filterMap (fun e => disk.parseNamedManifest e.1)

namespace Models

/-- No create request has made a layer with this blob. -/
def Free (s : Models) (fp : Bytes) : Prop := ∀ r ∈ s.requests, ∀ d ∈ r.made, getBlobsPath d ≠ some fp

/-- No request is removing a layer with this blob. -/
def Kept (s : Models) (fp : Bytes) : Prop := ∀ r ∈ s.requests, ∀ d ∈ r.removes, getBlobsPath d ≠ some fp

/-- A request begins to look for the manifests of a layer only while no create request, itself included, has made a
layer with its blob, and all manifests that name the blob spell it alike; and a create request finds or makes a blob
only while no request is removing a layer with it. -/
def Apart (sha : Bytes → Bytes) (s : Models) : ModelsAct → Prop
  | .step i .ok => ∀ r ∈ s.requests[i]?,
      (∀ d ∈ r.seeks, ∀ fp ∈ getBlobsPath d,
        s.Free fp ∧ ∀ m ∈ s.disk.manifests, ∀ d' ∈ m.digests, getBlobsPath d' = some fp → d' = d) ∧
      ∀ d ∈ r.makes sha, ∀ fp ∈ getBlobsPath d, s.Kept fp
  | _ => True

end Models

namespace LayersAux

/-- All manifests that name a blob are among those that are still to be read, and spell it as the layer does. -/
def OnlyIn (disk : Disk) (d fp : Bytes) (unread : List Bytes) : Prop :=
  ∀ path m, disk.parseNamedManifest path = some m → ∀ d' ∈ m.digests, d' ≠ [] → getBlobsPath d' = some fp →
    d' = d ∧ path ∈ unread

/-- What holds of the requests: every manifest has its blobs, a create request has the blobs of the layers that it has
made, and where a request is removing a layer, no create request has made it, and the manifests that name it are still
to be read. -/
structure Inv (s : Models) : Prop where
  complete : s.disk.Complete
  made : ∀ r ∈ s.requests, ∀ d ∈ r.made, ∃ fp, getBlobsPath d = some fp ∧ s.disk.hasBlob fp = true
  removing : ∀ r ∈ s.requests, ∀ d unread todo back, r = .removeLayer d unread todo back →
    ∀ fp, getBlobsPath d = some fp → s.Free fp ∧ OnlyIn s.disk d fp unread

/-! ## The disk -/

/-- A manifest after `os.Create` was there before. -/
theorem parse_create {disk : Disk} {path p : Bytes} {m : Manifest}
    (h : (disk.create path).1.parseNamedManifest p = some m) :
    disk.parseNamedManifest p = some m := by
  unfold Disk.parseNamedManifest at h ⊢
  split at h
  · rename_i hname
    rw [if_pos hname]
    obtain ⟨file, hfile, hm⟩ := Option.bind_eq_some_iff.1 h
    refine Option.bind_eq_some_iff.2 ⟨file, ?_⟩
    cases hlookup : disk.names.lookup path with
    | some old =>
      simp only [Disk.create, hlookup, List.getElem?_set] at hfile hm
      refine ⟨hfile, ?_⟩
      by_cases hfo : old = file
      · simp [hfo] at hm
        split at hm <;> simp at hm
      · simpa [hfo] using hm
    | none =>
      simp only [Disk.create, hlookup, Assoc.lookup_set, List.getElem?_append] at hfile hm
      by_cases hlt : file < disk.files.length
      · have hp : p ≠ path := by
          rintro rfl
          simp at hfile
          omega
        exact ⟨by simpa [hp] using hfile, by simpa [hlt] using hm⟩
      · rw [if_neg hlt] at hm
        cases hk : file - disk.files.length <;> simp [hk] at hm
  · simp at h

/-- A manifest after a file is written is the new one or was there before. -/
theorem parse_write {disk : Disk} {file : Nat} {new m : Manifest} {p : Bytes}
    (h : { disk with files := disk.files.set file (some new) }.parseNamedManifest p = some m) :
    m = new ∨ disk.parseNamedManifest p = some m := by
  unfold Disk.parseNamedManifest at h ⊢
  split at h
  · rename_i hname
    rw [if_pos hname]
    obtain ⟨f, hf, hm⟩ := Option.bind_eq_some_iff.1 h
    by_cases hfile : file = f
    · subst hfile
      rw [List.getElem?_set] at hm
      split at hm
      · split at hm
        · exact .inl (by simpa using hm.symm)
        · simp at hm
      · exact absurd rfl ‹_›
    · rw [List.getElem?_set_ne hfile] at hm
      exact .inr (Option.bind_eq_some_iff.2 ⟨f, hf, hm⟩)
  · simp at h

/-- A manifest after a name is removed was there before. -/
theorem parse_unlink {disk : Disk} {path p : Bytes} {m : Manifest}
    (h : { disk with names := disk.names.filter (fun e => e.1 ≠ path) }.parseNamedManifest p = some m) :
    disk.parseNamedManifest p = some m := by
  unfold Disk.parseNamedManifest at h ⊢
  simp only [Assoc.lookup_filter_ne] at h
  by_cases hp : p = path
  · simp [hp] at h
  · simpa [hp] using h

/-- A manifest is one of the manifests. -/
theorem mem_manifests {disk : Disk} {path : Bytes} {m : Manifest} (h : disk.parseNamedManifest path = some m) :
    m ∈ disk.manifests ∧ path ∈ disk.names.map Prod.fst := by
  have hparse := h
  unfold Disk.parseNamedManifest at h
  split at h
  · obtain ⟨file, hfile, _⟩ := Option.bind_eq_some_iff.1 h
    obtain ⟨l₁, l₂, hsplit, _⟩ := List.lookup_eq_some_iff.1 hfile
    have hmem : (path, file) ∈ disk.names := by simp [hsplit]
    exact ⟨List.mem_filterMap.2 ⟨_, hmem, hparse⟩, List.mem_map.2 ⟨_, hmem, rfl⟩⟩
  · simp at h

/-- The digests of the manifest that a create request writes. -/
theorem mem_manifestOf {made : List Layer} {d : Bytes} (h : d ∈ (manifestOf made).digests) (hd : d ≠ []) :
    d ∈ made.map Layer.digest := by
  unfold manifestOf at h
  generalize made.map Layer.digest = digests at h ⊢
  rcases List.eq_nil_or_concat digests with rfl | ⟨init, last, rfl⟩
  · simp [Manifest.digests] at h
    exact absurd h hd
  · simpa [Manifest.digests] using h

/-- The digests after a layer has taken its place. -/
theorem mem_put {c : Creating} {place : Option Nat} {layer : Layer} {d : Bytes}
    (h : d ∈ (c.put place layer).made.map Layer.digest) :
    d ∈ c.made.map Layer.digest ∨ d = layer.digest := by
  obtain ⟨l, hl, rfl⟩ := List.mem_map.1 h
  have hcases : l ∈ c.made ∨ l = layer := by
    unfold Creating.put at hl
    cases place with
    | none => simpa using hl
    | some i => exact List.mem_or_eq_of_mem_set hl
  rcases hcases with hl | rfl
  · exact .inl (List.mem_map_of_mem hl)
  · exact .inr rfl

/-- A disk with the same blobs and no new manifest is complete. -/
theorem complete_of_sub {disk disk' : Disk} (h : disk.Complete) (hblobs : disk'.blobs = disk.blobs)
    (hsub : ∀ p m, disk'.parseNamedManifest p = some m → disk.parseNamedManifest p = some m) : disk'.Complete := by
  intro p m hm d hd hne
  obtain ⟨fp, hfp, hhas⟩ := h p m (hsub p m hm) d hd hne
  exact ⟨fp, hfp, by rw [Disk.hasBlob, hblobs]; exact hhas⟩

/-- Where no manifest is new, those that name a blob are where they were. -/
theorem onlyIn_of_sub {disk disk' : Disk} {d fp : Bytes} {unread : List Bytes} (h : OnlyIn disk d fp unread)
    (hsub : ∀ p m, disk'.parseNamedManifest p = some m → disk.parseNamedManifest p = some m) :
    OnlyIn disk' d fp unread :=
  fun p m hm => h p m (hsub p m hm)

/-! ## Steps -/

/-- What a step has to show: the blobs of the layers that are made are there, no layer is made that is being removed,
and the manifests that name a layer that is being removed are still to be read. -/
theorem Inv.set {s : Models} (h : Inv s) (i : Nat) {disk' : Disk} {r' : Request} (hcomplete : disk'.Complete)
    (hblobs : ∀ q ∈ s.requests, ∀ d ∈ q.made, ∀ fp, getBlobsPath d = some fp → s.disk.hasBlob fp = true →
      disk'.hasBlob fp = true)
      (hmade : ∀ d ∈ r'.made, ∃ fp, getBlobsPath d = some fp ∧ disk'.hasBlob fp = true ∧ s.Kept fp)
      (honly : ∀ d fp unread, s.Free fp → OnlyIn s.disk d fp unread → OnlyIn disk' d fp unread)
      (hown : ∀ d unread todo back, r' = .removeLayer d unread todo back → ∀ fp, getBlobsPath d = some fp →
      s.Free fp ∧ OnlyIn disk' d fp unread ∧ ∀ d' ∈ r'.made, getBlobsPath d' ≠ some fp) :
    Inv ⟨disk', s.requests.set i r'⟩ := by
  have hfree : ∀ fp, s.Free fp → (∀ d ∈ r'.made, getBlobsPath d ≠ some fp) →
    Models.Free ⟨disk', s.requests.set i r'⟩ fp := by
    intro fp hfree hnew q hq d hd
    rcases List.mem_or_eq_of_mem_set hq with hq | rfl
    · exact hfree q hq d hd
    · exact hnew d hd
  refine ⟨hcomplete, ?_, ?_⟩
  · intro q hq d hd
    rcases List.mem_or_eq_of_mem_set hq with hq | rfl
    · obtain ⟨fp, hfp, hhas⟩ := h.made q hq d hd
      exact ⟨fp, hfp, hblobs q hq d hd fp hfp hhas⟩
    · obtain ⟨fp, hfp, hhas, _⟩ := hmade d hd
      exact ⟨fp, hfp, hhas⟩
  · rintro q hq d unread todo back rfl fp hfp
    rcases List.mem_or_eq_of_mem_set hq with hq | hq
    · obtain ⟨hf, honlyIn⟩ := h.removing _ hq d unread todo back rfl fp hfp
      refine ⟨hfree fp hf ?_, honly d fp unread hf honlyIn⟩
      intro d' hd' hfp'
      obtain ⟨fp', hfp'', _, hkept⟩ := hmade d' hd'
      obtain rfl : fp = fp' := by simpa [hfp'] using hfp''
      exact hkept _ hq d rfl hfp
    · obtain ⟨hf, honlyIn, hnew⟩ := hown d unread todo back hq.symm fp hfp
      exact ⟨hfree fp hf hnew, honlyIn⟩

/-- A layer that a request has made is not being removed. -/
theorem Inv.kept {s : Models} (h : Inv s) {r : Request} (hr : r ∈ s.requests) {d fp : Bytes} (hd : d ∈ r.made)
    (hfp : getBlobsPath d = some fp) : s.Kept fp := by
  intro q hq d' hd' hfp'
  cases q with
  | removeLayer e unread todo back =>
    obtain rfl : e = d' := by simpa [Request.removes] using hd'
    exact (h.removing _ hq e unread todo back rfl fp hfp').1 r hr d hd hfp
  | _ => simp [Request.removes] at hd'

/-- The blob of a layer that a request has made. -/
theorem Inv.has {s : Models} (h : Inv s) {r : Request} (hr : r ∈ s.requests) {d : Bytes} (hd : d ∈ r.made) :
    ∃ fp, getBlobsPath d = some fp ∧ s.disk.hasBlob fp = true ∧ s.Kept fp := by
  obtain ⟨fp, hfp, hhas⟩ := h.made r hr d hd
  exact ⟨fp, hfp, hhas, h.kept hr hd hfp⟩

/-- A step that leaves the disk as it is, and makes no layer. -/
theorem Inv.move {s : Models} (h : Inv s) (i : Nat) {r r' : Request} (hr : r ∈ s.requests) (hmade : r'.made ⊆ r.made)
    (hown : ∀ d unread todo back, r' = .removeLayer d unread todo back → ∀ fp, getBlobsPath d = some fp →
      s.Free fp ∧ OnlyIn s.disk d fp unread) : Inv ⟨s.disk, s.requests.set i r'⟩ := by
  refine h.set i h.complete (fun _ _ _ _ _ _ hhas => hhas) (fun _ hd => h.has hr (hmade hd))
    (fun _ _ _ _ honly => honly) ?_
  intro d unread todo back heq fp hfp
  obtain ⟨hfree, honly⟩ := hown d unread todo back heq fp hfp
  exact ⟨hfree, honly, fun d' hd' => hfree r hr d' (hmade hd')⟩

/-- A request that is over. -/
theorem Inv.returned {s : Models} (h : Inv s) (i : Nat) {r : Request} (hr : r ∈ s.requests) :
    Inv ⟨s.disk, s.requests.set i .returned⟩ := h.move i hr (by simp [Request.made]) (by simp)

/-- A step that finds the blob of a layer. -/
theorem Inv.found {s : Models} (h : Inv s) (i : Nat) {r : Request} {c : Creating} {d fp : Bytes} (hr : r ∈ s.requests)
    (hmade : ∀ d' ∈ c.made.map Layer.digest, d' ∈ r.made ∨ d' = d) (hfp : getBlobsPath d = some fp)
    (hhas : s.disk.hasBlob fp = true) (hkept : s.Kept fp) : Inv ⟨s.disk, s.requests.set i (.layers c)⟩ := by
  refine h.set i h.complete (fun _ _ _ _ _ _ hhas => hhas) ?_ (fun _ _ _ _ honly => honly) (by simp)
  intro d' hd'
  rcases hmade d' hd' with hd' | rfl
  · exact h.has hr hd'
  · exact ⟨fp, hfp, hhas, hkept⟩

/-- A step that renames the blob of a layer. -/
theorem Inv.rename {s : Models} (h : Inv s) (i : Nat) {mediaType content : Bytes} {place : Option Nat}
    {c : Creating} {layer : Layer} {fp : Bytes} (hr : .rename mediaType content place c ∈ s.requests)
    (hfp : getBlobsPath layer.digest = some fp) (hkept : s.Kept fp) :
    Inv ⟨{ s.disk with blobs := Assoc.set s.disk.blobs fp content },
      s.requests.set i (.layers (c.put place layer))⟩ := by
  have hhas : ∀ fp', s.disk.hasBlob fp' = true ∨ fp' = fp →
      Disk.hasBlob { s.disk with blobs := Assoc.set s.disk.blobs fp content } fp' = true := by
    rintro fp' hfp'
    simp only [Disk.hasBlob, Assoc.lookup_set] at hfp' ⊢
    by_cases heq : fp' = fp
    · simp [heq]
    · simpa [heq] using hfp'
  refine h.set i ?_ (fun _ _ _ _ _ _ hold => hhas _ (.inl hold)) ?_ (fun _ _ _ _ honly => honly) (by simp)
  · intro p m hm d' hd' hne
    obtain ⟨fp', hfp', hold⟩ := h.complete p m hm d' hd' hne
    exact ⟨fp', hfp', hhas fp' (.inl hold)⟩
  · intro d' hd'
    rcases mem_put hd' with hd' | rfl
    · obtain ⟨fp', hfp', hold, hkept'⟩ := h.has hr hd'
      exact ⟨fp', hfp', hhas fp' (.inl hold), hkept'⟩
    · exact ⟨fp, hfp, hhas fp (.inr rfl), hkept⟩

/-- A step after which no manifest is new, and the blobs are as before. -/
theorem Inv.sub {s : Models} (h : Inv s) (i : Nat) {r r' : Request} {disk' : Disk} (hr : r ∈ s.requests)
    (hblobs : disk'.blobs = s.disk.blobs)
    (hsub : ∀ p m, disk'.parseNamedManifest p = some m → s.disk.parseNamedManifest p = some m)
    (hmade : r'.made ⊆ r.made) (hno : ∀ d unread todo back, r' ≠ .removeLayer d unread todo back) :
    Inv ⟨disk', s.requests.set i r'⟩ := by
  have hhas : ∀ fp, disk'.hasBlob fp = s.disk.hasBlob fp := fun fp => by rw [Disk.hasBlob, Disk.hasBlob, hblobs]
  refine h.set i (complete_of_sub h.complete hblobs hsub) ?_ ?_ ?_ ?_
  · intro _ _ _ _ fp _ hold
    rw [hhas]
    exact hold
  · intro d hd
    rw [show disk'.hasBlob = s.disk.hasBlob from funext hhas]
    exact h.has hr (hmade hd)
  · intro d fp unread _ honly
    exact onlyIn_of_sub honly hsub
  · intro d unread todo back heq
    exact absurd heq (hno d unread todo back)

/-- A step that writes the manifest of layers that are made. -/
theorem Inv.encode {s : Models} (h : Inv s) (i : Nat) {file : Nat} {old : Option Manifest} {made : List Layer}
    {r' : Request} (hr : .encode file old made ∈ s.requests) (hmade : r'.made = [])
    (hno : ∀ d unread todo back, r' ≠ .removeLayer d unread todo back) :
    Inv ⟨{ s.disk with files := s.disk.files.set file (some (manifestOf made)) }, s.requests.set i r'⟩ := by
  refine h.set i ?_ (fun _ _ _ _ _ _ hhas => hhas) (by simp [hmade]) ?_ ?_
  · intro p m hm d hd hne
    rcases parse_write hm with rfl | hm
    · exact h.made _ hr d (mem_manifestOf hd hne)
    · exact h.complete p m hm d hd hne
  · intro d fp unread hfree honly p m hm d' hd' hne hfp'
    rcases parse_write hm with rfl | hm
    · exact absurd hfp' (hfree _ hr d' (mem_manifestOf hd' hne))
    · exact honly p m hm d' hd' hne hfp'
  · intro d unread todo back heq
    exact absurd heq (hno d unread todo back)

/-- A step that removes a blob. -/
theorem Inv.unlink {s : Models} (h : Inv s) (i : Nat) {d fp : Bytes} {todo : List Bytes} {back : Option Creating}
    (hr : .removeLayer d [] todo back ∈ s.requests) (hfp : getBlobsPath d = some fp) :
    Inv ⟨{ s.disk with blobs := s.disk.blobs.filter (fun e => e.1 ≠ fp) },
      s.requests.set i (.removeLayers todo back)⟩ := by
  obtain ⟨hfree, honly⟩ := h.removing _ hr d [] todo back rfl fp hfp
  have hhas : ∀ fp', fp' ≠ fp → s.disk.hasBlob fp' = true →
      Disk.hasBlob { s.disk with blobs := s.disk.blobs.filter (fun e => e.1 ≠ fp) } fp' = true := by
    intro fp' hne hold
    simpa only [Disk.hasBlob, Assoc.lookup_filter_ne, if_neg hne] using hold
  refine h.set i ?_ ?_ ?_ (fun _ _ _ _ honly => honly) (by simp)
  · intro p m hm d' hd' hne
    obtain ⟨fp', hfp', hold⟩ := h.complete p m hm d' hd' hne
    refine ⟨fp', hfp', hhas fp' ?_ hold⟩
    rintro rfl
    exact absurd (honly p m hm d' hd' hne hfp').2 (by simp)
  · intro q hq d' hd' fp' hfp' hold
    refine hhas fp' ?_ hold
    rintro rfl
    exact hfree q hq d' hd' hfp'
  · intro d' hd'
    obtain ⟨fp', hfp', hold, hkept⟩ := h.has hr hd'
    refine ⟨fp', hfp', hhas fp' ?_ hold, hkept⟩
    rintro rfl
    exact hfree _ hr d' hd' hfp'

/-- A request whose removal of a layer fails. -/
theorem Inv.removeFailed {s : Models} (h : Inv s) (i : Nat) {r : Request} {todo : List Bytes} {back : Option Creating}
    (hr : r ∈ s.requests) (hmade : (Request.removeLayers todo back).made ⊆ r.made) :
    Inv ⟨s.disk, s.requests.set i (Server.removeFailed todo back)⟩ := by
  cases back with
  | none => exact h.returned i hr
  | some c => exact h.move i hr hmade (by simp [Server.removeFailed])

/-- A create request that goes on without the layers of the model that it is made from. -/
theorem Inv.fromFailed {s : Models} (h : Inv s) (i : Nat) {c : Creating} (hr : .layers c ∈ s.requests) :
    Inv ⟨s.disk, s.requests.set i c.fromFailed⟩ :=
  h.move i hr (by simp [Creating.fromFailed, Request.made]) (by simp [Creating.fromFailed])

/-- A step of `parseFromModel`. -/
theorem Inv.nextFrom {sha : Bytes → Bytes} {s : Models} (h : Inv s) {i : Nat} {c : Creating} {l : Layer}
    {rest : List Layer} (hr : .layers c ∈ s.requests) (hfrom : c.fromModel = l :: rest)
    (hkept : ∀ fp ∈ getBlobsPath l.digest, s.Kept fp) :
    Inv ⟨(s.disk.layersNext sha c).1, s.requests.set i (s.disk.layersNext sha c).2⟩ := by
  unfold Disk.layersNext
  rw [hfrom]
  dsimp only
  split
  · exact h.fromFailed i hr
  · split
    · exact h.fromFailed i hr
    · rename_i fp hfp
      split
      · rename_i hhas
        refine h.found i hr ?_ hfp hhas (hkept fp hfp)
        intro d' hd'
        rw [List.map_append, List.mem_append] at hd'
        exact hd'.imp_right (fun hd' => List.mem_singleton.1 hd')
      · exact h.fromFailed i hr

/-- A step that makes a layer, or begins to. -/
theorem Inv.nextMake {sha : Bytes → Bytes} {s : Models} (h : Inv s) {i : Nat} {c : Creating} {mediaType : Bytes}
    {src : Source} {place : Option Nat} {todo : List LayerStep} (hr : .layers c ∈ s.requests) (hfrom : c.fromModel = [])
    (htodo : c.todo = .make mediaType src place :: todo)
    (hkept : ∀ d ∈ (Request.layers c).makes sha, ∀ fp ∈ getBlobsPath d, s.Kept fp) :
    Inv ⟨(s.disk.layersNext sha c).1, s.requests.set i (s.disk.layersNext sha c).2⟩ := by
  obtain ⟨path, old, fromModel, todo', made⟩ := c
  dsimp only at hfrom htodo
  subst hfrom htodo
  have hput : ∀ digest, ∀ d' ∈ (Creating.put ⟨path, old, [], todo, made⟩ place ⟨mediaType, digest⟩).made.map
    Layer.digest, d' ∈ made.map Layer.digest ∨ d' = digest := fun digest d' hd' => mem_put hd'
  unfold Disk.layersNext
  cases src with
  | reader content =>
    dsimp only
    split
    · exact h.returned i hr
    · rename_i fp hfp
      split
      · rename_i hhas
        exact h.found i hr (hput _) hfp hhas (hkept _ rfl fp hfp)
      · exact h.move i hr (by simp [Request.made]) (by simp)
  | layer digest =>
    dsimp only
    split
    · exact h.returned i hr
    · split
      · exact h.returned i hr
      · rename_i fp hfp
        split
        · rename_i hhas
          exact h.found i hr (hput _) hfp hhas (hkept _ rfl fp hfp)
        · exact h.returned i hr

/-- A step of a create request that is making its layers. -/
theorem Inv.nextLayers {sha : Bytes → Bytes} {s : Models} (h : Inv s) {i : Nat} {c : Creating}
    (hr : .layers c ∈ s.requests) (hkept : ∀ d ∈ (Request.layers c).makes sha, ∀ fp ∈ getBlobsPath d, s.Kept fp) :
    Inv ⟨(s.disk.layersNext sha c).1, s.requests.set i (s.disk.layersNext sha c).2⟩ := by
  cases hfrom : c.fromModel with
  | cons l rest =>
    refine h.nextFrom hr hfrom ?_
    simpa only [Request.makes, hfrom, Option.mem_def, Option.some.injEq, forall_eq'] using hkept
  | nil =>
    cases htodo : c.todo with
    | nil =>
      unfold Disk.layersNext
      simp only [hfrom, htodo]
      refine h.sub i hr ?_ (fun _ _ => parse_create) (by simp [Request.made]) (by simp)
      unfold Disk.create
      split <;> rfl
    | cons st todo =>
      cases st with
      | make mediaType src place => exact h.nextMake hr hfrom htodo hkept
      | remove mediaType =>
        unfold Disk.layersNext
        simp only [hfrom, htodo]
        exact h.move i hr (List.map_subset _ (List.filter_subset_self c.made)) (by simp)

/-- A manifest that has been read and does not name the layer need not be read again. -/
theorem onlyIn_tail {disk : Disk} {d fp path : Bytes} {unread : List Bytes} (h : OnlyIn disk d fp (path :: unread))
    (hno : ∀ m, disk.parseNamedManifest path = some m → d ∉ m.digests) : OnlyIn disk d fp unread := by
  intro p m hm d' hd' hne hfp'
  obtain ⟨rfl, hp⟩ := h p m hm d' hd' hne hfp'
  rcases List.mem_cons.1 hp with rfl | hp
  · exact absurd hd' (hno m hm)
  · exact ⟨rfl, hp⟩

/-- A manifest is passed over. -/
theorem Inv.pass {s : Models} (h : Inv s) (i : Nat) {d path : Bytes} {unread todo : List Bytes} {back : Option Creating}
    (hr : .removeLayer d (path :: unread) todo back ∈ s.requests)
    (hno : ∀ m, s.disk.parseNamedManifest path = some m → d ∉ m.digests) :
    Inv ⟨s.disk, s.requests.set i (.removeLayer d unread todo back)⟩ := by
  refine h.move i hr (List.Subset.refl _) ?_
  intro d' unread' todo' back' heq fp hfp
  obtain ⟨rfl, rfl, rfl, rfl⟩ := Request.removeLayer.inj heq
  obtain ⟨hfree, honly⟩ := h.removing _ hr d _ todo _ rfl fp hfp
  exact ⟨hfree, onlyIn_tail honly hno⟩

/-- A step of a request that is removing a layer. -/
theorem Inv.nextRemoval {sha : Bytes → Bytes} {s : Models} (h : Inv s) {i : Nat} {d : Bytes} {unread todo : List Bytes}
    {back : Option Creating} {disk' : Disk} {r' : Request} (hr : .removeLayer d unread todo back ∈ s.requests)
    (hnext : s.disk.next sha (.removeLayer d unread todo back) .ok = some (disk', r')) :
    Inv ⟨disk', s.requests.set i r'⟩ := by
  cases unread with
  | nil =>
    simp only [Disk.next] at hnext
    split at hnext
    · obtain ⟨rfl, rfl⟩ := Prod.mk.inj (Option.some.inj hnext)
      exact h.removeFailed i hr (List.Subset.refl _)
    · rename_i fp hfp
      obtain ⟨rfl, rfl⟩ := Prod.mk.inj (Option.some.inj hnext)
      exact h.unlink i hr hfp
  | cons path unread =>
    simp only [Disk.next] at hnext
    split at hnext
    · obtain ⟨rfl, rfl⟩ := Prod.mk.inj (Option.some.inj hnext)
      exact h.move i hr (List.Subset.refl _) (by simp)
    · split at hnext
      · rename_i hparse
        obtain ⟨rfl, rfl⟩ := Prod.mk.inj (Option.some.inj hnext)
        exact h.pass i hr (by simp [hparse])
      · rename_i m hparse
        split at hnext
        · obtain ⟨rfl, rfl⟩ := Prod.mk.inj (Option.some.inj hnext)
          exact h.move i hr (List.Subset.refl _) (by simp)
        · rename_i hno
          obtain ⟨rfl, rfl⟩ := Prod.mk.inj (Option.some.inj hnext)
          exact h.pass i hr (by simpa [hparse] using hno)

/-- A request begins to look for the manifests of a layer. -/
theorem Inv.seek {s : Models} (h : Inv s) (i : Nat) {d : Bytes} {todo : List Bytes} {back : Option Creating}
    (hr : .removeLayers (d :: todo) back ∈ s.requests)
    (hseek : ∀ fp ∈ getBlobsPath d, s.Free fp ∧ ∀ m ∈ s.disk.manifests, ∀ d' ∈ m.digests, getBlobsPath d' =
      some fp → d' = d) :
    Inv ⟨s.disk, s.requests.set i (.removeLayer d (s.disk.names.map Prod.fst) todo back)⟩ := by
  refine h.move i hr (List.Subset.refl _) ?_
  intro d' unread' todo' back' heq fp hfp
  obtain ⟨rfl, rfl, rfl, rfl⟩ := Request.removeLayer.inj heq
  obtain ⟨hfree, hspelled⟩ := hseek fp hfp
  refine ⟨hfree, ?_⟩
  intro p m hm d' hd' _ hfp'
  exact ⟨hspelled m (mem_manifests hm).1 d' hd' hfp', (mem_manifests hm).2⟩

/-- A request that fails at a step. -/
theorem Inv.failed {s : Models} (h : Inv s) (i : Nat) {r : Request} (hr : r ∈ s.requests) :
    Inv ⟨s.disk, s.requests.set i r.failed⟩ := by
  cases r with
  | layers c =>
    simp only [Request.failed]
    split
    · exact h.fromFailed i hr
    · exact h.returned i hr
  | removeLayers todo back =>
    cases todo with
    | nil => exact h.returned i hr
    | cons d todo => exact h.removeFailed i hr (List.Subset.refl _)
  | removeLayer d unread todo back => exact h.removeFailed i hr (List.Subset.refl _)
  | _ => exact h.returned i hr

/-- A step of a request. -/
theorem Inv.next {sha : Bytes → Bytes} {s : Models} (h : Inv s) {i : Nat} {r r' : Request} {outcome : Outcome}
    {disk' : Disk} (hr : s.requests[i]? = some r) (hapart : s.Apart sha (.step i outcome))
    (hnext : s.disk.next sha r outcome = some (disk', r')) :
    Inv ⟨disk', s.requests.set i r'⟩ := by
  have hmem : r ∈ s.requests := List.mem_of_getElem? hr
  cases outcome with
  | fail =>
    cases r with
    | returned => simp [Disk.next] at hnext
    | _ =>
      obtain ⟨rfl, rfl⟩ := Prod.mk.inj (Option.some.inj hnext)
      exact h.failed i hmem
  | gone =>
    cases r with
    | removeLayer d unread todo back =>
      cases unread with
      | nil => simp [Disk.next] at hnext
      | cons path unread =>
        simp only [Disk.next] at hnext
        split at hnext
        · rename_i hnone
          obtain ⟨rfl, rfl⟩ := Prod.mk.inj (Option.some.inj hnext)
          exact h.pass i hmem (by simp [Disk.parseNamedManifest, hnone])
        · simp at hnext
    | _ => simp [Disk.next] at hnext
  | ok =>
    obtain ⟨hseek, hkept⟩ := hapart r hr
    cases r with
    | create req =>
      simp only [Disk.next] at hnext
      split at hnext
      · obtain ⟨rfl, rfl⟩ := Prod.mk.inj (Option.some.inj hnext)
        exact h.move i hmem (by simp [Request.made]) (by simp)
      · obtain ⟨rfl, rfl⟩ := Prod.mk.inj (Option.some.inj hnext)
        exact h.returned i hmem
    | layers c =>
      obtain ⟨rfl, rfl⟩ := Prod.mk.inj (Option.some.inj hnext)
      exact h.nextLayers hmem hkept
    | rename mediaType content place c =>
      simp only [Disk.next] at hnext
      split at hnext
      · obtain ⟨rfl, rfl⟩ := Prod.mk.inj (Option.some.inj hnext)
        exact h.returned i hmem
      · rename_i fp hfp
        obtain ⟨rfl, rfl⟩ := Prod.mk.inj (Option.some.inj hnext)
        exact h.rename i hmem hfp (hkept _ rfl fp hfp)
    | encode file old made =>
      obtain ⟨rfl, rfl⟩ := Prod.mk.inj (Option.some.inj hnext)
      cases old with
      | none => exact h.encode i hmem rfl (by simp)
      | some m => exact h.encode i hmem rfl (by simp)
    | delete path =>
      simp only [Disk.next] at hnext
      split at hnext
      · obtain ⟨rfl, rfl⟩ := Prod.mk.inj (Option.some.inj hnext)
        exact h.returned i hmem
      · obtain ⟨rfl, rfl⟩ := Prod.mk.inj (Option.some.inj hnext)
        exact h.move i hmem (by simp [Request.made]) (by simp)
    | remove path m =>
      simp only [Disk.next] at hnext
      split at hnext
      · obtain ⟨rfl, rfl⟩ := Prod.mk.inj (Option.some.inj hnext)
        exact h.returned i hmem
      · obtain ⟨rfl, rfl⟩ := Prod.mk.inj (Option.some.inj hnext)
        exact h.sub i hmem rfl (fun _ _ => parse_unlink) (by simp [Request.made]) (by simp)
    | removeLayers todo back =>
      cases todo with
      | nil =>
        cases back with
        | none =>
          obtain ⟨rfl, rfl⟩ := Prod.mk.inj (Option.some.inj hnext)
          exact h.returned i hmem
        | some c =>
          obtain ⟨rfl, rfl⟩ := Prod.mk.inj (Option.some.inj hnext)
          exact h.move i hmem (List.Subset.refl _) (by simp)
      | cons d todo =>
        simp only [Disk.next] at hnext
        split at hnext
        · obtain ⟨rfl, rfl⟩ := Prod.mk.inj (Option.some.inj hnext)
          exact h.move i hmem (List.Subset.refl _) (by simp)
        · obtain ⟨rfl, rfl⟩ := Prod.mk.inj (Option.some.inj hnext)
          exact h.seek i hmem (hseek d rfl)
    | removeLayer d unread todo back => exact h.nextRemoval hmem hnext
    | returned => simp [Disk.next] at hnext

/-- A request begins. -/
theorem Inv.begin {s : Models} (h : Inv s) {r : Request} (hmade : r.made = [])
    (hno : ∀ d unread todo back, r ≠ .removeLayer d unread todo back) :
    Inv { s with requests := s.requests ++ [r] } := by
  have hcases : ∀ q ∈ s.requests ++ [r], q ∈ s.requests ∨ q = r := by simp
  refine ⟨h.complete, ?_, ?_⟩
  · intro q hq d hd
    rcases hcases q hq with hq | rfl
    · exact h.made q hq d hd
    · simp [hmade] at hd
  · intro q hq d unread todo back heq fp hfp
    rcases hcases q hq with hq | rfl
    · obtain ⟨hfree, honly⟩ := h.removing q hq d unread todo back heq fp hfp
      refine ⟨?_, honly⟩
      intro q' hq' d' hd'
      rcases hcases q' hq' with hq' | rfl
      · exact hfree q' hq' d' hd'
      · simp [hmade] at hd'
    · exact absurd heq (hno d unread todo back)

/-- The invariant holds in every state of a run. -/
theorem inv_of_reachable {sha : Bytes → Bytes} {s : Models}
    (h : ((models sha).guarded (Models.Apart sha)).Reachable s) : Inv s := by
  refine h.invariant ?_ ?_
  · rintro s ⟨hcomplete, hnone⟩
    exact ⟨hcomplete, by simp [hnone], by simp [hnone]⟩
  · rintro s s' hinv ⟨a, hapart, hact⟩
    cases a with
    | create r =>
      obtain rfl := Option.some.inj hact
      exact hinv.begin rfl (by simp)
    | delete path =>
      obtain rfl := Option.some.inj hact
      exact hinv.begin rfl (by simp)
    | step i outcome =>
      obtain ⟨r, hr, hout⟩ := Option.bind_eq_some_iff.1 hact
      obtain ⟨⟨disk', r'⟩, hnext, rfl⟩ := Option.map_eq_some_iff.1 hout
      exact hinv.next hr hapart hnext

end LayersAux

/-- In every state of every run in which making and removing the same blob are kept apart, every layer and config of
every manifest has its blob. -/
theorem manifests_complete (sha : Bytes → Bytes) (s : Models)
    (h : ((models sha).guarded (Models.Apart sha)).Reachable s) :
    s.disk.Complete := (LayersAux.inv_of_reachable h).complete

instance (s : Models) (fp : Bytes) : Decidable (s.Free fp) :=
  inferInstanceAs (Decidable (∀ r ∈ s.requests, ∀ d ∈ r.made, _))

instance (s : Models) (fp : Bytes) : Decidable (s.Kept fp) :=
  inferInstanceAs (Decidable (∀ r ∈ s.requests, ∀ d ∈ r.removes, _))

instance (sha : Bytes → Bytes) (s : Models) (a : ModelsAct) : Decidable (s.Apart sha a) :=
  match a with
  | .step i .ok => inferInstanceAs (Decidable (∀ r ∈ s.requests[i]?,
      (∀ d ∈ r.seeks, ∀ fp ∈ getBlobsPath d, s.Free fp ∧ ∀ m ∈ s.disk.manifests, ∀ d' ∈ m.digests, _) ∧
        ∀ d ∈ r.makes sha, ∀ fp ∈ getBlobsPath d, s.Kept fp))
  | .step _ .gone | .step _ .fail | .create _ | .delete _ => inferInstanceAs (Decidable True)

/-- Steps of one request. -/
def steps (i n : Nat) : List ModelsAct := List.replicate n (.step i .ok)

/-- A model of a layer and a config is created, and another of the same layer, whose file names a template that the
request replaces. -/
def createTwo : List ModelsAct :=
  [.create { path := ascii "h/n/m/t", files := [(modelType, .reader [0x61])], config := [0x62] }] ++ steps 0 7 ++
    [.create { path := ascii "h/n/m/u", template := [0x65], config := [0x63],
               files := [(modelType, .reader [0x61]),
               (ascii "application/vnd.ollama.image.template", .reader [0x64])] }]

/-- What is left where the first is deleted after the second is created, and where it is deleted when the second has
found the blob of the layer. -/
theorem createTwo_leaves :
    ((models shaOf).runGuarded (Models.Apart shaOf) ⟨⟨[], [], []⟩, []⟩
      (createTwo ++ steps 1 15 ++ [.delete (ascii "h/n/m/t")] ++ steps 2 8)).map
        (fun s => (s.disk.manifests, s.disk.blobs)) = some ([⟨digestOf 0x63, [digestOf 0x61, digestOf 0x65]⟩],
          [0x61, 0x65, 0x63].map (fun b => (ascii "sha256-" ++ shaOf [b], [b]))) ∧
    ((models shaOf).run ⟨⟨[], [], []⟩, []⟩
      (createTwo ++ steps 1 2 ++ [.delete (ascii "h/n/m/t")] ++ steps 2 6 ++ steps 1 12)).map
        (fun s => (s.disk.parseNamedManifest (ascii "h/n/m/u"), s.disk.hasBlob (ascii "sha256-" ++ shaOf [0x61]))) =
        some (some ⟨digestOf 0x63, [digestOf 0x61, digestOf 0x65]⟩, false) := by
  decide +kernel

/-- The second is created before the first is deleted: it has its blobs, and the template that it replaces and the
config of the first are removed. -/
theorem manifests_complete_two : ∃ s : Models, s.disk.Complete ∧
    s.disk.manifests = [⟨digestOf 0x63, [digestOf 0x61, digestOf 0x65]⟩] ∧
      s.disk.blobs = [0x61, 0x65, 0x63].map (fun b => (ascii "sha256-" ++ shaOf [b], [b])) := by
  obtain ⟨s, hs, hfacts⟩ := Option.map_eq_some_iff.1 createTwo_leaves.1
  have hinit : (models shaOf).init ⟨⟨[], [], []⟩, []⟩ := ⟨fun path m hm => by simp [Disk.parseNamedManifest] at hm, rfl⟩
  exact ⟨s, manifests_complete shaOf s (Machine.reachable_runGuarded (.init hinit) hs), (Prod.mk.inj hfacts).1,
    (Prod.mk.inj hfacts).2⟩

/-- The second has found the blob of the layer when the first is deleted: the blob is removed, and the manifest that
is then written names it. -/
theorem manifest_left_dangling : ∃ s, (models shaOf).system.Reachable s ∧ ¬s.disk.Complete := by
  obtain ⟨s, hs, hfacts⟩ := Option.map_eq_some_iff.1 createTwo_leaves.2
  obtain ⟨hparse, hgone⟩ := Prod.mk.inj hfacts
  have hinit : (models shaOf).init ⟨⟨[], [], []⟩, []⟩ := ⟨fun path m hm => by simp [Disk.parseNamedManifest] at hm, rfl⟩
  refine ⟨s, Machine.reachable_run (.init hinit) hs, ?_⟩
  intro hcomplete
  obtain ⟨fp, hfp, hhas⟩ := hcomplete _ _ hparse (digestOf 0x61) (by decide) (by decide)
  obtain rfl : ascii "sha256-" ++ shaOf [0x61] = fp :=
    Option.some.inj ((by decide : getBlobsPath (digestOf 0x61) = _).symm.trans hfp)
  rw [hgone] at hhas
  simp at hhas

end Ollama.Server
