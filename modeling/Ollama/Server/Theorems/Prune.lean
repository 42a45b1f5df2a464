import Ollama.Server.Images

/-!
# What garbage collection keeps

`PruneLayers` and `deleteUnusedLayers` take the digests of the manifests out of a map of digests, as strings, and
remove the blobs of those that are left. A digest has two spellings and one blob: one that the map has in the other
spelling stays in the map.
-/

namespace Ollama.Server

open Lib Utf8

/-- Every blob that a manifest names is still there, with its contents. -/
def Library.Keeps (lib lib' : Library) : Prop :=
  ∀ d ∈ lib.referenced, ∀ e ∈ lib.blobs, getBlobsPath d = some e.1 → e ∈ lib'.blobs

namespace PruneAux

/-- A digest is `sha256`, a colon or a dash, and its hexadecimal digits. -/
theorem isDigest_eq {s : Bytes} (h : isDigest s = true) :
    ∃ c hex, s = ascii "sha256" ++ c :: hex ∧ (c = 0x3a ∨ c = 0x2d) ∧ hex.length = 64 ∧ hex.all isHex = true := by
  simp only [isDigest, decide_eq_true_eq] at h
  obtain ⟨htake, hsep, hlen, hhex⟩ := h
  obtain ⟨c, hc, hsep⟩ : ∃ c, s[6]? = some c ∧ (c = 0x3a ∨ c = 0x2d) := by
    rcases hsep with hsep | hsep
    · exact ⟨_, hsep, .inl rfl⟩
    · exact ⟨_, hsep, .inr rfl⟩
  refine ⟨c, s.drop 7, ?_, hsep, hlen, hhex⟩
  obtain ⟨hlt, hget⟩ := List.getElem?_eq_some_iff.1 hc
  calc s = s.take 6 ++ s.drop 6 := (List.take_append_drop 6 s).symm
    _ = ascii "sha256" ++ c :: s.drop 7 := by rw [htake, List.drop_eq_getElem_cons hlt, hget]

/-- Such a string is a digest. -/
theorem isDigest_of {c : UInt8} {hex : Bytes} (hc : c = 0x3a ∨ c = 0x2d) (hlen : hex.length = 64)
    (hhex : hex.all isHex = true) :
    isDigest (ascii "sha256" ++ c :: hex) = true := by
  have hascii : ascii "sha256" = [0x73, 0x68, 0x61, 0x32, 0x35, 0x36] := by decide
  simp only [isDigest, hascii, decide_eq_true_eq]
  refine ⟨by simp, ?_, by simpa using hlen, by simpa using hhex⟩
  simpa using hc

/-- Neither a colon nor a dash is a hexadecimal digit. -/
theorem replaceAll_hex {hex : Bytes} (h : hex.all isHex = true) {old : UInt8} (hold : isHex old = false) (new : UInt8) :
    replaceAll hex old new = hex := by
  unfold replaceAll
  refine (List.map_congr_left (g := id) ?_).trans (List.map_id hex)
  intro b hb
  have hhex : isHex b = true := List.all_eq_true.1 h b hb
  have hne : b ≠ old := by
    rintro rfl
    simp [hhex] at hold
  simp [hne]

/-- The other spelling of a digest. -/
theorem replaceAll_digest {c : UInt8} {hex : Bytes} (hhex : hex.all isHex = true) {old : UInt8}
    (hold : old = 0x3a ∨ old = 0x2d) (new : UInt8) :
    replaceAll (ascii "sha256" ++ c :: hex) old new = ascii "sha256" ++ (if c = old then new else c) :: hex := by
  have hascii : replaceAll (ascii "sha256") old new = ascii "sha256" := by
    rcases hold with rfl | rfl <;> rfl
  have hdigits : replaceAll hex old new = hex := replaceAll_hex hhex (by rcases hold with rfl | rfl <;> decide) new
  calc replaceAll (ascii "sha256" ++ c :: hex) old new
      = replaceAll (ascii "sha256") old new ++ (if c = old then new else c) :: replaceAll hex old new := by
        simp [replaceAll]
    _ = _ := by rw [hascii, hdigits]

/-- What `GetBlobsPath` takes, and the file it gives. -/
theorem getBlobsPath_eq_some {d fp : Bytes} :
    getBlobsPath d = some fp ↔ (d = [] ∧ fp = []) ∨
      ∃ c hex, d = ascii "sha256" ++ c :: hex ∧ fp = ascii "sha256" ++ 0x2d :: hex ∧ (c = 0x3a ∨ c = 0x2d) ∧
        hex.length = 64 ∧ hex.all isHex = true := by
  unfold getBlobsPath
  constructor
  · intro h
    split at h
    · simp at h
    · rename_i hnot
      by_cases hd : d = []
      · subst hd
        exact .inl ⟨rfl, by simpa [replaceAll] using h.symm⟩
      · have hdigest : isDigest d = true := by
          by_contra hno
          exact hnot ⟨hd, by simpa using hno⟩
        obtain ⟨c, hex, rfl, hc, hlen, hhex⟩ := isDigest_eq hdigest
        refine .inr ⟨c, hex, rfl, ?_, hc, hlen, hhex⟩
        rw [replaceAll_digest hhex (.inl rfl)] at h
        rw [← Option.some.inj h]
        rcases hc with rfl | rfl <;> rfl
  · rintro (⟨rfl, rfl⟩ | ⟨c, hex, rfl, rfl, hc, hlen, hhex⟩)
    · rfl
    · rw [if_neg (by simp [isDigest_of hc hlen hhex]), replaceAll_digest hhex (.inl rfl)]
      rcases hc with rfl | rfl <;> rfl

/-- The name of the blob of a digest, with dashes made colons, is the digest with its dash made a colon, and has the
same blob. -/
theorem colon_of_path {d fp : Bytes} (h : getBlobsPath d = some fp) :
    replaceAll fp 0x2d 0x3a = replaceAll d 0x2d 0x3a ∧ getBlobsPath (replaceAll d 0x2d 0x3a) = some fp := by
  rcases getBlobsPath_eq_some.1 h with ⟨rfl, rfl⟩ | ⟨c, hex, rfl, rfl, hc, hlen, hhex⟩
  · exact ⟨rfl, rfl⟩
  · have hcolon : replaceAll (ascii "sha256" ++ c :: hex) 0x2d 0x3a = ascii "sha256" ++ 0x3a :: hex := by
      rw [replaceAll_digest hhex (.inr rfl)]
      rcases hc with rfl | rfl <;> rfl
    rw [hcolon, replaceAll_digest hhex (.inr rfl)]
    exact ⟨rfl, getBlobsPath_eq_some.2 (.inr ⟨0x3a, hex, rfl, rfl, .inl rfl, hlen, hhex⟩)⟩

/-- Two digests with one blob are the same but for a dash. -/
theorem colon_eq_of_path_eq {d d' fp : Bytes} (h : getBlobsPath d = some fp) (h' : getBlobsPath d' = some fp) :
    replaceAll d 0x2d 0x3a = replaceAll d' 0x2d 0x3a := by
  rw [← (colon_of_path h).1, ← (colon_of_path h').1]

/-- To replace dashes twice is to replace them once. -/
theorem colon_idem (s : Bytes) : replaceAll (replaceAll s 0x2d 0x3a) 0x2d 0x3a = replaceAll s 0x2d 0x3a := by
  unfold replaceAll
  rw [List.map_map]
  refine List.map_congr_left ?_
  intro b _
  by_cases hb : b = 0x2d <;> simp [hb]

/-- The blobs that `deleteUnusedLayers` leaves. -/
theorem mem_deleteUnusedLayers (lib : Library) (deleteMap : List Bytes) (e : Bytes × Bytes) :
    e ∈ (lib.deleteUnusedLayers deleteMap).blobs ↔
      e ∈ lib.blobs ∧ ∀ k ∈ deleteMap, getBlobsPath k = some e.1 → k ∈ lib.referenced := by
  simp only [Library.deleteUnusedLayers, List.mem_filter, decide_eq_true_eq]
  refine and_congr_right (fun _ => ?_)
  constructor
  · intro h k hk hpath
    by_contra hnot
    exact h k ⟨hk, hnot⟩ hpath
  · intro h k hk hpath
    exact hk.2 (h k hk.1 hpath)

/-- The blobs that `PruneLayers` leaves. -/
theorem mem_pruneLayers (lib : Library) (e : Bytes × Bytes) (d : Bytes) (hd : getBlobsPath d = some e.1) :
    e ∈ lib.pruneLayers.blobs ↔ e ∈ lib.blobs ∧ replaceAll d 0x2d 0x3a ∈ lib.referenced := by
  obtain ⟨hname, hpath⟩ := colon_of_path hd
  rw [Library.pruneLayers, mem_deleteUnusedLayers]
  simp only [List.mem_filter, List.mem_map]
  constructor
  · rintro ⟨⟨he, hsome⟩, hkeys⟩
    exact ⟨he, hkeys _ ⟨e, ⟨he, hsome⟩, hname⟩ hpath⟩
  · rintro ⟨he, href⟩
    refine ⟨⟨he, by rw [hname, hpath]; rfl⟩, ?_⟩
    -- a key has no dash, so the key with this blob is the digest with a colon
    rintro k ⟨e', _, rfl⟩ hk
    rw [← colon_idem, colon_eq_of_path_eq hk hd]
    exact href

end PruneAux

open PruneAux in
/-- `PruneLayers` keeps the blobs of the manifests exactly if every digest whose blob is there is also named in the
spelling with a colon, and `deleteUnusedLayers` exactly if every key of its map that has the blob of a named digest is
itself named, in the spelling it has. -/
theorem prune_keeps_iff (lib : Library) :
    (lib.Keeps lib.pruneLayers ↔
      ∀ d ∈ lib.referenced, ∀ e ∈ lib.blobs, getBlobsPath d = some e.1 → replaceAll d 0x2d 0x3a ∈ lib.referenced) ∧
    ∀ deleteMap : List Bytes, lib.Keeps (lib.deleteUnusedLayers deleteMap) ↔
      ∀ k ∈ deleteMap, ∀ d ∈ lib.referenced, ∀ e ∈ lib.blobs, getBlobsPath d = some e.1 → getBlobsPath k = some e.1 →
        k ∈ lib.referenced := by
  constructor
  · constructor
    · intro hkeeps d hd e he hpath
      exact ((mem_pruneLayers lib e d hpath).1 (hkeeps d hd e he hpath)).2
    · intro hcond d hd e he hpath
      exact (mem_pruneLayers lib e d hpath).2 ⟨he, hcond d hd e he hpath⟩
  · intro deleteMap
    constructor
    · intro hkeeps k hk d hd e he hpath hkpath
      exact ((mem_deleteUnusedLayers lib deleteMap e).1 (hkeeps d hd e he hpath)).2 k hk hkpath
    · intro hcond d hd e he hpath
      exact (mem_deleteUnusedLayers lib deleteMap e).2 ⟨he, fun k hk hkpath => hcond k hk d hd e he hpath hkpath⟩

/-- A library with one model, whose manifest names its layer with a dash. -/
def dashed : Library :=
  ⟨[(ascii "h/n/m/t", some ⟨[], [ascii "sha256-" ++ List.replicate 64 0x61]⟩)],
    [(ascii "sha256-" ++ List.replicate 64 0x61, [0x78])]⟩

/-- Both remove the only blob of the model. -/
theorem prune_removes_dashed : ¬dashed.Keeps dashed.pruneLayers ∧
    ¬dashed.Keeps (dashed.deleteUnusedLayers [ascii "sha256:" ++ List.replicate 64 0x61]) := by
  have hmem : ascii "sha256-" ++ List.replicate 64 0x61 ∈ dashed.referenced := by decide
  have hpath : getBlobsPath (ascii "sha256-" ++ List.replicate 64 0x61) =
    some (ascii "sha256-" ++ List.replicate 64 0x61) := by decide
  have hgone : dashed.pruneLayers.blobs = [] := by decide
  have hgone' : (dashed.deleteUnusedLayers [ascii "sha256:" ++ List.replicate 64 0x61]).blobs = [] := by decide
  constructor
  · intro h
    have hkept := h _ hmem _ (List.mem_singleton.2 rfl) hpath
    rw [hgone] at hkept
    simp at hkept
  · intro h
    have hkept := h _ hmem _ (List.mem_singleton.2 rfl) hpath
    rw [hgone'] at hkept
    simp at hkept

end Ollama.Server
