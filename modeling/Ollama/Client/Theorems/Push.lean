import Ollama.Client.Push

/-!
# Names that make the registry client panic

A digest is enough of a name to find a manifest by, but not to make one of what is found: `ResolveLocal` panics if the
name is a digest only and the cache has a file of it. `Push` panics where `ResolveLocal` does, and if it takes a
complete model from another name while its own is not valid: it has then validated the other name only. There are no
other panics (`registry_returns_iff`).
-/

namespace Ollama.Client

open Lib Utf8 Names Blob

/-- The text is a digest only, and the cache has a file of it. -/
def DigestOnly (c : DiskCache) (s : Bytes) : Prop :=
  ∃ digest d, (splitExtended s).2 = ([], digest) ∧ schemeOf s ∈ supportedSchemes ∧ parseDigest digest = .ok d ∧
    isValid d = true ∧ (c.blobs.lookup d).isSome

/-- The cache has the model of a name: its manifest can be read, and every layer has a blob of its size. -/
def Complete (sha : Bytes → Digest) (decode : Bytes → Option Manifest) (mask : Name) (c : DiskCache)
    (s : Bytes) : Prop :=
  ∃ n d c' d' data m, parseNameExtended mask s = some (n, d) ∧ localDigest sha c n d = (c', .ok d') ∧
    c'.blobs.lookup d' = some data ∧
    decode data = some m ∧ ∀ l ∈ m.layers, ∃ layer size, l = some layer ∧ c'.get layer.digest = .ok size ∧
      (size : Int) = layer.size

namespace PushAux

variable {sha : Bytes → Digest} {decode : Bytes → Option Manifest} {mask : Name} {c : DiskCache} {s name from_ : Bytes}

/-! ## Names -/

theorem parseName_qualified {n : Name} (h : parseName mask name = some n) : n.isFullyQualified = true := by
  simp only [parseName] at h
  split at h
  · rename_i hfq
    obtain rfl := Option.some.inj h
    exact hfq
  · nomatch h

theorem parseNameExtended_eq {scheme digest : Bytes} (hsplit : splitExtended s = (scheme, name, digest)) :
    parseNameExtended mask s =
      if schemeOf s ∉ supportedSchemes then none
      else if digest = [] then (parseName mask name).map (fun n => (n, none))
      else
        match parseDigest digest with
        | .error _ => none
        | .ok d => if name = [] then some ({}, some d) else (parseName mask name).map (fun n => (n, some d)) := by
  unfold parseNameExtended schemeOf
  generalize splitExtended s = e at hsplit
  subst hsplit
  rfl

/-- A name that is parsed is fully qualified, or is a digest only. -/
theorem parseNameExtended_cases {n : Name} {d : Option Digest} (h : parseNameExtended mask s = some (n, d)) :
    n.isFullyQualified = true ∨
      n = {} ∧ ∃ digest d', d = some d' ∧ (splitExtended s).2 = ([], digest) ∧ schemeOf s ∈ supportedSchemes ∧
        parseDigest digest = .ok d' := by
  rcases hsplit : splitExtended s with ⟨scheme, name, digest⟩
  rw [parseNameExtended_eq hsplit] at h
  split at h
  · nomatch h
  rename_i hscheme
  split at h
  · obtain ⟨n', hn, heq⟩ := Option.map_eq_some_iff.1 h
    obtain ⟨rfl, -⟩ := Prod.mk.inj heq
    exact .inl (parseName_qualified hn)
  split at h
  · nomatch h
  rename_i d' hd
  split at h
  · rename_i hname
    obtain ⟨rfl, rfl⟩ := Prod.mk.inj (Option.some.inj h)
    exact .inr ⟨rfl, digest, d', rfl, by rw [hname], not_not.1 hscheme, hd⟩
  · obtain ⟨n', hn, heq⟩ := Option.map_eq_some_iff.1 h
    obtain ⟨rfl, -⟩ := Prod.mk.inj heq
    exact .inl (parseName_qualified hn)

/-- What a digest only is parsed to. -/
theorem parseNameExtended_digest {digest : Bytes} {d : Digest} (hsplit : (splitExtended s).2 = ([], digest))
    (hscheme : schemeOf s ∈ supportedSchemes) (hd : parseDigest digest = .ok d) :
    parseNameExtended mask s = some ({}, some d) := by
  obtain ⟨scheme, hs⟩ : ∃ scheme, splitExtended s = (scheme, [], digest) := ⟨(splitExtended s).1, by rw [← hsplit]⟩
  have hne : digest ≠ [] := by
    rintro rfl
    nomatch hd
  rw [parseNameExtended_eq hs, if_neg (not_not.2 hscheme), if_neg hne, hd]
  rfl

/-! ## `ResolveLocal` -/

/-- The empty name is resolved to nothing. -/
theorem resolve_empty (sha : Bytes → Digest) (c : DiskCache) :
    c.resolve sha ({} : Name).string = (c, .error .invalidName) := rfl

theorem resolveLocal_panics_iff (sha : Bytes → Digest) (decode : Bytes → Option Manifest) (mask : Name) :
    (resolveLocal sha decode mask c s).2 = .panicked ↔ DigestOnly c s := by
  constructor
  · intro h
    rw [resolveLocal] at h
    split at h
    · nomatch h
    rename_i n d hparse
    split at h
    · nomatch h
    rename_i c' d' hd
    split at h
    · nomatch h
    rename_i data hdata
    have hpanic : ¬n.isFullyQualified = true := by
      intro hfq
      simp only [unmarshalManifest, hfq, not_true_eq_false, if_false] at h
      split at h <;> nomatch h
    rcases parseNameExtended_cases hparse with hfq | ⟨rfl, digest, d₀, rfl, hsplit, hscheme, hdigest⟩
    · exact absurd hfq hpanic
    · rw [localDigest] at hd
      split at hd
      · rename_i hvalid
        obtain ⟨rfl, hok⟩ := Prod.mk.inj hd
        obtain rfl := Except.ok.inj hok
        exact ⟨digest, d₀, hsplit, hscheme, hdigest, hvalid, by rw [hdata]; rfl⟩
      · rw [resolve_empty] at hd
        nomatch hd
  · rintro ⟨digest, d, hsplit, hscheme, hdigest, hvalid, hfile⟩
    obtain ⟨data, hdata⟩ := Option.isSome_iff_exists.1 hfile
    rw [resolveLocal, parseNameExtended_digest hsplit hscheme hdigest]
    simp only [localDigest, hvalid, if_true, hdata]
    rfl

/-- What `ResolveLocal` returns for a name that is fully qualified. -/
theorem resolveLocal_value {c' : DiskCache} {m : LocalManifest} :
    resolveLocal sha decode mask c s = (c', .value m) ↔
      ∃ n d d' , parseNameExtended mask s = some (n, d) ∧ n.isFullyQualified = true ∧
        localDigest sha c n d = (c', .ok d') ∧
        c'.blobs.lookup d' = some m.data ∧ decode m.data = some m.manifest ∧ m.name = n.string := by
  constructor
  · intro h
    rw [resolveLocal] at h
    split at h
    · nomatch h
    rename_i n d hparse
    split at h
    · nomatch h
    rename_i c₁ d' hd
    split at h
    · nomatch h
    rename_i data hdata
    obtain ⟨rfl, hvalue⟩ := Prod.mk.inj h
    rw [unmarshalManifest] at hvalue
    split at hvalue
    · nomatch hvalue
    rename_i hfq
    split at hvalue
    · nomatch hvalue
    rename_i manifest hdecode
    obtain rfl := Result.value.inj hvalue
    exact ⟨n, d, d', hparse, not_not.1 hfq, hd, hdata, hdecode, rfl⟩
  · rintro ⟨n, d, d', hparse, hfq, hd, hdata, hdecode, hname⟩
    rw [resolveLocal, hparse]
    simp only [hd, hdata, unmarshalManifest, hfq, not_true_eq_false, if_false, hdecode, ← hname]

/-! ## `Push` -/

theorem checkLayers_ok_iff {layers : List (Option Layer)} :
    (∃ ls, checkLayers c layers = .ok ls) ↔
      ∀ l ∈ layers, ∃ layer size, l = some layer ∧ c.get layer.digest = .ok size ∧ (size : Int) = layer.size := by
  induction layers with
  | nil => simp [checkLayers]
  | cons l layers ih =>
    rw [List.forall_mem_cons, ← ih]
    cases l with
    | none => simp [checkLayers]
    | some layer =>
      rw [checkLayers]
      cases hget : c.get layer.digest with
      | error err => simp [hget]
      | ok size =>
        by_cases hsize : (size : Int) = layer.size
        · cases hrest : checkLayers c layers <;> simp [hget, hsize, Except.map]
        · simp [hget, hsize]

/-- A model is complete if `ResolveLocal` returns its manifest, or panics on it, and the check of the layers passes. -/
theorem complete_of_value {c' : DiskCache} {m : LocalManifest} {ls : List Layer}
    (h : resolveLocal sha decode mask c s = (c', .value m)) (hlayers : checkLayers c' m.manifest.layers = .ok ls) :
    Complete sha decode mask c s := by
  obtain ⟨n, d, d', hparse, -, hd, hdata, hdecode, -⟩ := resolveLocal_value.1 h
  exact ⟨n, d, c', d', m.data, m.manifest, hparse, hd, hdata, hdecode, checkLayers_ok_iff.1 ⟨ls, hlayers⟩⟩

/-- `ResolveLocal` returns the manifest of a complete model, if it does not panic. -/
theorem value_of_complete (hpanic : (resolveLocal sha decode mask c s).2 ≠ .panicked)
    (h : Complete sha decode mask c s) :
    ∃ c' m ls, resolveLocal sha decode mask c s = (c', .value m) ∧ checkLayers c' m.manifest.layers = .ok ls := by
  obtain ⟨n, d, c', d', data, m, hparse, hd, hdata, hdecode, hlayers⟩ := h
  have hfq : n.isFullyQualified = true := by
    by_contra hfq
    refine hpanic ?_
    rw [resolveLocal, hparse]
    simp only [hd, hdata, unmarshalManifest, hfq]
    rfl
  obtain ⟨ls, hls⟩ := checkLayers_ok_iff.2 hlayers
  exact ⟨c', ⟨n.string, data, m⟩, ls, resolveLocal_value.2 ⟨n, d, d', hparse, hfq, hd, hdata, hdecode, rfl⟩, hls⟩

theorem push_panics_iff {send : Bytes → Bytes → Option Bytes} :
    (push sha decode mask send c name from_).2 = .panicked ↔
      DigestOnly c (source name from_) ∨ parseNameExtended mask name = none ∧
        Complete sha decode mask c (source name from_) := by
  rw [← resolveLocal_panics_iff sha decode mask]
  constructor
  · intro h
    rw [push] at h
    split at h
    · rename_i heq
      exact .inl (by rw [heq])
    · nomatch h
    rename_i c' m heq
    split at h
    · nomatch h
    rename_i ls hls
    split at h
    · rename_i hparse
      exact .inr ⟨hparse, complete_of_value heq hls⟩
    · split at h
      · nomatch h
      · split at h <;> nomatch h
  · rintro (h | ⟨hparse, h⟩)
    · rw [push]
      rcases heq : resolveLocal sha decode mask c (source name from_) with ⟨c', r⟩
      rw [heq] at h
      obtain rfl := h
      rfl
    · by_cases hpanic : (resolveLocal sha decode mask c (source name from_)).2 = .panicked
      · rw [push]
        rcases heq : resolveLocal sha decode mask c (source name from_) with ⟨c', r⟩
        rw [heq] at hpanic
        obtain rfl := hpanic
        rfl
      · obtain ⟨c', m, ls, heq, hls⟩ := value_of_complete hpanic h
        simp only [push, heq, hls, hparse]

theorem unlink_ne_panicked : (unlink mask c name).2 ≠ .panicked := by
  unfold unlink
  split
  · exact nofun
  · split <;> exact nofun

end PushAux

open PushAux in
/-- **The calls return exactly if neither name is the digest of a file in the cache and nothing else, and the name to
push to is valid where the model to push is complete.** -/
theorem registry_returns_iff (sha : Bytes → Digest) (decode : Bytes → Option Manifest) (mask : Name)
    (send : Bytes → Bytes → Option Bytes) (c : DiskCache) (name from_ : Bytes) :
    ((push sha decode mask send c name from_).2 ≠ .panicked ∧ (resolveLocal sha decode mask c name).2 ≠ .panicked ∧
        (unlink mask c name).2 ≠ .panicked) ↔
      ¬DigestOnly c name ∧ ¬DigestOnly c (source name from_) ∧
        ¬(parseNameExtended mask name = none ∧ Complete sha decode mask c (source name from_)) := by
  rw [Ne, push_panics_iff, Ne, resolveLocal_panics_iff, not_or]
  constructor
  · rintro ⟨⟨hsource, hname⟩, hlocal, -⟩
    exact ⟨hlocal, hsource, hname⟩
  · rintro ⟨hlocal, hsource, hname⟩
    exact ⟨⟨hsource, hname⟩, hlocal, unlink_ne_panicked⟩

/-! ## A digest only, and a name that is not looked at -/

/-- A cache with one file. -/
def oneBlob : DiskCache := ⟨[(⟨List.replicate 32 0xaa, by decide⟩, [0x7b, 0x7d])], []⟩

/-- The digest of the file. -/
def blobDigest : Bytes := ascii "@sha256:" ++ List.replicate 64 0x61

/-- `ResolveLocal` panics on the digest of the file, and `Push` on the empty name, if it takes the model from another
name. -/
theorem registry_panics : let sha : Bytes → Digest := fun _ => ⟨List.replicate 32 0xaa, by decide⟩
    let decode : Bytes → Option Manifest := fun _ => some ⟨[], none⟩
    (resolveLocal sha decode defaultMask oneBlob blobDigest).2 = .panicked ∧
      (push sha decode defaultMask (fun _ _ => none) oneBlob [] (ascii "m" ++ blobDigest)).2 = .panicked := by
  decide +kernel

end Ollama.Client
