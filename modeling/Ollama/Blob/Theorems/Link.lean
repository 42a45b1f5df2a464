import Ollama.Blob.Lemmas.Manifests
import Ollama.Names.Lemmas.Parse

/-!
# Link, then Resolve

`Link` copies the blob to the file of the name, and `Resolve` hashes what is in that file, up to `1 << 20` bytes. The
copy is skipped where the file has the size of the blob already: what is there may be another manifest of the same
size, and the name then keeps the digest it had. `resolve_linked_iff` says when a name that was linked is resolved to
the digest until it is linked or unlinked again.
-/

namespace Ollama.Blob

open Lib Utf8 Names

variable {sha : Bytes → Digest} {c c₁ : DiskCache}

/-- The runs from a cache on in which no call links or unlinks a name. -/
def untouched (sha : Bytes → Digest) (name : Bytes) (c₁ : DiskCache) : System DiskCache where
  init c := c = c₁
  step c c' := ∃ call : Call, ¬call.OfName name ∧ c' = call.run sha c

/-- A name without a digest is resolved to what is in its manifest. -/
theorem resolve_eq {name np p content : Bytes} (hnp : nameToPath name = .ok np) (hp : c.manifestPath name = .ok p)
    (hcontent : c.manifests.lookup p = some content) :
    (c.resolve sha name).2 = .ok (sha (content.take (1 <<< 20))) := by
  have hno : 0x40 ∉ name := by
    intro hmem
    rw [nameToPath, if_pos hmem] at hnp
    cases hnp
  have hcut : cutLastAny [0x40] name = none :=
    cutLastAny_eq_none_iff.2 (fun b hb hmem => hno (List.mem_singleton.1 hmem ▸ hb))
  have hsplit : splitNameDigest name = (name, []) := by rw [splitNameDigest, hcut]
  have hput : ∀ data : Bytes, (c.putBytes sha (sha data) data).2 = none := by
    intro data
    rw [DiskCache.putBytes, DiskCache.put]
    exact copyNamedFile_ofBytes (c.blobs.lookup (sha data)) data
  unfold DiskCache.resolve
  rw [hsplit]
  simp only [ne_eq, not_true_eq_false, if_false, hp, hcontent]
  rcases hres : c.putBytes sha (sha (content.take (1 <<< 20))) (content.take (1 <<< 20)) with ⟨c', _ | err⟩
  · rfl
  · have hnone := hput (content.take (1 <<< 20))
    rw [hres] at hnone
    cases hnone

/-- What a link leaves in the file of the name. -/
theorem link_eq_ok {name content : Bytes} {d : Digest} (hblob : c.blobs.lookup d = some content)
    (h : c.link sha name d = (c₁, none)) :
    ∃ np p file, nameToPath name = .ok np ∧ c.manifestPath name = .ok p ∧
      c₁ = { c with manifests := Assoc.set c.manifests p file } ∧
      ((c.manifests.lookup p = some file ∧ file.length = content.length) ∨
        (file = content ∧ ∀ old, c.manifests.lookup p = some old → old.length ≠ content.length)) := by
  unfold DiskCache.link at h
  cases hp : c.manifestPath name with
  | error err =>
    rw [hp] at h
    nomatch h
  | ok p =>
    obtain ⟨np, hnp⟩ := nameToPath_of_manifestPath hp
    rw [hp, hblob] at h
    rcases hcopy : copyNamedFile sha (c.manifests.lookup p) (.ofFile content) d content.length with ⟨file, err⟩
    simp only [hcopy] at h
    obtain ⟨hc₁, rfl⟩ := Prod.mk.inj h
    refine ⟨np, p, file, hnp, rfl, hc₁.symm, ?_⟩
    by_cases hold : ∃ old, c.manifests.lookup p = some old ∧ old.length = content.length
    · obtain ⟨old, hlookup, hlen⟩ := hold
      left
      rw [hlookup, copyNamedFile, if_pos (congrArg Nat.cast hlen)] at hcopy
      obtain ⟨rfl, _⟩ := Prod.mk.inj hcopy
      exact ⟨hlookup, hlen⟩
    · right
      refine ⟨?_, fun old hlookup hlen => hold ⟨old, hlookup, hlen⟩⟩
      rcases copyNamedFile_eq_ok hcopy with ⟨hlookup, hlen⟩ | ⟨hnil, hzero⟩ | ⟨hfile, _, _⟩
      · exact absurd ⟨file, hlookup, Int.ofNat_inj.1 hlen⟩ hold
      · rw [hnil, List.length_eq_zero_iff.1 (by omega : content.length = 0)]
      · rw [hfile, flatten_ofFile]

/-- What a link leaves has the digest if and only if `Resolve` reads all of it, and no other manifest of its size was
there. -/
theorem linked_digest_iff {sha : Bytes → Digest} {content file : Bytes} {d : Digest} {old : Option Bytes}
    (hdigest : sha content = d) (hsha : ∀ x, sha x = d → x = content)
    (hfile : (old = some file ∧ file.length = content.length) ∨
      (file = content ∧ ∀ f, old = some f → f.length ≠ content.length)) :
    sha (file.take (1 <<< 20)) = d ↔
      content.length ≤ 1 <<< 20 ∧ ∀ f, old = some f → f.length = content.length → f = content := by
  constructor
  · intro h
    have htake := hsha _ h
    have hlen : content.length ≤ 1 <<< 20 := by
      rw [← htake]
      exact List.length_take_le ..
    refine ⟨hlen, fun f hf hsize => ?_⟩
    rcases hfile with ⟨hsame, _⟩ | ⟨_, hother⟩
    · obtain rfl : file = f := Option.some.inj (hsame.symm.trans hf)
      rwa [List.take_of_length_le (hsize ▸ hlen)] at htake
    · exact absurd hsize (hother f hf)
  · rintro ⟨hlen, hold⟩
    have hcontent : file = content := by
      rcases hfile with ⟨hsame, hsize⟩ | ⟨hcopied, _⟩
      · exact hold file hsame hsize
      · exact hcopied
    rw [hcontent, List.take_of_length_le hlen, hdigest]

/-- After a link the manifest of the name is what the link left, as long as the name is not linked or unlinked. -/
theorem untouched_manifest (hc : CacheInv sha c₁) {name np p file : Bytes} (hnp : nameToPath name = .ok np)
    (hfold : equalFold (manifestFile np) p = true) (hfile : c₁.manifests.lookup p = some file) {c₂ : DiskCache}
    (h : (untouched sha name c₁).Reachable c₂) : CacheInv sha c₂ ∧ c₂.manifests.lookup p = some file := by
  apply h.invariant (I := fun c => CacheInv sha c ∧ c.manifests.lookup p = some file)
  · intro c h0
    obtain rfl : c = c₁ := h0
    exact ⟨hc, hfile⟩
  · intro c c' hI hstep
    obtain ⟨call, hcall, rfl⟩ := hstep
    refine ⟨cacheInv_run hI.1 call, ?_⟩
    rw [lookup_run hI.1 hnp hfold hcall]
    exact hI.2

/-- A name that was linked to a blob is resolved to its digest, in any case of letters, until it is linked or
unlinked, if and only if the blob is no longer than what `Resolve` reads and the name had no other manifest of the
same size. -/
theorem resolve_linked_iff (hc : (diskCache sha).Reachable c) {name content : Bytes} {d : Digest}
    (hblob : c.blobs.lookup d = some content) (hempty : content = [] → sha [] = d) (hsha : ∀ x, sha x = d → x = content)
    (hlink : c.link sha name d = (c₁, none)) :
    (∀ c₂, (untouched sha name c₁).Reachable c₂ → ∀ name', equalFold name name' = true →
      (c₂.resolve sha name').2 = .ok d) ↔
      content.length ≤ 1 <<< 20 ∧ ∀ p old, c.manifestPath name = .ok p → c.manifests.lookup p = some old →
        old.length = content.length → old = content := by
  have hinv := cacheInv_reachable hc
  have hdigest : sha content = d := by
    rcases hinv.blobs d content hblob with rfl | hsum
    · exact hempty rfl
    · exact hsum
  obtain ⟨np, p, file, hnp, hp, hc₁, hfile⟩ := link_eq_ok hblob hlink
  have hinv₁ : CacheInv sha c₁ := hc₁ ▸ hinv.setManifest hnp hp file
  have hlookup₁ : c₁.manifests.lookup p = some file := by
    rw [hc₁]
    dsimp only
    rw [Assoc.lookup_set, if_pos rfl]
  obtain ⟨p', hp', hfold, _⟩ := manifestPath_spec hinv hnp
  obtain rfl : p' = p := Except.ok.inj (hp'.symm.trans hp)
  -- what the name is resolved to in every later state
  have hresolve : ∀ c₂, (untouched sha name c₁).Reachable c₂ → ∀ name', equalFold name name' = true →
      (c₂.resolve sha name').2 = .ok (sha (file.take (1 <<< 20))) := by
    intro c₂ h₂ name' hname
    obtain ⟨hinv₂, hlookup₂⟩ := untouched_manifest hinv₁ hnp hfold hlookup₁ h₂
    obtain ⟨np', hnp', hfold'⟩ := nameToPath_fold hname hnp
    have hfold₂ := equalFold_trans (equalFold_symm (equalFold_manifestFile hfold')) hfold
    have hpath := manifestPath_eq hinv₂ hnp' (by rw [hlookup₂]; rfl) hfold₂
    exact resolve_eq hnp' hpath hlookup₂
  have hiff := linked_digest_iff hdigest hsha hfile
  constructor
  · intro h
    have hd := h c₁ (.init rfl) name (equalFold_refl name)
    rw [hresolve c₁ (.init rfl) name (equalFold_refl name)] at hd
    obtain ⟨hlen, hold⟩ := hiff.1 (Except.ok.inj hd)
    refine ⟨hlen, fun q old hq => ?_⟩
    obtain rfl : p' = q := Except.ok.inj (hp.symm.trans hq)
    exact hold old
  · rintro ⟨hlen, hold⟩ c₂ h₂ name' hname
    rw [hresolve c₂ h₂ name' hname, hiff.2 ⟨hlen, fun old => hold p' old hp⟩]

/-! ## Two blobs of one byte -/

/-- SHA-256 of `1` and of `2`, and something else for other contents. -/
def sha12 (content : Bytes) : Digest :=
  if content = [0x31] then ⟨
    [0x6b, 0x86, 0xb2, 0x73, 0xff, 0x34, 0xfc, 0xe1, 0x9d, 0x6b, 0x80, 0x4e, 0xff, 0x5a, 0x3f, 0x57,
    0x47, 0xad, 0xa4, 0xea, 0xa2, 0x2f, 0x1d, 0x49, 0xc0, 0x1e, 0x52, 0xdd, 0xb7, 0x87, 0x5b, 0x4b], by decide⟩
  else if content = [0x32] then ⟨
    [0xd4, 0x73, 0x5e, 0x3a, 0x26, 0x5e, 0x16, 0xee, 0xe0, 0x3f, 0x59, 0x71, 0x8b, 0x9b, 0x5d, 0x03,
    0x01, 0x9c, 0x07, 0xd8, 0xb6, 0xc5, 0x1f, 0x90, 0xda, 0x3a, 0x66, 0x6e, 0xec, 0x13, 0xab, 0x35], by decide⟩
  else ⟨List.replicate 32 0, by decide⟩

theorem sha12_one {x : Bytes} (h : sha12 x = sha12 [0x31]) : x = [0x31] := by
  unfold sha12 at h
  split at h
  · assumption
  · split at h
    · exact absurd h (by decide)
    · exact absurd h (by decide)

theorem sha12_two {x : Bytes} (h : sha12 x = sha12 [0x32]) : x = [0x32] := by
  unfold sha12 at h
  split at h
  · exact absurd h (by decide)
  · split at h
    · assumption
    · exact absurd h (by decide)

/-- The cache after `1` and `2` are put. -/
def twoBlobs : DiskCache :=
  (Call.put (sha12 [0x32]) (.ofBytes [0x32]) 1).run sha12
    ((Call.put (sha12 [0x31]) (.ofBytes [0x31]) 1).run sha12 .open_)

theorem twoBlobs_reachable : (diskCache sha12).Reachable twoBlobs := .step (.step (.init rfl) ⟨_, rfl⟩) ⟨_, rfl⟩

/-- The name `h/n/m:t` is linked to `1` for the first time, and resolved in another case of letters. -/
theorem resolve_linked_one :
    ((twoBlobs.link sha12 (ascii "h/n/m:t") (sha12 [0x31])).1.resolve sha12 (ascii "H/n/M:T")).2 =
      .ok (sha12 [0x31]) := by
  have hblob : twoBlobs.blobs.lookup (sha12 [0x31]) = some [0x31] := by decide +kernel
  have hlink : (twoBlobs.link sha12 (ascii "h/n/m:t") (sha12 [0x31])).2 = none := by decide +kernel
  refine (resolve_linked_iff twoBlobs_reachable hblob (fun h => nomatch h) (fun x => sha12_one) (Prod.ext rfl hlink)).2
    ⟨by decide, ?_⟩ _ (.init rfl) _ (by decide +kernel)
  intro p old _ hold
  have hnil : twoBlobs.manifests = [] := rfl
  rw [hnil, List.lookup_nil] at hold
  nomatch hold

/-- The cache after the name `h/n/m:t` is linked to `1`. -/
def linkedOne : DiskCache := (Call.link (ascii "h/n/m:t") (sha12 [0x31])).run sha12 twoBlobs

/-- The name is then linked to `2` without an error, and is resolved to the digest of `1`. -/
theorem link_keeps_manifest :
    (diskCache sha12).Reachable linkedOne ∧ linkedOne.blobs.lookup (sha12 [0x32]) = some [0x32] ∧
      (∀ x, sha12 x = sha12 [0x31] → x = [0x31]) ∧ (∀ x, sha12 x = sha12 [0x32] → x = [0x32]) ∧
      (linkedOne.link sha12 (ascii "h/n/m:t") (sha12 [0x32])).2 = none ∧
      ((linkedOne.link sha12 (ascii "h/n/m:t") (sha12 [0x32])).1.resolve sha12 (ascii "h/n/m:t")).2 =
        .ok (sha12 [0x31]) ∧
      sha12 [0x31] ≠ sha12 [0x32] :=
  ⟨.step twoBlobs_reachable ⟨_, rfl⟩,
    by decide +kernel, fun x => sha12_one, fun x => sha12_two, by decide +kernel, by decide +kernel,
    by decide +kernel⟩

end Ollama.Blob

/-!
## Blobs have their digest

A blob is written to its own file, and its digest is checked with the write that makes the size full. Whatever the
readers do, no file is left with a content of another digest: an error leaves an empty file, which stands for no blob.
-/

namespace Ollama.Blob

open Lib Utf8 Names

variable {sha : Bytes → Digest} {c : DiskCache}

/-- The runs of calls on a cache whose blobs are intact at first, an empty one among them. -/
def intactCache (sha : Bytes → Digest) : System DiskCache where
  init c := BlobsIntact sha c
  step c c' := ∃ call : Call, c' = call.run sha c

/-- After every run the blobs are intact, a `Put` of some bytes that returns no error leaves a file with its digest,
and one that returns an error leaves an empty file. -/
theorem blobs_intact (h : (intactCache sha).Reachable c) :
    BlobsIntact sha c ∧
    (∀ d r (size : Int), 0 < size → (c.put sha d r size).2 = none →
      ∃ content, (c.put sha d r size).1.blobs.lookup d = some content ∧ sha content = d) ∧
    (∀ d r (size : Int) err, 0 < size → (c.put sha d r size).2 = some err →
      (c.put sha d r size).1.blobs.lookup d = some []) := by
  have hc : BlobsIntact sha c := by
    apply h.invariant
    · exact fun c hc => hc
    · intro c c' hc hstep
      obtain ⟨call, rfl⟩ := hstep
      exact hc.run call
  refine ⟨hc, ?_, ?_⟩
  · intro d r size hsize hok
    rcases hcopy : copyNamedFile sha (c.blobs.lookup d) r d size with ⟨file, err⟩
    rw [DiskCache.put, hcopy] at hok ⊢
    obtain rfl : err = none := hok
    refine ⟨file, by rw [Assoc.lookup_set, if_pos rfl], ?_⟩
    rcases copyNamedFile_eq_ok hcopy with ⟨hold, hlen⟩ | ⟨_, hle⟩ | ⟨_, _, hsum⟩
    · -- the file was there with this size, which is not zero
      rcases hc d file hold with rfl | hsum
      · rw [List.length_nil] at hlen
        omega
      · exact hsum
    · omega
    · exact hsum
  · intro d r size err _ herr
    rcases hcopy : copyNamedFile sha (c.blobs.lookup d) r d size with ⟨file, err'⟩
    rw [DiskCache.put, hcopy] at herr ⊢
    obtain rfl : err' = some err := herr
    rw [Assoc.lookup_set, if_pos rfl, copyNamedFile_eq_error hcopy]

/-- In the cache with two blobs, a `Put` of `1` for the digest of `2` finds a file of the right size, and one of `22`
fails. -/
theorem blobs_intact_two :
    (∃ content, (twoBlobs.put sha12 (sha12 [0x32]) (.ofBytes [0x31]) 1).1.blobs.lookup (sha12 [0x32]) = some content ∧
      sha12 content = sha12 [0x32]) ∧
    (twoBlobs.put sha12 (sha12 [0x32]) (.ofBytes [0x32, 0x32]) 2).1.blobs.lookup (sha12 [0x32]) = some [] := by
  have hreach : (intactCache sha12).Reachable twoBlobs := .init (cacheInv_reachable twoBlobs_reachable).blobs
  exact ⟨(blobs_intact hreach).2.1 _ _ 1 (by decide) (by decide +kernel),
    (blobs_intact hreach).2.2 _ _ 2 .contentChanged (by decide) (by decide +kernel)⟩

end Ollama.Blob
