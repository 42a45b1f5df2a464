import Ollama.Ggml.Theorems.Totality
import Ollama.Lib.Orbit
import Ollama.Server.GgufLayers

/-!
# Blobs that are split right

The loop of `ggufLayers` goes on from where `Decode` ends, which may be before where it began, so that it may come to
the same place again and never end. A layer is read from its offset on with the end of its file for its length, so it
goes on past the end of the file where there is more: the first and the last file of a blob are read right, and no
file between them. `ggufLayers_splits_iff` says which blobs are split right.
-/

namespace Ollama.Server

open Lib Ggml

/-! ## Blobs -/

/-- The error is a panic. -/
def GgufErr.Panics : GgufErr → Prop
  | .decode err => err.Panics
  | .onlyGGUFSupported => False

/-- A file is decoded at an offset of the blob, and it ends at `n`. -/
def FileAt (maxAlloc : Option Nat) (blob : Bytes) (o : Nat) (f : Gguf) (n : Nat) : Prop :=
  o < blob.length ∧ decodeAt maxAlloc 0 o (blob.drop o) = .ok (f, n)

/-- Where the file at an offset ends. -/
def fileEnd (maxAlloc : Option Nat) (blob : Bytes) (o : Nat) : Option Nat :=
  if o < blob.length then (decodeAt maxAlloc 0 o (blob.drop o)).toOption.map Prod.snd else none

/-- The loop ends at an offset without an error: nothing is left, or `Decode` fails with `io.EOF`. -/
def StopsAtOffset (maxAlloc : Option Nat) (blob : Bytes) (o : Nat) : Prop :=
  blob.length ≤ o ∨ ∃ e, decodeAt maxAlloc 0 o (blob.drop o) = .error e ∧ isEOF e = true

/-- A value of a key is a text, if there is one. -/
def Texts (kv : List (Bytes × Value)) (key : Bytes) : Prop := HasType Value.string? kv key

/-- The type of a model is a text, and so is its architecture, unless it is an adapter. -/
def TypesOk (f : Gguf) : Prop :=
  Texts f.kv (ascii "general.type") ∧
    (f.kv.lookup (ascii "general.type") = some (.scalar (.string (ascii "adapter"))) ∨
    Texts f.kv (ascii "general.architecture"))

/-- The offsets begin with 0 and end with the size of the blob, they increase, and each but the last is that of a file
that ends at the next. -/
structure Concatenation (maxAlloc : Option Nat) (blob : Bytes) (os : List Nat) : Prop where
  first : os.head? = some 0
  last : os.getLast? = some blob.length
  files : List.IsChain (fun o n => o < n ∧ ∃ f, decodeAt maxAlloc 0 o (blob.drop o) = .ok (f, n)) os

/-- The bytes between the offsets. -/
def pieces (blob : Bytes) (os : List Nat) : List Bytes :=
  (os.zip os.tail).map (fun e => (blob.drop e.1).take (e.2 - e.1))

/-- The contents of the layers that have a model. -/
def modelContents (layers : List LayerGGML) : List Bytes :=
  (layers.filter (fun l => l.ggml.isSome)).map LayerGGML.content

/-- `ggufLayers` ends without a panic, and makes of a concatenation of files a layer of each. -/
structure Splits (maxAlloc : Option Nat) (sha : Bytes → Bytes) (digest path blob : Bytes)
    (named : Bytes → Option Named) : Prop where
  returns : ∃ fuel r, ggufLayers maxAlloc sha digest path blob named fuel = some r ∧ ∀ e, r = .error e → ¬e.Panics
  exact : ∀ os fuel layers, Concatenation maxAlloc blob os →
    ggufLayers maxAlloc sha digest path blob named fuel = some (.ok layers) → modelContents layers = pieces blob os

/-- What a blob is like that is split right. -/
structure Regular (maxAlloc : Option Nat) (blob : Bytes) : Prop where
  /-- from the beginning, one end after another, no offset comes twice -/
  progress : ∀ i j o, iter (fileEnd maxAlloc blob) i 0 = some o → iter (fileEnd maxAlloc blob) j 0 = some o → i = j
  /-- no file has a field that `Decode` cannot take -/
  files : ∀ i o, iter (fileEnd maxAlloc blob) i 0 = some o → o < blob.length → ¬BadFile maxAlloc 0 (blob.drop o)
  types : ∀ i o f n, iter (fileEnd maxAlloc blob) i 0 = some o → FileAt maxAlloc blob o f n → TypesOk f
  /-- if the loop ends without an error, the chat templates are texts -/
  templates : (∃ i o, iter (fileEnd maxAlloc blob) i 0 = some o ∧ StopsAtOffset maxAlloc blob o) →
    ∀ i o f n, iter (fileEnd maxAlloc blob) i 0 = some o → FileAt maxAlloc blob o f n →
    Texts f.kv (ascii "tokenizer.chat_template")
  /-- it is no concatenation of more than two files -/
  few : ∀ os, Concatenation maxAlloc blob os → os.length ≤ 3

namespace GgufLayersAux

variable {maxAlloc : Option Nat} {sha : Bytes → Bytes} {digest path blob : Bytes} {named : Bytes → Option Named}
variable {o n : Nat} {f : Gguf} {layers : List LayerGGML}

/-! ## Files -/

/-- A file ends where it is decoded to. -/
theorem fileEnd_eq_some : fileEnd maxAlloc blob o = some n ↔ ∃ f, FileAt maxAlloc blob o f n := by
  unfold fileEnd FileAt
  split
  · rename_i hlt
    cases hdecode : decodeAt maxAlloc 0 o (blob.drop o) with
    | error e => simp [Except.toOption]
    | ok r =>
      obtain ⟨f, n'⟩ := r
      simp [Except.toOption, hlt]
  · rename_i hle
    simp [hle]

/-- There is one file at an offset. -/
theorem fileAt_unique {f' : Gguf} {n' : Nat} (h : FileAt maxAlloc blob o f n) (h' : FileAt maxAlloc blob o f' n') :
    f = f' ∧ n = n' :=
  Prod.mk.inj (Except.ok.inj (h.2.symm.trans h'.2))

/-- The file at an offset ends where it ends. -/
theorem fileAt_end (h : FileAt maxAlloc blob o f n) : fileEnd maxAlloc blob o = some n := fileEnd_eq_some.2 ⟨f, h⟩

/-- Where the loop stops, there is no file. -/
theorem not_fileAt_of_stops (h : StopsAtOffset maxAlloc blob o) : ¬FileAt maxAlloc blob o f n := by
  rintro ⟨hlt, hdecode⟩
  rcases h with hle | ⟨e, he, -⟩
  · exact absurd hlt (Nat.not_lt.2 hle)
  · nomatch he.symm.trans hdecode

/-- The offsets that have a file are before the end of the blob. -/
theorem finite_fileEnd (maxAlloc : Option Nat) (blob : Bytes) : {o | (fileEnd maxAlloc blob o).isSome}.Finite := by
  refine (Set.finite_lt_nat blob.length).subset ?_
  intro o ho
  obtain ⟨n, hn⟩ := Option.isSome_iff_exists.1 ho
  obtain ⟨f, hf⟩ := fileEnd_eq_some.1 hn
  exact hf.1

/-! ## The keys -/

/-- A type assertion that panics is of a key whose value is no text. -/
theorem asserted_none {kv : List (Bytes × Value)} {key default : Bytes}
    (h : asserted Value.string? kv key default = none) :
    ¬Texts kv key := by
  intro htexts
  have hsome : (asserted Value.string? kv key default).isSome := asserted_isSome_iff.2 htexts
  rw [h] at hsome
  nomatch hsome

/-- A type assertion that does not panic is of a key whose value is a text, if there is one. -/
theorem asserted_texts {kv : List (Bytes × Value)} {key default s : Bytes}
    (h : asserted Value.string? kv key default = some s) :
    Texts kv key := asserted_isSome_iff.1 (by rw [h, Option.isSome_some])

/-- A file has a media type if its keys have their types. -/
theorem mediatype_ok {mt : Bytes} (h : mediatype f = .ok mt) : TypesOk f := by
  rw [mediatype, kind_eq] at h
  split at h
  · nomatch h
  rename_i kind hkind
  refine ⟨asserted_texts hkind, ?_⟩
  split at h
  · rename_i heq
    subst heq
    rcases asserted_eq_some hkind with hdefault | ⟨v, hv, has⟩
    · exact absurd hdefault (by decide)
    · rw [hv, Value.string?_eq_some has]
      exact .inl rfl
  · split at h
    · nomatch h
    · rename_i architecture harch
      exact .inr (asserted_texts harch)

/-- Where a file has none the type assertion panics. -/
theorem mediatype_error {e : Err} (h : mediatype f = .error e) : e.Panics ∧ ¬TypesOk f := by
  rw [mediatype, kind_eq] at h
  split at h
  · rename_i hnone
    obtain rfl := Except.error.inj h
    exact ⟨trivial, fun htypes => asserted_none hnone htypes.1⟩
  rename_i kind hkind
  split at h
  · cases h
  rename_i hne
  split at h
  · rename_i hnone
    obtain rfl := Except.error.inj h
    refine ⟨trivial, fun htypes => ?_⟩
    rcases htypes.2 with hadapter | harch
    · rw [asserted, hadapter] at hkind
      exact hne (Option.some.inj hkind).symm
    · exact asserted_none hnone harch
  · split at h <;> cases h

/-- The end of a file is no panic. -/
theorem not_panics_of_isEOF {e : Err} (h : isEOF e = true) : ¬e.Panics := by
  induction e with
  | wrapped _ e ih => exact ih h
  | eof => exact fun h => h
  | _ => nomatch h

/-! ## The loop -/

/-- From an offset on, the files end, none of them is bad, and their types are texts. -/
structure Sound (maxAlloc : Option Nat) (blob : Bytes) (o : Nat) : Prop where
  ends : Ends (fileEnd maxAlloc blob) o
  files : ∀ i a, iter (fileEnd maxAlloc blob) i o = some a → a < blob.length → ¬BadFile maxAlloc 0 (blob.drop a)
  types : ∀ i a f n, iter (fileEnd maxAlloc blob) i o = some a → FileAt maxAlloc blob a f n → TypesOk f

/-- The files from an offset on are the one there and those from its end on. -/
theorem sound_iff : Sound maxAlloc blob o ↔
    (o < blob.length → ¬BadFile maxAlloc 0 (blob.drop o)) ∧ ∀ f n, FileAt maxAlloc blob o f n →
      TypesOk f ∧ Sound maxAlloc blob n := by
  constructor
  · rintro ⟨hends, hfiles, htypes⟩
    refine ⟨hfiles 0 o rfl, fun f n hf => ⟨htypes 0 o f n rfl hf, hends.step (fileAt_end hf), ?_, ?_⟩⟩
    · exact fun i a ha => hfiles (i + 1) a (iter_next (fileAt_end hf) ha)
    · exact fun i a f' n' ha => htypes (i + 1) a f' n' (iter_next (fileAt_end hf) ha)
  · rintro ⟨hfile, hrest⟩
    have hsucc : ∀ {i a}, iter (fileEnd maxAlloc blob) (i + 1) o = some a →
        ∃ f n, FileAt maxAlloc blob o f n ∧ iter (fileEnd maxAlloc blob) i n = some a := by
      intro i a ha
      rw [iter] at ha
      obtain ⟨n, hn, ha⟩ := Option.bind_eq_some_iff.1 ha
      obtain ⟨f, hf⟩ := fileEnd_eq_some.1 hn
      exact ⟨f, n, hf, ha⟩
    refine ⟨ends_of_next fun n hn => ?_, fun i a ha => ?_, fun i a f n ha => ?_⟩
    · obtain ⟨f, hf⟩ := fileEnd_eq_some.1 hn
      exact (hrest f n hf).2.ends
    · cases i with
      | zero =>
        obtain rfl := Option.some.inj ha
        exact hfile
      | succ i =>
        obtain ⟨f, n, hf, ha⟩ := hsucc ha
        exact (hrest f n hf).2.files i a ha
    · cases i with
      | zero =>
        obtain rfl := Option.some.inj ha
        exact fun hf => (hrest f n hf).1
      | succ i =>
        obtain ⟨f', n', hf', ha⟩ := hsucc ha
        exact (hrest f' n' hf').2.types i a f n ha

/-- Decoding at an offset does not panic on a file that is not bad. -/
theorem decode_returns {e : Err} (hgood : ¬BadFile maxAlloc 0 (blob.drop o))
    (h : decodeAt maxAlloc 0 o (blob.drop o) = .error e) : ¬e.Panics :=
  (decodeAt_returns_iff maxAlloc 0 o (blob.drop o)).2 hgood e h

/-- The loop ends without a panic only where the files are sound. -/
theorem sound_of_splitLoop {fuel : Nat} {r : Except GgufErr (List LayerGGML)}
    (h : splitLoop maxAlloc sha digest path blob fuel o layers = some r) (hr : ∀ e, r = .error e → ¬e.Panics) :
    Sound maxAlloc blob o := by
  induction fuel generalizing o layers with
  | zero =>
    rw [splitLoop] at h
    split at h
    · nomatch h
    · rename_i hle
      exact sound_iff.2 ⟨fun hlt => absurd hlt hle, fun f n hf => absurd hf.1 hle⟩
  | succ fuel ih =>
    rw [splitLoop] at h
    split at h
    · rename_i hlt
      split at h
      · rename_i e he
        have hnot : ¬e.Panics := by
          split at h
          · rename_i heof
            exact not_panics_of_isEOF heof
          · exact hr _ (Option.some.inj h).symm
        refine sound_iff.2 ⟨fun _ hbad => ?_, fun f n hf => ?_⟩
        · refine absurd hbad ((decodeAt_returns_iff maxAlloc 0 o (blob.drop o)).1 fun e' he' => ?_)
          obtain rfl := Except.error.inj (he.symm.trans he')
          exact hnot
        · nomatch he.symm.trans hf.2
      · rename_i f n hdecode
        split at h
        · rename_i e he
          exact absurd (mediatype_error he).1 (hr _ (Option.some.inj h).symm)
        · rename_i mt hmt
          refine sound_iff.2 ⟨fun _ hbad => ?_, fun f' n' hf' => ?_⟩
          · refine absurd hbad ((decodeAt_returns_iff maxAlloc 0 o (blob.drop o)).1 fun e' he' => ?_)
            nomatch hdecode.symm.trans he'
          · obtain ⟨rfl, rfl⟩ := fileAt_unique ⟨hlt, hdecode⟩ hf'
            exact ⟨mediatype_ok hmt, ih h⟩
    · rename_i hle
      exact sound_iff.2 ⟨fun hlt => absurd hlt hle, fun f n hf => absurd hf.1 hle⟩

/-- Where the files are sound, the loop ends without a panic. -/
theorem splitLoop_of_sound (sha : Bytes → Bytes) (digest path : Bytes) (h : Sound maxAlloc blob o)
    (layers : List LayerGGML) :
    ∃ fuel r, splitLoop maxAlloc sha digest path blob fuel o layers = some r ∧ ∀ e, r = .error e → ¬e.Panics := by
  have hends := h.ends
  induction hends generalizing layers with
  | intro o _ ih =>
    by_cases hlt : o < blob.length
    · obtain ⟨hfile, hrest⟩ := sound_iff.1 h
      cases hdecode : decodeAt maxAlloc 0 o (blob.drop o) with
      | error e =>
        by_cases heof : isEOF e = true
        · exact ⟨1, .ok layers, by rw [splitLoop, if_pos hlt, hdecode]; simp only [heof, if_true], nofun⟩
        · refine ⟨1, .error (.decode e), by rw [splitLoop, if_pos hlt, hdecode]; simp only [heof]; rfl, ?_⟩
          rintro _ ⟨⟩
          exact decode_returns (hfile hlt) hdecode
      | ok r =>
        obtain ⟨f, n⟩ := r
        obtain ⟨htypes, hn⟩ := hrest f n ⟨hlt, hdecode⟩
        cases hmt : mediatype f with
        | error e => exact absurd htypes (mediatype_error hmt).2
        | ok mt =>
          obtain ⟨fuel, r, hr, hnot⟩ := ih n (fileAt_end ⟨hlt, hdecode⟩) hn
            (layers ++ [ggufLayer sha digest path blob o n mt f])
          refine ⟨fuel + 1, r, ?_, hnot⟩
          rw [splitLoop, if_pos hlt, hdecode]
          simp only [hmt, hr]
    · exact ⟨0, .ok layers, by rw [splitLoop, if_neg hlt], nofun⟩

/-- The files that the loop comes to, where it ends without an error. -/
inductive Files (maxAlloc : Option Nat) (blob : Bytes) : Nat → List (Nat × Gguf × Nat) → Prop
  | stop {o : Nat} (h : StopsAtOffset maxAlloc blob o) : Files maxAlloc blob o []
  | file {o n : Nat} {f : Gguf} {es : List (Nat × Gguf × Nat)} (h : FileAt maxAlloc blob o f n)
      (hrest : Files maxAlloc blob n es) :
    Files maxAlloc blob o ((o, f, n) :: es)

/-- The layer of a file. -/
def LayerOf (sha : Bytes → Bytes) (digest path blob : Bytes) (e : Nat × Gguf × Nat) (l : LayerGGML) : Prop :=
  ∃ mt, l = ggufLayer sha digest path blob e.1 e.2.2 mt e.2.1

/-- The layers are those of the files. -/
theorem files_of_splitLoop {fuel : Nat} {ls : List LayerGGML}
    (h : splitLoop maxAlloc sha digest path blob fuel o layers = some (.ok ls)) :
    ∃ es ls', Files maxAlloc blob o es ∧ ls = layers ++ ls' ∧ List.Forall₂ (LayerOf sha digest path blob) es ls' := by
  induction fuel generalizing o layers with
  | zero =>
    rw [splitLoop] at h
    split at h
    · nomatch h
    · rename_i hle
      obtain rfl := Except.ok.inj (Option.some.inj h)
      exact ⟨[], [], .stop (.inl (Nat.not_lt.1 hle)), (List.append_nil _).symm, .nil⟩
  | succ fuel ih =>
    rw [splitLoop] at h
    split at h
    · rename_i hlt
      split at h
      · rename_i e he
        split at h
        · rename_i heof
          obtain rfl := Except.ok.inj (Option.some.inj h)
          exact ⟨[], [], .stop (.inr ⟨e, he, heof⟩), (List.append_nil _).symm, .nil⟩
        · nomatch Option.some.inj h
      · rename_i f n hdecode
        split at h
        · nomatch Option.some.inj h
        · rename_i mt hmt
          obtain ⟨es, ls', hes, rfl, hall⟩ := ih h
          exact ⟨(o, f, n) :: es, _ :: ls', .file ⟨hlt, hdecode⟩ hes, (List.append_assoc ..), .cons ⟨mt, rfl⟩ hall⟩
    · rename_i hle
      obtain rfl := Except.ok.inj (Option.some.inj h)
      exact ⟨[], [], .stop (.inl (Nat.not_lt.1 hle)), (List.append_nil _).symm, .nil⟩

/-- Where the loop fails, it does not stop. -/
theorem not_stops_of_splitLoop {fuel : Nat} {e : GgufErr}
    (h : splitLoop maxAlloc sha digest path blob fuel o layers = some (.error e)) (he : ¬e.Panics) {i a : Nat}
    (ha : iter (fileEnd maxAlloc blob) i o = some a) : ¬StopsAtOffset maxAlloc blob a := by
  induction fuel generalizing o layers i with
  | zero =>
    rw [splitLoop] at h
    split at h
    · cases h
    · cases Option.some.inj h
  | succ fuel ih =>
    rw [splitLoop] at h
    split at h
    · rename_i hlt
      split at h
      · rename_i e' he'
        split at h
        · cases Option.some.inj h
        · rename_i heof
          cases i with
          | zero =>
            obtain rfl := Option.some.inj ha
            rintro (hle | ⟨e'', he'', heof'⟩)
            · exact absurd hlt (Nat.not_lt.2 hle)
            · obtain rfl := Except.error.inj (he'.symm.trans he'')
              exact heof heof'
          | succ i =>
            rw [iter] at ha
            obtain ⟨n, hn, -⟩ := Option.bind_eq_some_iff.1 ha
            obtain ⟨f, hf⟩ := fileEnd_eq_some.1 hn
            cases he'.symm.trans hf.2
      · rename_i f n hdecode
        split at h
        · rename_i e' he'
          obtain rfl := Except.error.inj (Option.some.inj h)
          exact absurd (mediatype_error he').1 he
        · cases i with
          | zero =>
            obtain rfl := Option.some.inj ha
            exact fun hstops => not_fileAt_of_stops hstops ⟨hlt, hdecode⟩
          | succ i =>
            rw [iter, fileAt_end ⟨hlt, hdecode⟩, Option.bind_some] at ha
            exact ih h ha
    · cases Option.some.inj h

/-- The files are those at the offsets that the ends lead to. -/
theorem files_mem_iff {es : List (Nat × Gguf × Nat)} (h : Files maxAlloc blob o es) (a : Nat) (f : Gguf) (n : Nat) :
    (a, f, n) ∈ es ↔ FileAt maxAlloc blob a f n ∧ ∃ i, iter (fileEnd maxAlloc blob) i o = some a := by
  induction h with
  | stop hstops =>
    refine iff_of_false List.not_mem_nil ?_
    rintro ⟨hf, i, hi⟩
    cases i with
    | zero =>
      obtain rfl := Option.some.inj hi
      exact not_fileAt_of_stops hstops hf
    | succ i =>
      rw [iter] at hi
      obtain ⟨n', hn', -⟩ := Option.bind_eq_some_iff.1 hi
      obtain ⟨f', hf'⟩ := fileEnd_eq_some.1 hn'
      exact not_fileAt_of_stops hstops hf'
  | @file o n₀ f₀ es hf₀ _ ih =>
    rw [List.mem_cons, ih]
    constructor
    · rintro (heq | ⟨hf, i, hi⟩)
      · obtain ⟨rfl, hfile⟩ := Prod.mk.inj heq
        obtain ⟨rfl, rfl⟩ := Prod.mk.inj hfile
        exact ⟨hf₀, 0, rfl⟩
      · exact ⟨hf, i + 1, iter_next (fileAt_end hf₀) hi⟩
    · rintro ⟨hf, i, hi⟩
      cases i with
      | zero =>
        obtain rfl := Option.some.inj hi
        obtain ⟨rfl, rfl⟩ := fileAt_unique hf₀ hf
        exact .inl rfl
      | succ i =>
        rw [iter, fileAt_end hf₀, Option.bind_some] at hi
        exact .inr ⟨hf, i, hi⟩

/-- Where the loop ends without an error, the ends lead to where it stops. -/
theorem stops_of_files {es : List (Nat × Gguf × Nat)} (h : Files maxAlloc blob o es) :
    ∃ i a, iter (fileEnd maxAlloc blob) i o = some a ∧ StopsAtOffset maxAlloc blob a := by
  induction h with
  | @stop o hstops => exact ⟨0, o, rfl, hstops⟩
  | file hf _ ih =>
    obtain ⟨i, a, ha, hstops⟩ := ih
    exact ⟨i + 1, a, iter_next (fileAt_end hf) ha, hstops⟩

/-! ## The templates -/

/-- The layers of a template are no models. -/
theorem ggml_templateLayers (s : Bytes) : ∀ l ∈ templateLayers sha named s, l.ggml = none := by
  intro l hl
  rw [templateLayers] at hl
  split at hl
  · nomatch hl
  · split at hl
    · nomatch hl
    · rename_i t _
      rcases List.mem_cons.1 hl with rfl | hl
      · rfl
      · cases hparams : t.parameters with
        | none =>
          rw [hparams] at hl
          nomatch hl
        | some b =>
          rw [hparams] at hl
          obtain rfl := List.mem_singleton.1 hl
          rfl

/-- The layers that are appended have no model. -/
theorem detect_ok {todo ls : List LayerGGML} (h : detectChatTemplate sha named todo layers = .ok ls) :
    (∀ l ∈ todo, ∃ f, l.ggml = some f ∧ Texts f.kv (ascii "tokenizer.chat_template")) ∧
      ∃ extra, ls = layers ++ extra ∧ ∀ l ∈ extra, l.ggml = none := by
  induction todo generalizing layers with
  | nil =>
    obtain rfl := Except.ok.inj h
    exact ⟨nofun, [], (List.append_nil _).symm, nofun⟩
  | cons l todo ih =>
    rw [detectChatTemplate] at h
    split at h
    · nomatch h
    rename_i f hf
    split at h
    · nomatch h
    rename_i s hs
    rw [chatTemplate_eq] at hs
    obtain ⟨htodo, extra, rfl, hextra⟩ := ih h
    refine ⟨List.forall_mem_cons.2 ⟨⟨f, hf, asserted_texts hs⟩, htodo⟩, _, List.append_assoc .., ?_⟩
    intro l' hl'
    rcases List.mem_append.1 hl' with hl' | hl'
    · exact ggml_templateLayers s l' hl'
    · exact hextra l' hl'

/-- A template is detected in layers whose templates are texts. -/
theorem detect_of_texts (sha : Bytes → Bytes) (named : Bytes → Option Named) {todo : List LayerGGML}
    (h : ∀ l ∈ todo, ∃ f, l.ggml = some f ∧ Texts f.kv (ascii "tokenizer.chat_template")) (layers : List LayerGGML) :
    ∃ ls, detectChatTemplate sha named todo layers = .ok ls := by
  induction todo generalizing layers with
  | nil => exact ⟨layers, rfl⟩
  | cons l todo ih =>
    obtain ⟨⟨f, hf, htexts⟩, htodo⟩ := List.forall_mem_cons.1 h
    cases hs : chatTemplate f.kv with
    | none =>
      rw [chatTemplate_eq] at hs
      exact absurd htexts (asserted_none hs)
    | some s =>
      obtain ⟨ls, hls⟩ := ih htodo (layers ++ templateLayers sha named s)
      refine ⟨ls, ?_⟩
      rw [detectChatTemplate, hf]
      simp only [hs, hls]

/-- It fails with a panic only, on layers that have models. -/
theorem detect_error {todo : List LayerGGML} {e : GgufErr}
    (h : detectChatTemplate sha named todo layers = .error e) : e.Panics := by
  induction todo generalizing layers with
  | nil => nomatch h
  | cons l todo ih =>
    rw [detectChatTemplate] at h
    split at h
    · obtain rfl := Except.error.inj h
      exact trivial
    rename_i f hf
    split at h
    · obtain rfl := Except.error.inj h
      exact trivial
    · exact ih h

/-! ## The layers -/

/-- The layer of a file has the file. -/
theorem ggml_ggufLayer (o n : Nat) (mt : Bytes) (f : Gguf) :
    (ggufLayer sha digest path blob o n mt f).ggml = some f := by
  rw [ggufLayer]
  split
  · rfl
  · rfl

/-- What is read for a file. -/
def contentOf (digest blob : Bytes) (o n : Nat) : Bytes :=
  if digest ≠ [] ∧ n = blob.length ∧ o = 0 then blob else (blob.drop o).take n

/-- The layer of a file has its bytes. -/
theorem content_ggufLayer (o n : Nat) (mt : Bytes) (f : Gguf) :
    (ggufLayer sha digest path blob o n mt f).content = contentOf digest blob o n := by
  rw [ggufLayer, contentOf]
  split
  · rfl
  · rfl

/-- The layers of files have their models, and the contents that were read. -/
theorem layers_of_files {es : List (Nat × Gguf × Nat)} {ls : List LayerGGML}
    (h : List.Forall₂ (LayerOf sha digest path blob) es ls) :
    ls.map LayerGGML.ggml = es.map (fun e => some e.2.1) ∧
      ls.map LayerGGML.content = es.map (fun e => contentOf digest blob e.1 e.2.2) := by
  induction h with
  | nil => exact ⟨rfl, rfl⟩
  | cons hl _ ih =>
    obtain ⟨mt, rfl⟩ := hl
    rw [List.map_cons, List.map_cons, List.map_cons, List.map_cons, ih.1, ih.2, ggml_ggufLayer, content_ggufLayer]
    exact ⟨rfl, rfl⟩

/-- A result of `ggufLayers` is that of its loop, and of the templates. -/
theorem ggufLayers_ok {fuel : Nat} {ls : List LayerGGML}
    (h : ggufLayers maxAlloc sha digest path blob named fuel = some (.ok ls)) :
    ∃ es, Files maxAlloc blob 0 es ∧ (∀ e ∈ es, Texts e.2.1.kv (ascii "tokenizer.chat_template")) ∧
      modelContents ls = es.map (fun e => contentOf digest blob e.1 e.2.2) := by
  rw [ggufLayers] at h
  split at h
  · obtain ⟨r, hr, heq⟩ := Option.map_eq_some_iff.1 h
    cases r with
    | error e => nomatch heq
    | ok layers =>
      obtain ⟨es, ls', hes, hls', hall⟩ := files_of_splitLoop hr
      obtain rfl : layers = ls' := by rw [hls', List.nil_append]
      obtain ⟨htexts, extra, rfl, hextra⟩ := detect_ok heq
      obtain ⟨hggml, hcontent⟩ := layers_of_files hall
      refine ⟨es, hes, fun e he => ?_, ?_⟩
      · have hmem : some e.2.1 ∈ layers.map LayerGGML.ggml := by
          rw [hggml]
          exact List.mem_map.2 ⟨e, he, rfl⟩
        obtain ⟨l, hl, hle⟩ := List.mem_map.1 hmem
        obtain ⟨f, hf, hchat⟩ := htexts l hl
        obtain rfl := Option.some.inj (hle.symm.trans hf)
        exact hchat
      · have hlayers : layers.filter (fun l => l.ggml.isSome) = layers := by
          refine List.filter_eq_self.2 fun l hl => ?_
          obtain ⟨f, hf, -⟩ := htexts l hl
          rw [hf]
          rfl
        have hnone : extra.filter (fun l => l.ggml.isSome) = [] := by
          refine List.filter_eq_nil_iff.2 fun l hl => ?_
          rw [hextra l hl]
          exact nofun
        rw [modelContents, List.filter_append, hlayers, hnone, List.append_nil, hcontent]
  · nomatch Option.some.inj h

/-- `ggufLayers` ends without a panic where the files are sound and, if the loop ends without an error, have texts for
templates. -/
theorem returns_iff (hgguf : isGGUF blob = true) :
    (∃ fuel r, ggufLayers maxAlloc sha digest path blob named fuel = some r ∧ ∀ e, r = .error e → ¬e.Panics) ↔
      Sound maxAlloc blob 0 ∧ ((∃ i o, iter (fileEnd maxAlloc blob) i 0 = some o ∧ StopsAtOffset maxAlloc blob o) →
        ∀ i o f n, iter (fileEnd maxAlloc blob) i 0 = some o → FileAt maxAlloc blob o f n →
          Texts f.kv (ascii "tokenizer.chat_template")) := by
  constructor
  · rintro ⟨fuel, r, hr, hnot⟩
    cases r with
    | ok ls =>
      obtain ⟨es, hes, htexts, -⟩ := ggufLayers_ok hr
      rw [ggufLayers, if_pos hgguf] at hr
      obtain ⟨r', hr', heq⟩ := Option.map_eq_some_iff.1 hr
      cases r' with
      | error e => nomatch heq
      | ok layers =>
        refine ⟨sound_of_splitLoop hr' nofun, fun _ i o f n ho hf => ?_⟩
        exact htexts (o, f, n) ((files_mem_iff hes o f n).2 ⟨hf, i, ho⟩)
    | error e =>
      have hnot := hnot e rfl
      rw [ggufLayers, if_pos hgguf] at hr
      obtain ⟨r', hr', heq⟩ := Option.map_eq_some_iff.1 hr
      cases r' with
      | error e' =>
        obtain rfl := Except.error.inj heq
        refine ⟨sound_of_splitLoop hr' fun e he => Except.error.inj he ▸ hnot, ?_⟩
        rintro ⟨i, o, ho, hstops⟩
        exact absurd hstops (not_stops_of_splitLoop hr' hnot ho)
      | ok layers => exact absurd (detect_error heq) hnot
  · rintro ⟨hsound, htexts⟩
    obtain ⟨fuel, r, hr, hnot⟩ := splitLoop_of_sound sha digest path hsound []
    cases r with
    | error e =>
      refine ⟨fuel, .error e, ?_, hnot⟩
      rw [ggufLayers, if_pos hgguf, hr, Option.map_some]
    | ok layers =>
      obtain ⟨es, ls', hes, hls', hall⟩ := files_of_splitLoop hr
      obtain rfl : layers = ls' := by rw [hls', List.nil_append]
      have hchat : ∀ l ∈ layers, ∃ f, l.ggml = some f ∧ Texts f.kv (ascii "tokenizer.chat_template") := by
        intro l hl
        have hmem : l.ggml ∈ layers.map LayerGGML.ggml := List.mem_map.2 ⟨l, hl, rfl⟩
        rw [(layers_of_files hall).1] at hmem
        obtain ⟨⟨o, f, n⟩, he, hle⟩ := List.mem_map.1 hmem
        obtain ⟨hf, i, ho⟩ := (files_mem_iff hes o f n).1 he
        exact ⟨f, hle.symm, htexts (stops_of_files hes) i o f n ho hf⟩
      obtain ⟨ls, hls⟩ := detect_of_texts sha named hchat layers
      refine ⟨fuel, .ok ls, ?_, nofun⟩
      rw [ggufLayers, if_pos hgguf, hr, Option.map_some]
      exact congrArg some hls

/-! ## Concatenations -/

/-- The offsets increase to the last one. -/
theorem le_last {a : Nat} {os : List Nat}
    (h : List.IsChain (fun o n => o < n ∧ ∃ f, decodeAt maxAlloc 0 o (blob.drop o) = .ok (f, n)) (a :: os))
    (hlast : (a :: os).getLast? = some blob.length) : a ≤ blob.length := by
  induction os generalizing a with
  | nil =>
    obtain rfl := Option.some.inj hlast
    exact Nat.le_refl _
  | cons b os ih =>
    obtain ⟨⟨hlt, -⟩, hrest⟩ := List.isChain_cons_cons.1 h
    rw [List.getLast?_cons_cons] at hlast
    exact Nat.le_trans (Nat.le_of_lt hlt) (ih hrest hlast)

/-- The files that the loop comes to are those of the concatenation, and their ends lead to the end of the blob. -/
theorem files_of_chain {a : Nat} {os : List Nat}
    (h : List.IsChain (fun o n => o < n ∧ ∃ f, decodeAt maxAlloc 0 o (blob.drop o) = .ok (f, n)) (a :: os))
    (hlast : (a :: os).getLast? = some blob.length) :
    (∃ i, iter (fileEnd maxAlloc blob) i a = some blob.length) ∧
      ∀ es, Files maxAlloc blob a es → es.map (fun e => (e.1, e.2.2)) = (a :: os).zip os := by
  induction os generalizing a with
  | nil =>
    obtain rfl := Option.some.inj hlast
    refine ⟨⟨0, rfl⟩, fun es hes => ?_⟩
    cases hes with
    | stop _ => rfl
    | file hf _ => exact absurd hf.1 (Nat.lt_irrefl _)
  | cons b os ih =>
    obtain ⟨⟨hlt, f, hdecode⟩, hrest⟩ := List.isChain_cons_cons.1 h
    rw [List.getLast?_cons_cons] at hlast
    have hf : FileAt maxAlloc blob a f b := ⟨Nat.lt_of_lt_of_le hlt (le_last hrest hlast), hdecode⟩
    obtain ⟨⟨i, hi⟩, hfiles⟩ := ih hrest hlast
    refine ⟨⟨i + 1, iter_next (fileAt_end hf) hi⟩, fun es hes => ?_⟩
    cases hes with
    | stop hstops => exact absurd hf (not_fileAt_of_stops hstops)
    | file hf' hes' =>
      obtain ⟨rfl, rfl⟩ := fileAt_unique hf hf'
      rw [List.map_cons, hfiles _ hes', List.zip_cons_cons]

/-- The contents that are read of a concatenation. -/
theorem contents_of_concatenation {os : List Nat} (h : Concatenation maxAlloc blob os)
    {es : List (Nat × Gguf × Nat)} (hes : Files maxAlloc blob 0 es) :
    es.map (fun e => contentOf digest blob e.1 e.2.2) =
      (os.zip os.tail).map (fun e => contentOf digest blob e.1 e.2) := by
  obtain ⟨hfirst, hlast, hfiles⟩ := h
  cases os with
  | nil => nomatch hfirst
  | cons a os =>
    obtain rfl := Option.some.inj hfirst
    rw [List.tail_cons, ← (files_of_chain hfiles hlast).2 es hes, List.map_map]
    rfl

/-- At most two files of a concatenation are read right: the bytes from the first on, and those to the end. -/
theorem pieces_of_few {os : List Nat} (h : Concatenation maxAlloc blob os) (hfew : os.length ≤ 3) :
    (os.zip os.tail).map (fun e => contentOf digest blob e.1 e.2) = pieces blob os := by
  obtain ⟨hfirst, hlast, hfiles⟩ := h
  rw [pieces]
  refine List.map_congr_left fun e he => ?_
  match os with
  | [] => nomatch he
  | [a] => nomatch he
  | [a, b] =>
    obtain rfl := Option.some.inj hfirst
    obtain rfl := Option.some.inj hlast
    obtain rfl := List.mem_singleton.1 he
    rw [contentOf]
    split <;> simp
  | [a, b, c] =>
    obtain rfl := Option.some.inj hfirst
    obtain rfl := Option.some.inj hlast
    obtain ⟨⟨hb, -⟩, hrest⟩ := List.isChain_cons_cons.1 hfiles
    obtain ⟨⟨hc, -⟩, -⟩ := List.isChain_cons_cons.1 hrest
    rcases List.mem_cons.1 he with rfl | he
    · rw [contentOf, if_neg (by simp only; omega)]
      rfl
    · obtain rfl := List.mem_singleton.1 he
      rw [contentOf, if_neg (by simp only; omega), List.take_of_length_le (by rw [List.length_drop]; omega),
        List.take_of_length_le (by rw [List.length_drop])]
  | _ :: _ :: _ :: _ :: _ =>
    simp only [List.length_cons] at hfew
    omega

/-- Of more than two files, the second is read past its end. -/
theorem pieces_of_many {os : List Nat} (h : Concatenation maxAlloc blob os) (hmany : ¬os.length ≤ 3) :
    (os.zip os.tail).map (fun e => contentOf digest blob e.1 e.2) ≠ pieces blob os := by
  obtain ⟨hfirst, hlast, hfiles⟩ := h
  match os with
  | [] | [_] | [_, _] | [_, _, _] => exact absurd (by simp) hmany
  | a :: b :: c :: d :: os =>
    obtain rfl := Option.some.inj hfirst
    obtain ⟨⟨hb, -⟩, hfiles⟩ := List.isChain_cons_cons.1 hfiles
    obtain ⟨⟨hc, -⟩, hfiles⟩ := List.isChain_cons_cons.1 hfiles
    obtain ⟨⟨hd, -⟩, hfiles⟩ := List.isChain_cons_cons.1 hfiles
    have hle := le_last hfiles (by simpa using hlast)
    intro heq
    have hsecond := congrArg (fun l => (l[1]?).map List.length) heq
    simp only [pieces, List.tail_cons, List.zip_cons_cons, List.map_cons, List.getElem?_cons_succ,
      List.getElem?_cons_zero, Option.map_some, Option.some.injEq, contentOf] at hsecond
    rw [if_neg (by omega), List.length_take, List.length_take, List.length_drop] at hsecond
    omega

end GgufLayersAux

open GgufLayersAux in
/-- **A blob is split right, without a panic, exactly if it is no GGUF blob, or if the ends of its files do not come
to an offset twice, no file is bad, the keys that are read are texts, and it is no concatenation of more than two
files.** -/
theorem ggufLayers_splits_iff (maxAlloc : Option Nat) (sha : Bytes → Bytes) (digest path blob : Bytes)
    (named : Bytes → Option Named) :
    Splits maxAlloc sha digest path blob named ↔ (isGGUF blob = true → Regular maxAlloc blob) := by
  constructor
  · rintro ⟨hreturns, hexact⟩ hgguf
    obtain ⟨hsound, htexts⟩ := (returns_iff hgguf).1 hreturns
    refine ⟨(ends_iff (finite_fileEnd maxAlloc blob) 0).1 hsound.ends, hsound.files, hsound.types, htexts,
      fun os hos => ?_⟩
    by_contra hmany
    obtain ⟨fuel, r, hr, hnot⟩ := hreturns
    cases r with
    | ok ls =>
      obtain ⟨es, hes, -, hcontents⟩ := ggufLayers_ok hr
      have heq := hexact os fuel ls hos hr
      rw [hcontents, contents_of_concatenation hos hes] at heq
      exact pieces_of_many hos hmany heq
    | error e =>
      have hnot := hnot e rfl
      rw [ggufLayers, if_pos hgguf] at hr
      obtain ⟨r', hr', heq⟩ := Option.map_eq_some_iff.1 hr
      cases r' with
      | error e' =>
        obtain rfl := Except.error.inj heq
        obtain ⟨hfirst, hlast, hfiles⟩ := hos
        cases os with
        | nil => nomatch hfirst
        | cons a os =>
          obtain rfl := Option.some.inj hfirst
          obtain ⟨i, hi⟩ := (files_of_chain hfiles hlast).1
          exact not_stops_of_splitLoop hr' hnot hi (.inl (Nat.le_refl _))
      | ok layers => exact absurd (detect_error heq) hnot
  · intro hregular
    by_cases hgguf : isGGUF blob = true
    · obtain ⟨hprogress, hfiles, htypes, htexts, hfew⟩ := hregular hgguf
      have hsound : Sound maxAlloc blob 0 := ⟨(ends_iff (finite_fileEnd maxAlloc blob) 0).2 hprogress, hfiles, htypes⟩
      refine ⟨(returns_iff hgguf).2 ⟨hsound, htexts⟩, fun os fuel ls hos hok => ?_⟩
      obtain ⟨es, hes, -, hcontents⟩ := ggufLayers_ok hok
      rw [hcontents, contents_of_concatenation hos hes, pieces_of_few hos (hfew os hos)]
    · refine ⟨⟨0, .error .onlyGGUFSupported, by rw [ggufLayers, if_neg hgguf], ?_⟩, fun os fuel ls _ hok => ?_⟩
      · rintro _ ⟨⟩
        exact fun h => h
      · rw [ggufLayers, if_neg hgguf] at hok
        nomatch Option.some.inj hok

/-! ## Three files, a file that ends where it begins, and a key that cannot be allocated -/

/-- A file without keys and tensors. -/
def emptyFile : Bytes := ascii "GGUF" ++ le 4 3 ++ le 8 0 ++ le 8 0

/-- Three of them. -/
def threeFiles : Bytes := emptyFile ++ emptyFile ++ emptyFile

/-- A file with a tensor of -64 bytes, whose data begins at 64. -/
def backwards : Bytes :=
  ascii "GGUF" ++ le 4 3 ++ le 8 1 ++ le 8 0 ++ (le 8 0 ++ le 4 1 ++ le 8 (2 ^ 64 - 64) ++ le 4 24 ++ le 8 0)

/-- A file with a key of 2^62 bytes. -/
def longKey : Bytes := ascii "GGUF" ++ le 4 3 ++ le 8 0 ++ le 8 1 ++ le 8 (2 ^ 62)

/-- With 2^48 bytes to allocate, the second layer of the three files has the third file too, the loop never gets past
the file that ends where it begins, and the key that is longer panics. -/
theorem ggufLayers_not_split : ¬Splits (some (2 ^ 48)) (fun _ => []) (ascii "d") [] threeFiles (fun _ => none) ∧
    ¬Splits (some (2 ^ 48)) (fun _ => []) (ascii "d") [] backwards (fun _ => none) ∧
    ¬Splits (some (2 ^ 48)) (fun _ => []) (ascii "d") [] longKey (fun _ => none) := by
  refine ⟨?_, ?_, ?_⟩
  · intro h
    have hdecode : ∀ o ∈ [0, 24, 48], ∃ f, decodeAt (some (2 ^ 48)) 0 o (threeFiles.drop o) = .ok (f, o + 24) := by
      intro o ho
      have hend : ∀ o ∈ [0, 24, 48], fileEnd (some (2 ^ 48)) threeFiles o = some (o + 24) := by decide +kernel
      obtain ⟨f, hf⟩ := GgufLayersAux.fileEnd_eq_some.1 (hend o ho)
      exact ⟨f, hf.2⟩
    have hconcat : Concatenation (some (2 ^ 48)) threeFiles [0, 24, 48, 72] := by
      refine ⟨rfl, rfl, ?_⟩
      refine .cons_cons ⟨by decide, hdecode 0 (by decide)⟩ (.cons_cons ⟨by decide, hdecode 24 (by decide)⟩ ?_)
      exact .cons_cons ⟨by decide, hdecode 48 (by decide)⟩ (.singleton _)
    have hcontents : (ggufLayers (some (2 ^ 48)) (fun _ => []) (ascii "d") [] threeFiles (fun _ => none) 3).map
        (fun r => r.toOption.map modelContents) = some (some [emptyFile, emptyFile ++ emptyFile, emptyFile]) := by
          decide +kernel
    obtain ⟨r, hr, hls⟩ := Option.map_eq_some_iff.1 hcontents
    cases r with
    | error e => nomatch hls
    | ok ls =>
      have heq := h.exact _ 3 ls hconcat hr
      rw [Option.some.inj hls] at heq
      revert heq
      decide +kernel
  · intro h
    have hend : fileEnd (some (2 ^ 48)) backwards 0 = some 0 := by decide +kernel
    have hsound := ((GgufLayersAux.returns_iff (by decide +kernel)).1 h.returns).1
    have hone : iter (fileEnd (some (2 ^ 48)) backwards) 1 0 = some 0 := by rw [iter, hend, Option.bind_some, iter]
    exact absurd (hsound.ends.injective (i := 0) rfl hone) (by decide)
  · intro h
    have hsound := ((GgufLayersAux.returns_iff (by decide +kernel)).1 h.returns).1
    have hpanics : decodeAt (some (2 ^ 48)) 0 0 longKey = .error .panic := by decide +kernel
    exact (decodeAt_returns_iff _ 0 0 longKey).2 (hsound.files 0 0 rfl (by decide)) .panic hpanics trivial

end Ollama.Server
