import Ollama.Convert.Safetensors
import Mathlib.Data.List.Forall2

/-!
# What the reader of safetensors makes of a header

`parseSafetensors` returns tensors when every file has a header whose typed entries are accepted (`Accepted`), and
then they are those of the entries, file by file (`parseSafetensors_ok`). It panics when the first file that is not so
has a length that cannot be allocated, or an entry with too few offsets before any other mistake (`FS.Panics`).
-/

namespace Ollama.Convert

open Lib Json

/-- A key of a header and what is said of it. -/
abbrev Entry := Bytes × SafetensorMetadata

/-- The entries with a data type, in the order of their keys. -/
def Headers.typed (headers : Headers) : List Entry := headers.sorted.filter (fun e => e.2.dtype ≠ [])

/-- Every entry has a shape, two offsets and a name of its own, which is none of those given. -/
structure AcceptedFrom (replacer : Replacer) (names : List Bytes) (es : List Entry) : Prop where
  shape : ∀ e ∈ es, e.2.shape ≠ []
  offsets : ∀ e ∈ es, 2 ≤ e.2.offsets.length
  fresh : ∀ e ∈ es, replacer.replace e.1 ∉ names
  nodup : (es.map (fun e => replacer.replace e.1)).Nodup

/-- Entries of a header that are accepted. -/
abbrev Accepted (replacer : Replacer) (es : List Entry) : Prop := AcceptedFrom replacer [] es

/-- The first entry that is not accepted has a shape and a name of its own, but fewer than two offsets. -/
def LacksFrom (replacer : Replacer) (names : List Bytes) (es : List Entry) : Prop :=
  ∃ before e after, es = before ++ e :: after ∧ AcceptedFrom replacer names before ∧ e.2.shape ≠ [] ∧
    replacer.replace e.1 ∉ before.map (fun e => replacer.replace e.1) ++ names ∧ e.2.offsets.length < 2

/-- The first entry that is not accepted lacks offsets only. -/
abbrev Lacks (replacer : Replacer) (es : List Entry) : Prop := LacksFrom replacer [] es

/-- The tensor is what an entry says, in a file whose header has a length. -/
structure IsTensor (replacer : Replacer) (p : Bytes) (n : Int) (e : Entry) (st : Safetensor) : Prop where
  path : st.path = p
  dtype : st.dtype = e.2.dtype
  name : st.name = replacer.replace e.1
  shape : st.shape = e.2.shape
  repacker : st.repacker = none
  offsets : ∃ start stop more, e.2.offsets = start :: stop :: more ∧ st.offset = safetensorsPad n start ∧
    st.size = (safetensorsPad n stop - safetensorsPad n start).bmod (2 ^ 64)

section

variable {replacer : Replacer} {names : List Bytes} {e : Entry} {es : List Entry}

/-! ## Entries -/

/-- What an entry says of a tensor is in the header, so that two tensors of it are equal. -/
theorem IsTensor.unique {replacer : Replacer} {p : Bytes} {n : Int} {e : Entry} {st st' : Safetensor}
    (h : IsTensor replacer p n e st) (h' : IsTensor replacer p n e st') : st = st' := by
  obtain ⟨start, stop, more, hoffsets, hoffset, hsize⟩ := h.offsets
  obtain ⟨start', stop', more', hoffsets', hoffset', hsize'⟩ := h'.offsets
  rw [hoffsets] at hoffsets'
  obtain ⟨rfl, rfl, rfl⟩ : start = start' ∧ stop = stop' ∧ more = more' := by simpa using hoffsets'
  have hpath := h.path.trans h'.path.symm
  have hdtype := h.dtype.trans h'.dtype.symm
  have hname := h.name.trans h'.name.symm
  have hshape := h.shape.trans h'.shape.symm
  have hrepacker := h.repacker.trans h'.repacker.symm
  have hoff := hoffset.trans hoffset'.symm
  have hsz := hsize.trans hsize'.symm
  cases st
  cases st'
  simp only at hpath hdtype hname hshape hrepacker hoff hsz
  subst hpath hdtype hname hshape hrepacker hoff hsz
  rfl

theorem acceptedFrom_nil : AcceptedFrom replacer names [] :=
  ⟨fun _ h => (List.not_mem_nil h).elim, fun _ h => (List.not_mem_nil h).elim, fun _ h => (List.not_mem_nil h).elim,
    List.nodup_nil⟩

/-- The entries are accepted one after the other. -/
theorem acceptedFrom_cons : AcceptedFrom replacer names (e :: es) ↔ e.2.shape ≠ [] ∧ 2 ≤ e.2.offsets.length ∧
    replacer.replace e.1 ∉ names ∧ AcceptedFrom replacer (replacer.replace e.1 :: names) es := by
  constructor
  · rintro ⟨hshape, hoffsets, hfresh, hnodup⟩
    rw [List.map_cons, List.nodup_cons] at hnodup
    refine ⟨hshape e List.mem_cons_self, hoffsets e List.mem_cons_self, hfresh e List.mem_cons_self,
      fun a ha => hshape a (List.mem_cons_of_mem _ ha), fun a ha => hoffsets a (List.mem_cons_of_mem _ ha),
      fun a ha => ?_, hnodup.2⟩
    rw [List.mem_cons, not_or]
    exact ⟨fun heq => hnodup.1 (heq ▸ List.mem_map_of_mem (f := fun e : Entry => replacer.replace e.1) ha),
      hfresh a (List.mem_cons_of_mem _ ha)⟩
  · rintro ⟨hshape, hoffsets, hfresh, h⟩
    refine ⟨List.forall_mem_cons.2 ⟨hshape, h.shape⟩, List.forall_mem_cons.2 ⟨hoffsets, h.offsets⟩,
      List.forall_mem_cons.2 ⟨hfresh, fun a ha hmem => h.fresh a ha (List.mem_cons_of_mem _ hmem)⟩, ?_⟩
    rw [List.map_cons, List.nodup_cons]
    refine ⟨fun hmem => ?_, h.nodup⟩
    obtain ⟨a, ha, heq⟩ := List.mem_map.1 hmem
    exact h.fresh a ha (heq ▸ List.mem_cons_self)

/-- Entries that are accepted lack nothing. -/
theorem AcceptedFrom.not_lacks (h : AcceptedFrom replacer names es) : ¬LacksFrom replacer names es := by
  rintro ⟨before, e, after, rfl, _, _, _, hoffsets⟩
  exact absurd (h.offsets e (by simp)) (by omega)

/-- The first entry that is not accepted is this one or a later one. -/
theorem lacksFrom_cons : LacksFrom replacer names (e :: es) ↔
    e.2.shape ≠ [] ∧ replacer.replace e.1 ∉ names ∧
      (e.2.offsets.length < 2 ∨ LacksFrom replacer (replacer.replace e.1 :: names) es ∧
      2 ≤ e.2.offsets.length) := by
  constructor
  · rintro ⟨before, a, after, h, haccepted, hshape, hfresh, hoffsets⟩
    cases before with
    | nil =>
      obtain ⟨rfl, rfl⟩ := List.cons.inj h
      exact ⟨hshape, hfresh, Or.inl hoffsets⟩
    | cons b before =>
      obtain ⟨rfl, rfl⟩ := List.cons.inj h
      obtain ⟨hshape', hoffsets', hfresh', htail⟩ := acceptedFrom_cons.1 haccepted
      refine ⟨hshape', hfresh', Or.inr ⟨⟨before, a, after, rfl, htail, hshape, fun hmem => hfresh ?_, hoffsets⟩,
        hoffsets'⟩⟩
      simp only [List.map_cons, List.cons_append, List.mem_append, List.mem_cons] at hmem ⊢
      tauto
  · rintro ⟨hshape, hfresh, hoffsets | ⟨⟨before, a, after, rfl, haccepted, hshape', hfresh', hoffsets'⟩, hoffsets⟩⟩
    · exact ⟨[], e, es, rfl, acceptedFrom_nil, hshape, hfresh, hoffsets⟩
    · refine ⟨e :: before, a, after, rfl, acceptedFrom_cons.2 ⟨hshape, hoffsets, hfresh, haccepted⟩, hshape',
        fun hmem => hfresh' ?_, hoffsets'⟩
      simp only [List.map_cons, List.cons_append, List.mem_append, List.mem_cons] at hmem ⊢
      tauto

/-- What the loop over the keys comes to: the tensors of the typed entries, or an error, which is a panic if the first
entry that is not accepted lacks offsets only. -/
theorem addTensors_cases (replacer : Replacer) (p : Bytes) (n : Int) (es : List Entry) (names : List Bytes)
    (ts : List Safetensor) :
    (∃ new, addTensors replacer p n es names ts = .ok (ts ++ new) ∧
      AcceptedFrom replacer names (es.filter (fun e => e.2.dtype ≠ [])) ∧
      List.Forall₂ (IsTensor replacer p n) (es.filter (fun e => e.2.dtype ≠ [])) new) ∨
    ∃ err, addTensors replacer p n es names ts = .error err ∧
      ¬AcceptedFrom replacer names (es.filter (fun e => e.2.dtype ≠ [])) ∧
      (err = .panicked ↔ LacksFrom replacer names (es.filter (fun e => e.2.dtype ≠ []))) := by
  induction es generalizing names ts with
  | nil => exact Or.inl ⟨[], by rw [addTensors, List.append_nil], acceptedFrom_nil, List.Forall₂.nil⟩
  | cons e es ih =>
    obtain ⟨key, value⟩ := e
    rw [addTensors]
    by_cases hdtype : value.dtype = []
    · rw [if_pos hdtype, List.filter_cons_of_neg (by simpa using hdtype)]
      exact ih names ts
    rw [if_neg hdtype, List.filter_cons_of_pos (by simpa using hdtype), acceptedFrom_cons, lacksFrom_cons]
    by_cases hshape : value.shape = []
    · rw [dif_pos hshape]
      refine Or.inr ⟨.unsupported, rfl, ?_, ?_⟩ <;> simp [hshape]
    rw [dif_neg hshape]
    by_cases hname : replacer.replace key ∈ names
    · simp only [if_pos hname]
      refine Or.inr ⟨.duplicate (replacer.replace key), rfl, ?_, ?_⟩ <;> simp [hname]
    simp only [if_neg hname]
    rcases hoffsets : value.offsets with _ | ⟨start, _ | ⟨stop, more⟩⟩
    · refine Or.inr ⟨.panicked, rfl, ?_, ?_⟩ <;> simp [hshape, hname]
    · refine Or.inr ⟨.panicked, rfl, ?_, ?_⟩ <;> simp [hshape, hname]
    · simp only
      generalize hst : Safetensor.mk p value.dtype (safetensorsPad n start)
        ((safetensorsPad n stop - safetensorsPad n start).bmod (2 ^ 64))
          (replacer.replace key) value.shape none hshape = st
      have htensor : IsTensor replacer p n (key, value) st := by
        subst hst
        exact ⟨rfl, rfl, rfl, rfl, rfl, start, stop, more, hoffsets, rfl, rfl⟩
      rcases ih (replacer.replace key :: names) (ts ++ [st]) with ⟨new, hok, haccepted, hnew⟩ |
        ⟨err, herr, hnot, hpanic⟩
      · refine Or.inl ⟨st :: new, ?_, ⟨hshape, ?_, hname, haccepted⟩, List.Forall₂.cons htensor hnew⟩
        · rw [hok, List.append_assoc, List.singleton_append]
        · simp
      · refine Or.inr ⟨err, herr, fun h => hnot h.2.2.2, hpanic.trans ?_⟩
        have hlength : 2 ≤ (start :: stop :: more).length := by simp
        exact ⟨fun h => ⟨hshape, hname, Or.inr ⟨h, hlength⟩⟩, fun h => (h.2.2.resolve_left (Nat.not_lt.2 hlength)).1⟩

end

/-! ## Files -/

section

variable (u : Unmarshal Headers) (maxAlloc : Nat) (fsys : FS) (replacer : Replacer)

/-- The length and the header of the file at a path, if it can be read. -/
def FS.headers (p : Bytes) : Option (Int × Headers) :=
  (fsys.open p).bind (fun f => match readHeaders u maxAlloc f.bytes with | .ok h => some h | .error _ => none)

/-- The file has a header, whose typed entries are accepted. -/
def FS.Valid (p : Bytes) : Prop :=
  ∃ n headers, fsys.headers u maxAlloc p = some (n, headers) ∧ Accepted replacer headers.typed

/-- The length of the header is negative or too large, or the first typed entry that is not accepted lacks offsets only. -/
def FS.Panics (p : Bytes) : Prop :=
  (∃ f n, fsys.open p = some f ∧ headerLength f.bytes = some n ∧ (n < 0 ∨ (maxAlloc : Int) < n)) ∨
    ∃ n headers, fsys.headers u maxAlloc p = some (n, headers) ∧ Lacks replacer headers.typed

/-- The tensors are those of the typed entries of the file. -/
def FS.HasTensors (p : Bytes) (ts : List Safetensor) : Prop :=
  ∃ n headers, fsys.headers u maxAlloc p = some (n, headers) ∧ List.Forall₂ (IsTensor replacer p n) headers.typed ts

variable {u maxAlloc fsys replacer}

/-- A slice of so many bytes. -/
theorem make_one (maxAlloc : Nat) (n : Int) :
    make maxAlloc 1 n = if n < 0 ∨ (maxAlloc : Int) < n then .error .panicked else .ok n.toNat := by
  have hone : n * ((1 : Nat) : Int) = n := Int.mul_one n
  by_cases hrange : n < 0 ∨ (maxAlloc : Int) < n
  · rw [make, if_neg (by rw [makes_some, hone]; omega), if_pos hrange]
  · rw [make, if_pos (by rw [makes_some, hone]; omega), if_neg hrange]

/-- A header is read when all its steps succeed. -/
theorem readHeaders_of_steps {bytes text : Bytes} {n : Int} {size k : Nat} {headers : Headers}
    (hlength : headerLength bytes = some n) (hmake : make maxAlloc 1 n = .ok size)
    (hfull : readFull size (bytes.drop 8) = .ok text) (hdecode : Json.decode u text = .ok headers k) :
    readHeaders u maxAlloc bytes = .ok (n, headers) := by
  simp only [readHeaders, hlength, hmake, hfull, hdecode]

/-- A header that follows its length is read. -/
theorem readHeaders_append {text rest : Bytes} {headers : Headers} {k : Nat} (hlength : text.length < 2 ^ 63)
    (halloc : text.length ≤ maxAlloc) (hdecode : Json.decode u text = .ok headers k) :
    readHeaders u maxAlloc (le 8 text.length ++ (text ++ rest)) = .ok ((text.length : Int), headers) := by
  have htake : (le 8 text.length ++ (text ++ rest)).take 8 = le 8 text.length := List.take_left' (length_le 8 _)
  have hdrop : (le 8 text.length ++ (text ++ rest)).drop 8 = text ++ rest := List.drop_left' (length_le 8 _)
  have hprefix : headerLength (le 8 text.length ++ (text ++ rest)) = some (text.length : Int) := by
    have hlong : ¬(le 8 text.length ++ (text ++ rest)).length < 8 := by simp
    rw [headerLength, if_neg hlong, htake, ofLe_le, Nat.mod_eq_of_lt (by omega),
      Int.bmod_eq_of_le (by omega) (by omega)]
  have hmake : make maxAlloc 1 (text.length : Int) = .ok text.length := by
    rw [make_one, if_neg (by omega), Int.toNat_natCast]
  refine readHeaders_of_steps hprefix hmake ?_ hdecode
  have hnot : ¬(text ++ rest).length < text.length := by
    rw [List.length_append]
    omega
  rw [hdrop, readFull, if_neg hnot, List.take_left]

/-- A header is not read because its length panics, or because of an error. -/
theorem readHeaders_error {bytes : Bytes} {err : Failure} (h : readHeaders u maxAlloc bytes = .error err) :
    err = .panicked ↔ ∃ n, headerLength bytes = some n ∧ (n < 0 ∨ (maxAlloc : Int) < n) := by
  unfold readHeaders readFull at h
  rcases hlength : headerLength bytes with _ | n <;> simp only [hlength] at h
  · obtain rfl := (Except.error.inj h).symm
    simp
  · rw [make_one] at h
    by_cases hrange : n < 0 ∨ (maxAlloc : Int) < n
    · rw [if_pos hrange] at h
      obtain rfl := (Except.error.inj h).symm
      simpa using hrange
    · rw [if_neg hrange] at h
      have hne : err ≠ .panicked := by
        rintro rfl
        by_cases hshort : (bytes.drop 8).length < n.toNat
        · simp only [if_pos hshort] at h
          nomatch h
        · simp only [if_neg hshort] at h
          split at h
          · nomatch h
          · nomatch h
      simp only [hne, Option.some.injEq, exists_eq_left', hrange]

/-- The header of a file that can be opened and read. -/
theorem FS.headers_of_read {p : Bytes} {f : File} {h : Int × Headers} (hopen : fsys.open p = some f)
    (hread : readHeaders u maxAlloc f.bytes = .ok h) : fsys.headers u maxAlloc p = some h := by
  rw [FS.headers, hopen, Option.bind_some, hread]

/-- A header that is read has a length in range. -/
theorem readHeaders_ok {bytes : Bytes} {h : Int × Headers} (hread : readHeaders u maxAlloc bytes = .ok h) :
    ¬∃ n, headerLength bytes = some n ∧ (n < 0 ∨ (maxAlloc : Int) < n) := by
  rintro ⟨m, hlength, hm⟩
  simp only [readHeaders, hlength, make_one, if_pos hm] at hread
  nomatch hread

/-- A valid file does not panic. -/
theorem FS.Valid.not_panics {p : Bytes} (h : fsys.Valid u maxAlloc replacer p) :
    ¬fsys.Panics u maxAlloc replacer p := by
  obtain ⟨n, headers, hheaders, haccepted⟩ := h
  rintro (⟨f, m, hopen, hlength⟩ | ⟨n', headers', hheaders', hlacks⟩)
  · simp only [FS.headers, hopen, Option.bind_some] at hheaders
    rcases hread : readHeaders u maxAlloc f.bytes with err | h
    · rw [hread] at hheaders
      nomatch hheaders
    · exact readHeaders_ok hread ⟨m, hlength⟩
  · rw [hheaders] at hheaders'
    obtain ⟨rfl, rfl⟩ : n = n' ∧ headers = headers' := by simpa using hheaders'
    exact haccepted.not_lacks hlacks

/-- What a file comes to. -/
theorem parseSafetensorsFile_cases (u : Unmarshal Headers) (maxAlloc : Nat) (fsys : FS) (replacer : Replacer)
    (p : Bytes) :
    (∃ ts, parseSafetensorsFile u maxAlloc fsys replacer p = .ok ts ∧ fsys.Valid u maxAlloc replacer p ∧
      fsys.HasTensors u maxAlloc replacer p ts) ∨
    ∃ err, parseSafetensorsFile u maxAlloc fsys replacer p = .error err ∧ ¬fsys.Valid u maxAlloc replacer p ∧
      (err = .panicked ↔ fsys.Panics u maxAlloc replacer p) := by
  unfold parseSafetensorsFile FS.Valid FS.Panics FS.HasTensors FS.headers
  rcases hopen : fsys.open p with _ | f
  · exact Or.inr ⟨.notExist, rfl, by simp, by simp⟩
  · rcases hread : readHeaders u maxAlloc f.bytes with err | ⟨n, headers⟩
    · refine Or.inr ⟨err, by simp only [hread], by simp [hread], (readHeaders_error hread).trans ?_⟩
      simp [hread]
    · have hrange := readHeaders_ok hread
      simp only [Option.bind_some, hread, Option.some.injEq, Prod.mk.injEq, exists_eq_left', exists_and_left, hrange]
      rcases addTensors_cases replacer p n headers.sorted [] [] with ⟨new, hok, haccepted, hnew⟩ |
        ⟨err, herr, hnot, hpanic⟩
      · exact Or.inl ⟨new, hok, ⟨n, headers, ⟨rfl, rfl⟩, haccepted⟩, n, headers, ⟨rfl, rfl⟩, hnew⟩
      · refine Or.inr ⟨err, herr, ?_, hpanic.trans ?_⟩
        · rintro ⟨_, _, ⟨rfl, rfl⟩, haccepted⟩
          exact hnot haccepted
        · constructor
          · exact fun h => Or.inr ⟨n, headers, ⟨rfl, rfl⟩, h⟩
          · rintro (h | ⟨_, _, ⟨rfl, rfl⟩, h⟩)
            · exact h.elim
            · exact h

/-- What several files come to: the tensors of each, or the error of the first that is not valid. -/
theorem parseSafetensors_cases (u : Unmarshal Headers) (maxAlloc : Nat) (fsys : FS) (replacer : Replacer)
    (ps : List Bytes) :
    (∃ tss, parseSafetensors u maxAlloc fsys replacer ps = .ok tss.flatten ∧
      (∀ p ∈ ps, fsys.Valid u maxAlloc replacer p) ∧ List.Forall₂ (fsys.HasTensors u maxAlloc replacer) ps tss) ∨
    ∃ err before p after, parseSafetensors u maxAlloc fsys replacer ps = .error err ∧ ps = before ++ p :: after ∧
      (∀ q ∈ before, fsys.Valid u maxAlloc replacer q) ∧ ¬fsys.Valid u maxAlloc replacer p ∧
      (err = .panicked ↔ fsys.Panics u maxAlloc replacer p) := by
  induction ps with
  | nil => exact Or.inl ⟨[], rfl, fun _ h => (List.not_mem_nil h).elim, List.Forall₂.nil⟩
  | cons p ps ih =>
    rw [parseSafetensors]
    rcases parseSafetensorsFile_cases u maxAlloc fsys replacer p with ⟨ts, hok, hvalid, hts⟩ | ⟨err, herr, hnot, hpanic⟩
    · simp only [hok]
      rcases ih with ⟨tss, hrest, hvalids, htss⟩ | ⟨err, before, q, after, hrest, rfl, hbefore, hnot, hpanic⟩
      · exact Or.inl ⟨ts :: tss, by simp only [hrest, List.flatten_cons], List.forall_mem_cons.2 ⟨hvalid, hvalids⟩,
          List.Forall₂.cons hts htss⟩
      · exact Or.inr ⟨err, p :: before, q, after,
          by simp only [hrest], rfl, List.forall_mem_cons.2 ⟨hvalid, hbefore⟩, hnot, hpanic⟩
    · exact Or.inr ⟨err, [], p, ps, by simp only [herr], rfl, fun _ h => (List.not_mem_nil h).elim, hnot, hpanic⟩

/-- The reader returns tensors when every file is valid. -/
theorem parseSafetensors_ok {ps : List Bytes} (h : ∀ p ∈ ps, fsys.Valid u maxAlloc replacer p) :
    ∃ tss, parseSafetensors u maxAlloc fsys replacer ps = .ok tss.flatten ∧
      List.Forall₂ (fsys.HasTensors u maxAlloc replacer) ps tss := by
  rcases parseSafetensors_cases u maxAlloc fsys replacer ps with ⟨tss, hok, _, htss⟩ |
    ⟨err, before, p, after, _, rfl, _, hnot, _⟩
  · exact ⟨tss, hok, htss⟩
  · exact (hnot (h p (by simp))).elim

/-- The names of the typed entries of a file. -/
def FS.names (u : Unmarshal Headers) (maxAlloc : Nat) (fsys : FS) (replacer : Replacer) (p : Bytes) : List Bytes :=
  match fsys.headers u maxAlloc p with
  | some (_, headers) => headers.typed.map (fun e => replacer.replace e.1)
  | none => []

/-- The tensors have the names of the entries. -/
theorem map_name {p : Bytes} {n : Int} {es : List Entry} {ts : List Safetensor}
    (h : List.Forall₂ (IsTensor replacer p n) es ts) :
    ts.map Safetensor.name = es.map (fun e => replacer.replace e.1) := by
  induction h with
  | nil => rfl
  | cons hst _ ih => rw [List.map_cons, List.map_cons, hst.name, ih]

theorem map_name_flatten {ps : List Bytes} {tss : List (List Safetensor)}
    (h : List.Forall₂ (fsys.HasTensors u maxAlloc replacer) ps tss) :
    tss.flatten.map Safetensor.name = ps.flatMap (fsys.names u maxAlloc replacer) := by
  induction h with
  | nil => rfl
  | cons hts _ ih =>
    obtain ⟨n, headers, hheaders, hts⟩ := hts
    rw [List.flatten_cons, List.map_append, ih, List.flatMap_cons, map_name hts, FS.names, hheaders]

end

end Ollama.Convert
