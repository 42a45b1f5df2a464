import Ollama.Llm.Completion

/-!
# Completions that are finished

`Completion` returns nil at a stop line, at the end of the stream, and when 32 pieces in a row are the same without
the blanks around them, the empty piece before the first one included. Only at a stop line has it called `fn` with
`Done`, so what it returns says that the completion is finished exactly when there is no such repetition before the
first stop line or line that fails, and the stream does not end before it (`completion_finished_iff`).
-/

namespace Ollama.Llm

open Lib Utf8

/-- Some piece is there 32 times in a row. -/
def Repeats (tokens : List (List Char)) : Prop := ∃ token, List.replicate 32 token <:+: tokens

/-- After the pieces seen so far, no piece is repeated before the first stop line or line that fails, and there is one
or the reader fails. -/
def Orderly (d : Decoding) (err : Option Bytes) : (seen : List (List Char)) → List Bytes → Prop
  | _, [] => err ≠ none
  | seen, line :: lines =>
    match readLine d line with
    | .error _ => True
    | .ok none => Orderly d err seen lines
    | .ok (some c) => ¬Repeats (seen ++ [Parser.trimSpace c.content]) ∧
        (c.stop = true ∨ Orderly d err (seen ++ [Parser.trimSpace c.content]) lines)

/-- The non-empty content of a line. -/
def content? (d : Decoding) (line : Bytes) : Option (List Char) :=
  match readLine d line with
  | .ok (some c) => if c.content ≠ [] then some c.content else none
  | _ => none

/-- The calls are those of the contents up to the first stop line, and the last one with `Done`. -/
def Finished (d : Decoding) (lines : List Bytes) (calls : List CompletionResponse) : Prop :=
  ∃ before line after c, lines = before ++ line :: after ∧
    (∀ l ∈ before, ∃ o, readLine d l = .ok o ∧ ∀ c, o = some c → c.stop = false) ∧
    readLine d line = .ok (some c) ∧ c.stop = true ∧
    calls = ((before ++ [line]).filterMap (content? d)).map (fun content => { content := content }) ++
      [doneResponse d c]

namespace CompletionAux

variable {d : Decoding} {s : LlmServer} {err : Option Bytes} {seen : List (List Char)}
  {last token : List Char} {n : Nat}

/-! ## Repetitions -/

/-- The last piece, how often it has been repeated at the end, and that nothing is there 32 times in a row. -/
structure Tail (seen : List (List Char)) (last : List Char) (n : Nat) : Prop where
  suffix : List.replicate (n + 1) last <:+ seen
  longest : ∀ m t, List.replicate m t <:+ seen → m ≤ n + 1 ∧ (m ≠ 0 → t = last)
  once : ¬Repeats seen

theorem replicate_suffix_concat {m : Nat} {t : List Char} : List.replicate (m + 1) t <:+ seen ++ [token] ↔
    t = token ∧ List.replicate m t <:+ seen := by
  rw [List.replicate_succ', List.suffix_concat_iff]
  constructor
  · rintro (h | ⟨l, h, hl⟩)
    · simp at h
    · obtain ⟨rfl, heq⟩ := List.append_inj' h rfl
      obtain rfl := List.singleton_inj.1 heq
      exact ⟨rfl, hl⟩
  · rintro ⟨rfl, h⟩
    exact .inr ⟨_, rfl, h⟩

theorem tail_init : Tail [[]] [] 0 := by
  have hlen : ∀ m (t : List Char), List.replicate m t <:+: [[]] → m ≤ 1 := by
    intro m t h
    have := h.length_le
    rwa [List.length_replicate] at this
  refine ⟨List.suffix_refl _, fun m t h => ⟨hlen m t h.isInfix, fun hm => ?_⟩, ?_⟩
  · obtain ⟨m, rfl⟩ := Nat.exists_eq_succ_of_ne_zero hm
    have h' : List.replicate (m + 1) t <:+ [] ++ [[]] := h
    exact (replicate_suffix_concat.1 h').1
  · rintro ⟨t, h⟩
    have := hlen 32 t h
    omega

/-- The number of repetitions after another piece. -/
theorem Tail.next (h : Tail seen last n) (token : List Char) :
    List.replicate ((if token = last then n + 1 else 0) + 1) token <:+ seen ++ [token] ∧
      ∀ m t, List.replicate m t <:+ seen ++ [token] → m ≤ (if token = last then n + 1 else 0) + 1 ∧
        (m ≠ 0 → t = token) := by
  constructor
  · rw [replicate_suffix_concat]
    refine ⟨rfl, ?_⟩
    split
    · rename_i heq
      rw [heq]
      exact h.suffix
    · exact List.nil_suffix
  · intro m t hm
    cases m with
    | zero => exact ⟨Nat.zero_le _, fun h0 => (h0 rfl).elim⟩
    | succ m =>
      obtain ⟨ht, hrest⟩ := replicate_suffix_concat.1 hm
      obtain ⟨hle, hlast⟩ := h.longest m t hrest
      refine ⟨?_, fun _ => ht⟩
      split
      · omega
      · rename_i hne
        have hzero : m = 0 := by
          by_contra h0
          exact hne (ht.symm.trans (hlast h0))
        omega

/-- A piece is there 32 times in a row with another one exactly when this is repeated more than 30 times. -/
theorem Tail.repeats_iff (h : Tail seen last n) (token : List Char) :
    Repeats (seen ++ [token]) ↔ (if token = last then n + 1 else 0) > 30 := by
  obtain ⟨hsuffix, hlongest⟩ := h.next token
  constructor
  · rintro ⟨t, ht⟩
    rcases List.infix_concat_iff.1 ht with ht | ht
    · have := (hlongest 32 t ht).1
      omega
    · exact (h.once ⟨t, ht⟩).elim
  · intro hn
    obtain ⟨k, hk⟩ := Nat.exists_eq_add_of_le (show 32 ≤ (if token = last then n + 1 else 0) + 1 by omega)
    rw [hk, ← List.replicate_append_replicate] at hsuffix
    exact ⟨token, (List.prefix_append _ _).isInfix.trans hsuffix.isInfix⟩

theorem Tail.concat (h : Tail seen last n) (token : List Char) (honce : ¬Repeats (seen ++ [token])) :
    Tail (seen ++ [token]) token (if token = last then n + 1 else 0) :=
  ⟨(h.next token).1, (h.next token).2, honce⟩

/-! ## The loop -/

theorem streamLoop_some {line : Bytes} {lines : List Bytes} {c : Completion} (hline : readLine d line = .ok (some c)) :
    streamLoop d s err (line :: lines) last n =
      if (if Parser.trimSpace c.content = last then n + 1 else 0) > 30 then (none, [])
      else if c.stop then (none, ((content? d line).map (fun content => { content := content })).toList ++
        [doneResponse d c])
      else ((streamLoop d s err lines (Parser.trimSpace c.content) (if Parser.trimSpace c.content =
        last then n + 1 else 0)).1, ((content? d line).map (fun content => { content := content })).toList ++
          (streamLoop d s err lines (Parser.trimSpace c.content) (if Parser.trimSpace c.content =
            last then n + 1 else 0)).2) := by
  have hsent : (if c.content ≠ [] then [{ content := c.content }] else [] : List CompletionResponse) =
      ((content? d line).map (fun content => { content := content })).toList := by
    rw [content?, hline]
    dsimp only
    split <;> rfl
  rw [← hsent, streamLoop, hline]

/-- More calls before those of a stream that is finished. -/
theorem Finished.cons {line : Bytes} {lines : List Bytes} {calls : List CompletionResponse} {o : Option Completion}
    (hline : readLine d line = .ok o) (hstop : ∀ c, o = some c → c.stop = false) (h : Finished d lines calls) :
    Finished d (line :: lines) (((content? d line).map (fun content => { content := content })).toList ++ calls) := by
  obtain ⟨before, l, after, c, rfl, hbefore, hl, hc, rfl⟩ := h
  refine ⟨line :: before, l, after, c, rfl, List.forall_mem_cons.2 ⟨⟨o, hline, hstop⟩, hbefore⟩, hl, hc, ?_⟩
  rw [List.cons_append, List.filterMap_cons]
  cases content? d line <;> rfl

/-- In an orderly stream, nil says that it is finished. -/
theorem finished_of_orderly {lines : List Bytes} (ht : Tail seen last n) (h : Orderly d err seen lines)
    (hnil : (streamLoop d s err lines last n).1 = none) : Finished d lines (streamLoop d s err lines last n).2 := by
  induction lines generalizing seen last n with
  | nil =>
    cases err with
    | none => exact (h rfl).elim
    | some e =>
      rw [streamLoop, scannerErr] at hnil
      dsimp only at hnil
      split at hnil <;> cases hnil
  | cons line lines ih =>
    rw [Orderly] at h
    cases hline : readLine d line with
    | error e =>
      rw [streamLoop, hline] at hnil
      cases hnil
    | ok o =>
      rw [hline] at h
      cases o with
      | none =>
        have hnone : content? d line = none := by rw [content?, hline]
        have hloop : streamLoop d s err (line :: lines) last n = streamLoop d s err lines last n := by
          rw [streamLoop, hline]
        rw [hloop] at hnil ⊢
        have hfinished := Finished.cons hline (by simp) (ih ht h hnil)
        rwa [hnone] at hfinished
      | some c =>
        obtain ⟨honce, hrest⟩ := h
        rw [streamLoop_some hline, if_neg (mt (ht.repeats_iff _).2 honce)] at hnil ⊢
        by_cases hstop : c.stop = true
        · rw [if_pos hstop]
          refine ⟨[], line, lines, c, rfl, by simp, hline, hstop, ?_⟩
          rw [List.nil_append, List.filterMap_cons]
          cases content? d line <;> rfl
        · rw [if_neg hstop] at hnil ⊢
          refine Finished.cons hline ?_ (ih (ht.concat _ honce) (hrest.resolve_left hstop) hnil)
          rintro _ ⟨⟩
          exact Bool.eq_false_iff.2 hstop

/-- In any other stream, nil is returned, and `fn` is never called with `Done`. -/
theorem not_done_of_not_orderly {lines : List Bytes} (ht : Tail seen last n) (h : ¬Orderly d err seen lines) :
    (streamLoop d s err lines last n).1 = none ∧ ∀ r ∈ (streamLoop d s err lines last n).2, r.done = false := by
  induction lines generalizing seen last n with
  | nil =>
    obtain rfl : err = none := not_not.1 h
    exact ⟨rfl, by simp [streamLoop]⟩
  | cons line lines ih =>
    rw [Orderly] at h
    cases hline : readLine d line with
    | error e =>
      rw [hline] at h
      exact (h trivial).elim
    | ok o =>
      rw [hline] at h
      cases o with
      | none =>
        have hloop : streamLoop d s err (line :: lines) last n = streamLoop d s err lines last n := by
          rw [streamLoop, hline]
        rw [hloop]
        exact ih ht h
      | some c =>
        rw [streamLoop_some hline]
        by_cases honce : Repeats (seen ++ [Parser.trimSpace c.content])
        · rw [if_pos ((ht.repeats_iff _).1 honce)]
          exact ⟨rfl, by simp⟩
        · have hrest : ¬(c.stop = true ∨ Orderly d err (seen ++ [Parser.trimSpace c.content]) lines) :=
            fun hr => h ⟨honce, hr⟩
          rw [not_or] at hrest
          obtain ⟨hnil, hdone⟩ := ih (ht.concat _ honce) hrest.2
          rw [if_neg (mt (ht.repeats_iff _).2 honce), if_neg hrest.1]
          refine ⟨hnil, fun r hr => ?_⟩
          rcases List.mem_append.1 hr with hr | hr
          · obtain ⟨content, _, rfl⟩ := Option.map_eq_some_iff.1 (Option.mem_toList.1 hr)
            rfl
          · exact hdone r hr

theorem not_finished {lines : List Bytes} {calls : List CompletionResponse} (h : ∀ r ∈ calls, r.done = false) :
    ¬Finished d lines calls := by
  rintro ⟨_, _, _, c, _, _, _, _, rfl⟩
  have hdone := h (doneResponse d c) (List.mem_append_right _ (List.mem_singleton_self _))
  simp [doneResponse] at hdone

end CompletionAux

open CompletionAux

/-- **Whenever `Completion` returns nil it has called `fn` with each non-empty content up to the stop line, and then
once with `Done`, exactly when in the stream that it gets no piece is repeated before the first stop line or line that
fails, and there is one or the reader fails.** -/
theorem completion_finished_iff (out : Outside) (d : Decoding) (s : LlmServer) (req : CompletionRequest) :
    ((s.completion out d req).1 = none → ∃ request res, (prepare out s req).2 = .ok (request, res) ∧
        Finished d res.lines (s.completion out d req).2) ↔
      ∀ request res, (prepare out s req).2 = .ok (request, res) → Orderly d res.err [[]] res.lines := by
  unfold LlmServer.completion
  cases hprepare : (prepare out s req).2 with
  | error e => simp
  | ok sent =>
    obtain ⟨request, res⟩ := sent
    constructor
    · rintro h _ _ ⟨⟩
      by_contra horderly
      obtain ⟨hnil, hdone⟩ := not_done_of_not_orderly (s := s) tail_init horderly
      obtain ⟨_, _, _, hfinished⟩ := h hnil
      exact not_finished hdone hfinished
    · intro h hnil
      exact ⟨request, res, rfl, finished_of_orderly tail_init (h request res rfl) hnil⟩

/-! ## Streams that are not finished -/

/-- The runner answers with these lines. -/
def answers (lines : List Bytes) : Outside where
  schemaToGrammar _ := none
  acquire := none
  getServerStatusRetry := .ok .ready
  encode _ := none
  newRequest := none
  post _ := .ok ⟨200, .ok [], lines, none⟩

/-- A line is decoded to a piece, and the line of a full stop to the end. -/
def pieces : Decoding where
  unmarshal line := .ok ⟨line.map (fun b => Char.ofNat b.toNat), line = ascii ".", false, 0, 0, 0, 0⟩
  parseDurationMs _ := 0

/-- A server, and a request to it. -/
def server : LlmServer := ⟨true, 2048, []⟩

def request : CompletionRequest := ⟨ascii "hi", [], [], ⟨-1, 0, []⟩⟩

/-- A stream that ends without a line, and one in which a piece is there 32 times before the stop line. -/
def brokenOff : List (List Bytes) := [[], List.replicate 32 (ascii "a") ++ [ascii "."]]

/-- Neither is finished, and nil is returned. -/
theorem completion_unfinished : ¬∃ lines ∈ brokenOff, ((server.completion (answers lines) pieces request).1 = none →
    ∃ sent res, (prepare (answers lines) server request).2 = .ok (sent, res) ∧
      Finished pieces res.lines (server.completion (answers lines) pieces request).2) := by
  have hall : brokenOff.all (fun lines => (server.completion (answers lines) pieces request).1.isNone &&
      (server.completion (answers lines) pieces request).2.all (fun r => !r.done)) = true := by decide +kernel
  rintro ⟨lines, hlines, h⟩
  have hnil := List.all_eq_true.1 hall lines hlines
  rw [Bool.and_eq_true, Option.isNone_iff_eq_none, List.all_eq_true] at hnil
  obtain ⟨_, _, _, hfinished⟩ := h hnil.1
  exact not_finished (fun r hr => by simpa using hnil.2 r hr) hfinished

end Ollama.Llm
