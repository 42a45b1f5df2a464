import Ollama.Server.ToolCalls

/-!
# Tool calls, streamed or not

The callback looks for tool calls in the text it holds back, and drops all of it when it has found some. What it drops
at the end may be the beginning of another tool call. As long as the text ends between two values whenever tool calls
are found in it, nothing is lost, and the tool calls that are sent are those of the whole text
(`stream_toolCalls_eq`).
-/

namespace Ollama.Server

open Lib Utf8 Json

/-- The loop of `parseObjects` comes to the end of the text between two values: not in one, and not after a number,
which may go on. -/
def betweenFrom (u : Unmarshal Obj) : (fuel : Nat) → Bytes → Bool
  | 0, s => s = []
  | fuel + 1, s =>
    if s = [] then true
    else
      match scan s with
      | .eof => true
      | .unexpectedEOF => false
      | .number _ => false
      | .syntaxError offset => betweenFrom u fuel (s.drop offset)
      | .value n =>
        match u.run (s.take n) with
        | .ok _ => betweenFrom u fuel (s.drop n)
        | .error offset => betweenFrom u fuel (s.drop offset)

/-- A text ends between two values. -/
def endsBetween (u : Unmarshal Obj) (s : Bytes) : Bool := betweenFrom u s.length s

/-- A tool call without its index. -/
def ToolCall.function (call : ToolCall) : Bytes × Obj := (call.name, call.arguments)

namespace ToolCallsAux

variable {u : Unmarshal Obj}

/-! ## Objects -/

/-- More turns than the text has bytes make no difference. -/
theorem parseObjectsFrom_eq {fuel fuel' : Nat} {s : Bytes} (h : s.length ≤ fuel) (h' : s.length ≤ fuel') :
    parseObjectsFrom u fuel s = parseObjectsFrom u fuel' s := by
  induction fuel generalizing fuel' s with
  | zero =>
    obtain rfl : s = [] := List.eq_nil_of_length_eq_zero (by omega)
    cases fuel' <;> rfl
  | succ fuel ih =>
    by_cases hs : s = []
    · subst hs
      cases fuel' <;> rfl
    have hpos : 0 < s.length := List.length_pos_iff.2 hs
    obtain ⟨fuel', rfl⟩ := Nat.exists_eq_add_of_le' (show 1 ≤ fuel' by omega)
    have hdrop : ∀ k, (decode u s).offset? = some k →
      parseObjectsFrom u fuel (s.drop k) = parseObjectsFrom u fuel' (s.drop k) := by
      intro k hk
      have hle := decode_le u hk
      apply ih <;> rw [List.length_drop] <;> omega
    rw [parseObjectsFrom, parseObjectsFrom, if_neg hs, if_neg hs]
    cases hdecode : decode u s with
    | eof => rfl
    | unexpectedEOF => rfl
    | syntaxError k => exact hdrop k (by rw [hdecode]; rfl)
    | typeError k => exact hdrop k (by rw [hdecode]; rfl)
    | ok obj k => exact congrArg (obj :: ·) (hdrop k (by rw [hdecode]; rfl))

/-- One turn of the loop. -/
theorem parseObjects_eq (u : Unmarshal Obj) {s : Bytes} (hs : s ≠ []) :
    parseObjects u s =
      match decode u s with
      | .eof => []
      | .unexpectedEOF => []
      | .syntaxError offset => parseObjects u (s.drop offset)
      | .typeError offset => parseObjects u (s.drop offset)
      | .ok obj offset => obj :: parseObjects u (s.drop offset) := by
  have hpos : 0 < s.length := List.length_pos_iff.2 hs
  obtain ⟨fuel, hfuel⟩ := Nat.exists_eq_add_of_le' (show 1 ≤ s.length by omega)
  have hdrop : ∀ k, (decode u s).offset? = some k → parseObjectsFrom u fuel (s.drop k) = parseObjects u (s.drop k) := by
    intro k hk
    have hle := decode_le u hk
    refine parseObjectsFrom_eq ?_ le_rfl
    rw [List.length_drop]
    omega
  unfold parseObjects
  rw [hfuel, parseObjectsFrom, if_neg hs]
  cases hdecode : decode u s with
  | eof => rfl
  | unexpectedEOF => rfl
  | syntaxError k => exact hdrop k (by rw [hdecode]; rfl)
  | typeError k => exact hdrop k (by rw [hdecode]; rfl)
  | ok obj k => exact congrArg (obj :: ·) (hdrop k (by rw [hdecode]; rfl))

/-- White space holds no object, and changes none that follows it. -/
theorem parseObjects_space {w : Bytes} (hw : w.all isSpace = true) (t : Bytes) :
    parseObjects u (w ++ t) = parseObjects u t := by
  by_cases ht : t = []
  · subst ht
    rw [List.append_nil]
    by_cases hnil : w = []
    · rw [hnil]
    · have hdecode : decode u w = .eof := by
        have hshift := decode_space u hw []
        rw [List.append_nil] at hshift
        exact hshift
      rw [parseObjects_eq u hnil, hdecode]
      rfl
  · have hne : w ++ t ≠ [] := List.append_ne_nil_of_right_ne_nil w ht
    have hdrop : ∀ k, (w ++ t).drop (w.length + k) = t.drop k := fun k => List.drop_length_add_append ..
    rw [parseObjects_eq u hne, parseObjects_eq u ht, decode_space u hw]
    cases decode u t with
    | eof => rfl
    | unexpectedEOF => rfl
    | syntaxError k => exact congrArg (parseObjects u) (hdrop k)
    | typeError k => exact congrArg (parseObjects u) (hdrop k)
    | ok obj k => exact congrArg (obj :: parseObjects u ·) (hdrop k)

/-- The objects of a text that ends between two values come first in every longer text. -/
theorem parseObjects_append_of_between {fuel : Nat} {s : Bytes} (h : betweenFrom u fuel s = true) (t : Bytes) :
    parseObjects u (s ++ t) = parseObjects u s ++ parseObjects u t := by
  induction fuel generalizing s with
  | zero =>
    obtain rfl : s = [] := of_decide_eq_true h
    rfl
  | succ fuel ih =>
    by_cases hs : s = []
    · subst hs
      rfl
    have hne : s ++ t ≠ [] := List.append_ne_nil_of_left_ne_nil hs t
    rw [betweenFrom, if_neg hs] at h
    cases hscan : scan s with
    | eof =>
      have hw : s.all isSpace = true := (space_of_eof hscan).2
      have hnone : parseObjects u s = [] := by
        have hspace := parseObjects_space (u := u) hw []
        rw [List.append_nil] at hspace
        exact hspace
      rw [parseObjects_space hw, hnone, List.nil_append]
    | unexpectedEOF =>
      rw [hscan] at h
      nomatch h
    | number n =>
      rw [hscan] at h
      nomatch h
    | syntaxError k =>
      rw [hscan] at h
      have hdecode : decode u s = .syntaxError k := by
        unfold decode
        rw [hscan]
      have hdrop : (s ++ t).drop k = s.drop k ++ t := List.drop_append_of_le_length (scan_le (.inr (.inr hscan))).2
      rw [parseObjects_eq u hne, parseObjects_eq u hs, decode_append_syntaxError u hscan, hdecode]
      dsimp only
      rw [hdrop, ih h]
    | value n =>
      rw [hscan] at h
      dsimp only at h
      have hle := (scan_le (.inl hscan)).2
      rw [parseObjects_eq u hne, parseObjects_eq u hs, decode_append_value u hscan]
      cases hrun : u.run (s.take n) with
      | ok obj =>
        rw [hrun] at h
        have hdecode : decode u s = .ok obj n := by
          unfold decode
          rw [hscan]
          dsimp only
          rw [hrun]
        have hdrop : (s ++ t).drop n = s.drop n ++ t := List.drop_append_of_le_length hle
        rw [hdecode]
        dsimp only
        rw [hdrop, ih h, List.cons_append]
      | error k =>
        rw [hrun] at h
        have hdecode : decode u s = .typeError k := by
          unfold decode
          rw [hscan]
          dsimp only
          rw [hrun]
        have hk : (decode u s).offset? = some k := by rw [hdecode]; rfl
        have hdrop : (s ++ t).drop k = s.drop k ++ t := List.drop_append_of_le_length (decode_le u hk).2
        rw [hdecode]
        dsimp only
        rw [hdrop, ih h]

/-! ## Tool calls -/

/-- The tool calls of a text are found in its objects one by one, whatever the template is. -/
theorem parseToolCalls_eq (u : Unmarshal Obj) (rendered : Option Bytes) :
    ∃ find : Obj → List ToolCall, ∀ s, parseToolCalls u rendered s =
      if (parseObjects u s).flatMap find = [] then none else some ((parseObjects u s).flatMap find) := by
  have hnever : (∀ s, parseToolCalls u rendered s = none) → ∃ find : Obj →
    List ToolCall, ∀ s, parseToolCalls u rendered s =
      if (parseObjects u s).flatMap find = [] then none else some ((parseObjects u s).flatMap find) := by
    intro hnone
    refine ⟨fun _ => [], fun s => ?_⟩
    rw [hnone s, if_pos (List.flatMap_eq_nil_iff.2 fun _ _ => rfl)]
  cases rendered with
  | none => exact hnever (fun _ => rfl)
  | some b =>
    cases hb : parseObjects u b with
    | nil =>
      refine hnever (fun s => ?_)
      rw [parseToolCalls, hb]
    | cons obj objs =>
      rcases hkeys : toolKeys obj with ⟨name, arguments⟩
      by_cases hempty : name = [] ∨ arguments = []
      · refine hnever (fun s => ?_)
        rw [parseToolCalls, hb]
        dsimp only
        rw [hkeys]
        exact if_pos hempty
      · refine ⟨fun obj => (collect (.object obj)).filterMap (toolCall? name arguments), fun s => ?_⟩
        have hcalls : ((parseObjects u s).flatMap (fun obj => collect (.object obj))).filterMap
          (toolCall? name arguments) =
            (parseObjects u s).flatMap (fun obj => (collect (.object obj)).filterMap (toolCall? name arguments)) :=
          List.filterMap_flatMap ..
        rw [parseToolCalls, hb]
        dsimp only
        rw [hkeys]
        dsimp only
        rw [if_neg hempty, hcalls]
        by_cases hobjs : parseObjects u s = []
        · rw [hobjs]
          rfl
        · rw [if_neg (by rwa [List.isEmpty_iff])]
          exact if_congr List.isEmpty_iff rfl rfl

theorem map_function_numbered (index : Nat) (calls : List ToolCall) :
    (numbered index calls).map ToolCall.function = calls.map ToolCall.function := by
  induction calls generalizing index with
  | nil => rfl
  | cons call calls ih => exact congrArg (call.function :: ·) (ih (index + 1))

/-- The tool calls that a chat has sent. -/
def sentCalls (s : Chat) : List (Bytes × Obj) := (s.sent.flatMap ChatResponse.toolCalls).map ToolCall.function

/-- What the callback does to the text it holds back and to the tool calls that were sent. -/
theorem callback_cases (u : Unmarshal Obj) (rendered : Option Bytes) (s : Chat) (r : CompletionResponse) :
    (∃ calls, parseToolCalls u rendered (s.sb ++ r.content) = some calls ∧ (s.callback u rendered r).sb = [] ∧
      sentCalls (s.callback u rendered r) = sentCalls s ++ calls.map ToolCall.function) ∨
    (parseToolCalls u rendered (s.sb ++ r.content) = none ∧ (s.callback u rendered r).sb = s.sb ++ r.content ∧
      sentCalls (s.callback u rendered r) = sentCalls s) := by
  unfold Chat.callback
  dsimp only
  cases hparse : parseToolCalls u rendered (s.sb ++ r.content) with
  | some calls =>
    refine .inl ⟨calls, rfl, rfl, ?_⟩
    simp only [sentCalls, List.flatMap_append, List.flatMap_singleton, List.map_append, map_function_numbered]
  | none =>
    refine .inr ⟨rfl, ?_⟩
    dsimp only
    by_cases hdone : r.done
    · rw [if_pos hdone]
      exact ⟨rfl, by simp [sentCalls]⟩
    · rw [if_neg hdone]
      exact ⟨rfl, rfl⟩

/-- The text of the responses. -/
def text (rs : List CompletionResponse) : Bytes := (rs.map CompletionResponse.content).flatten

/-- The tool calls sent so far are those of the text before what the callback holds back, which ends between two values. -/
theorem stream_invariant {rendered : Option Bytes} {find : Obj → List ToolCall}
    (hfind : ∀ s, parseToolCalls u rendered s =
      if (parseObjects u s).flatMap find = [] then none else some ((parseObjects u s).flatMap find))
    (rs : List CompletionResponse)
    (h : ∀ before r after, rs = before ++ r :: after →
      parseToolCalls u rendered ((stream u rendered before).sb ++ r.content) ≠ none →
      endsBetween u ((stream u rendered before).sb ++ r.content) = true) :
    ∃ past, text rs = past ++ (stream u rendered rs).sb ∧
      (∀ t, parseObjects u (past ++ t) = parseObjects u past ++ parseObjects u t) ∧
      sentCalls (stream u rendered rs) = ((parseObjects u past).flatMap find).map ToolCall.function ∧
      (parseObjects u (stream u rendered rs).sb).flatMap find = [] := by
  induction rs using List.reverseRecOn with
  | nil => exact ⟨[], rfl, fun _ => rfl, rfl, rfl⟩
  | append_singleton rs r ih =>
    obtain ⟨past, htext, hpast, hsent, hheld⟩ := ih (fun before r' after hrs =>
      h before r' (after ++ [r]) (by rw [hrs, List.append_assoc, List.cons_append]))
    have hstream : stream u rendered (rs ++ [r]) = (stream u rendered rs).callback u rendered r := List.foldl_concat ..
    have htext' : text (rs ++ [r]) = past ++ ((stream u rendered rs).sb ++ r.content) := by
      rw [← List.append_assoc, ← htext]
      simp [text]
    rw [hstream]
    rcases callback_cases u rendered (stream u rendered rs) r with ⟨calls, hparse, hsb, hcalls⟩ | ⟨hparse, hsb, hcalls⟩
    · -- all that was held back is dropped, and ends between two values
      have hbetween := h rs r [] rfl (by rw [hparse]; nofun)
      have happend := fun t => parseObjects_append_of_between hbetween t
      rw [hfind] at hparse
      split_ifs at hparse
      refine ⟨past ++ ((stream u rendered rs).sb ++ r.content), ?_, fun t => ?_, ?_, ?_⟩
      · rw [htext', hsb, List.append_nil]
      · rw [List.append_assoc, hpast, happend, hpast, List.append_assoc]
      · rw [hcalls, hsent, hpast, List.flatMap_append, List.map_append, ← Option.some.inj hparse]
      · rw [hsb]
        rfl
    · rw [hfind] at hparse
      split_ifs at hparse with hnone
      refine ⟨past, ?_, hpast, ?_, ?_⟩
      · rw [htext', hsb]
      · rw [hcalls, hsent]
      · rw [hsb, hnone]

end ToolCallsAux

open ToolCallsAux

/-- For every template and every text in pieces: if the text that the callback holds back ends between two values with
each piece on which tool calls are found in it, then the tool calls that are sent are those of the response without
streaming. -/
theorem stream_toolCalls_eq (u : Unmarshal Obj) (rendered : Option Bytes) (rs : List CompletionResponse)
    (h : ∀ before r after, rs = before ++ r :: after →
      parseToolCalls u rendered ((stream u rendered before).sb ++ r.content) ≠ none →
      endsBetween u ((stream u rendered before).sb ++ r.content) = true) :
    ((stream u rendered rs).sent.flatMap ChatResponse.toolCalls).map ToolCall.function =
      (respond u rendered rs).toolCalls.map ToolCall.function := by
  obtain ⟨find, hfind⟩ := parseToolCalls_eq u rendered
  obtain ⟨past, htext, hpast, hsent, hheld⟩ := stream_invariant hfind rs h
  have hwhole : (parseObjects u (text rs)).flatMap find = (parseObjects u past).flatMap find := by
    rw [htext, hpast, List.flatMap_append, hheld, List.append_nil]
  have hrespond : (respond u rendered rs).toolCalls = (parseObjects u past).flatMap find := by
    unfold respond
    dsimp only
    rw [show (rs.map CompletionResponse.content).flatten = text rs from rfl, hfind, hwhole]
    split_ifs with hnone
    · exact hnone.symm
    · rfl
  rw [hrespond]
  exact hsent

/-! ## Two tool calls -/

/-- What a template renders for a tool call. -/
def renderedCall : Bytes := ascii "\x7b\"name\":\"@@name@@\",\"arguments\":\x7b\"@@argument@@\":1\x7d\x7d"

/-- A tool call without arguments. -/
def callText (name : String) : Bytes := ascii "\x7b\"name\":\"" ++ ascii name ++ ascii "\",\"arguments\":\x7b\x7d\x7d"

/-- The conversion of these objects. All other values are of another type. -/
def unmarshalCalls : Unmarshal Obj where
  run v :=
    let value := v.dropWhile isSpace
    if value = [] then .ok []
    else if value = renderedCall then
      .ok [(ascii "name", .string (ascii "@@name@@")),
        (ascii "arguments", .object [(ascii "@@argument@@", .number 0x3ff0000000000000)])]
    else if value = callText "a" then .ok [(ascii "name", .string (ascii "a")), (ascii "arguments", .object [])]
    else if value = callText "b" then .ok [(ascii "name", .string (ascii "b")), (ascii "arguments", .object [])]
    else .error v.length
  offset_pos := by
    intro v offset h
    dsimp only at h
    split_ifs at h with hnil
    rw [← Except.error.inj h]
    refine List.length_pos_iff.2 (fun hv => hnil ?_)
    rw [hv]
    rfl
  offset_le := by
    intro v offset h
    dsimp only at h
    split_ifs at h
    exact (Except.error.inj h).symm.le
  space := by
    intro w v hw
    have hdrop : (w ++ v).dropWhile isSpace = v.dropWhile isSpace :=
      List.dropWhile_append_of_pos (List.all_eq_true.1 hw)
    dsimp only
    rw [hdrop, List.length_append]
    split_ifs <;> rfl

/-- The first tool call comes whole, and then the second in two pieces. -/
def wholePieces : List CompletionResponse :=
  [⟨callText "a", false⟩, ⟨(callText "b").take 5, false⟩, ⟨(callText "b").drop 5, true⟩]

/-- The first piece ends with the beginning of the second tool call. -/
def brokenPieces : List CompletionResponse :=
  [⟨callText "a" ++ (callText "b").take 5, false⟩, ⟨(callText "b").drop 5, true⟩]

/-- Both tool calls are sent. -/
theorem stream_toolCalls_two :
    ((stream unmarshalCalls (some renderedCall) wholePieces).sent.flatMap ChatResponse.toolCalls).map
      ToolCall.function = (respond unmarshalCalls (some renderedCall) wholePieces).toolCalls.map ToolCall.function ∧
    (respond unmarshalCalls (some renderedCall) wholePieces).toolCalls.map ToolCall.name = [ascii "a", ascii "b"] := by
  refine ⟨stream_toolCalls_eq unmarshalCalls (some renderedCall) wholePieces ?_, by decide +kernel⟩
  intro before r after hrs hcalls
  rcases before with _ | ⟨b₀, _ | ⟨b₁, _ | ⟨b₂, before⟩⟩⟩
  · obtain ⟨rfl, _⟩ := List.cons.inj hrs
    decide +kernel
  · -- there is nothing to send yet
    obtain ⟨rfl, hrest⟩ := List.cons.inj hrs
    obtain ⟨rfl, _⟩ := List.cons.inj hrest
    refine absurd ?_ hcalls
    rw [← Option.isNone_iff_eq_none]
    decide +kernel
  · obtain ⟨rfl, hrest⟩ := List.cons.inj hrs
    obtain ⟨rfl, hlast⟩ := List.cons.inj hrest
    obtain ⟨rfl, _⟩ := List.cons.inj hlast
    decide +kernel
  · exact absurd (congrArg List.length hrs) (by simp [wholePieces])

/-- The beginning of the second tool call is dropped with the first, and only the first is sent. -/
theorem stream_drops_call :
    ((stream unmarshalCalls (some renderedCall) brokenPieces).sent.flatMap ChatResponse.toolCalls).map
      ToolCall.function ≠
      (respond unmarshalCalls (some renderedCall) brokenPieces).toolCalls.map ToolCall.function := by
  have hsent : ((stream unmarshalCalls (some renderedCall) brokenPieces).sent.flatMap ChatResponse.toolCalls).map
    ToolCall.name = [ascii "a"] := by decide +kernel
  have hwhole : (respond unmarshalCalls (some renderedCall) brokenPieces).toolCalls.map ToolCall.name =
    [ascii "a", ascii "b"] := by
    decide +kernel
  intro h
  have hlength := congrArg List.length h
  rw [List.length_map, List.length_map, ← List.length_map ToolCall.name, hsent, ← List.length_map ToolCall.name,
    hwhole] at hlength
  nomatch hlength

end Ollama.Server
