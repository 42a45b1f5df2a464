import Ollama.Lib.Cfg
import Ollama.Lib.Strings
import Ollama.Lib.System
import Ollama.Lib.Utf8

/-!
# Grammars that constrain what is sampled

`llama-grammar.cpp` behind its parser: rules as vectors of elements, the stacks of a grammar, which point into the
rules, and what happens to them when a character is accepted, when the candidates for the next token are checked, and
when a token is accepted. A stack is written from its top on. Code points and rule ids are numbers; none gets as large
as 2³².

The recursion of `llama_grammar_advance_stack` is as deep as the stack of the thread lets it: `depth` is how many calls fit.
-/

namespace Ollama.Llama

open Lib

/-- How an operation ends that gives no result: the recursion is too deep, an assertion fails, memory outside of a
vector is read, or a `std::runtime_error` is thrown. -/
inductive Failure where
  | overflow
  | abort
  | outOfBounds
  | thrown
  deriving DecidableEq

/-! ## Rules -/

/-- `llama_gretype`. -/
inductive GreType where
  | end_
  | alt
  | ruleRef
  | char
  | charNot
  | charRngUpper
  | charAlt
  | charAny
  deriving DecidableEq

/-- `llama_grammar_element`: a code point or the id of a rule. -/
structure Element where
  type : GreType
  value : Nat
  deriving DecidableEq

/-- `llama_grammar_rule`. -/
abbrev Rule := List Element

/-- `llama_grammar_rules`. -/
abbrev Rules := List Rule

/-- A pointer to an element of a rule. -/
structure Pos where
  rule : Nat
  offset : Nat
  deriving DecidableEq

/-- A pointer that is moved on. -/
def Pos.add (pos : Pos) (n : Nat) : Pos := ⟨pos.rule, pos.offset + n⟩

/-- The elements from a pointer on. -/
def Rules.from (rules : Rules) (pos : Pos) : List Element := (rules[pos.rule]?.getD []).drop pos.offset

/-- Whether the element that is pointed to is of a type. -/
def pointsTo (type : GreType) : List Element → Bool
  | [] => false
  | elem :: _ => elem.type = type

/-- `llama_grammar_is_end_of_sequence`. -/
def isEndOfSequence : List Element → Bool
  | [] => true
  | elem :: _ => elem.type = .end_ ∨ elem.type = .alt

/-- `llama_partial_utf8`: the bits so far, and how many bytes remain, or `-1` behind an invalid sequence. -/
structure PartialUtf8 where
  value : Nat
  nRemain : Int
  deriving DecidableEq

/-! ## Characters -/

/-- The loop of `llama_grammar_match_char`: whether the character is found, and how many elements are passed. -/
def matchCharLoop (chr : Nat) : List Element → Bool × Nat
  | [] => (false, 0)
  | elem :: elems =>
    match elems with
    | ⟨.charRngUpper, upper⟩ :: elems =>
      let found := decide (elem.value ≤ chr ∧ chr ≤ upper)
      if pointsTo .charAlt elems then
        let out := matchCharLoop chr elems
        (found || out.1, out.2 + 2)
      else
        (found, 2)
    | elems =>
      let found := decide (elem.type = .charAny ∨ elem.value = chr)
      if pointsTo .charAlt elems then
        let out := matchCharLoop chr elems
        (found || out.1, out.2 + 1)
      else
        (found, 1)

/-- Whether a character range begins here, and is not an inverse one; the assertion fails where none begins. -/
def isPositiveChar : List Element → Except Failure Bool
  | [] => .error .outOfBounds
  | elem :: _ =>
    if elem.type = .char ∨ elem.type = .charAny then .ok true
    else if elem.type = .charNot then .ok false
    else .error .abort

/-- `llama_grammar_match_char`: whether the character satisfies the range, and the elements of the range. -/
def matchChar (elems : List Element) (chr : Nat) : Except Failure (Bool × Nat) := do
  let isPositive ← isPositiveChar elems
  let out := matchCharLoop chr elems
  .ok (out.1 == isPositive, out.2)

/-- The loop of `llama_grammar_match_partial_char`: whether it returns before the end of the range, and then whether
it is at a `.`. -/
def matchPartialLoop (low high : Nat) : List Element → Option Bool
  | [] => none
  | elem :: elems =>
    match elems with
    | ⟨.charRngUpper, upper⟩ :: elems =>
      if elem.value ≤ high ∧ low ≤ upper then some false
      else if pointsTo .charAlt elems then matchPartialLoop low high elems
      else none
    | elems =>
      if elem.type = .charAny then some true
      else if low ≤ elem.value ∧ elem.value ≤ high then some false
      else if pointsTo .charAlt elems then matchPartialLoop low high elems
      else none

/-- The least code point that an incomplete sequence is completed to. -/
def lowOf (partialUtf8 : PartialUtf8) : Nat :=
  let low := partialUtf8.value <<< (partialUtf8.nRemain.toNat * 6)
  if low = 0 then
    if partialUtf8.nRemain = 2 then 1 <<< 11
    else if partialUtf8.nRemain = 3 then 1 <<< 16
    else low
  else
    low

/-- The greatest. -/
def highOf (partialUtf8 : PartialUtf8) : Nat :=
  (partialUtf8.value <<< (partialUtf8.nRemain.toNat * 6)) ||| (1 <<< (partialUtf8.nRemain.toNat * 6) - 1)

/-- `llama_grammar_match_partial_char`. -/
def matchPartialChar (elems : List Element) (partialUtf8 : PartialUtf8) : Except Failure Bool := do
  let isPositive ← isPositiveChar elems
  if partialUtf8.nRemain < 0 ∨ (partialUtf8.nRemain = 1 ∧ partialUtf8.value < 2) then
    .ok false
  else
    match matchPartialLoop (lowOf partialUtf8) (highOf partialUtf8) elems with
    | some any => .ok (any || isPositive)
    | none => .ok !isPositive

/-! ## Text -/

/-- The characters of a C string: those before its first zero. -/
def cStr (src : Bytes) : Bytes := src.takeWhile (· ≠ 0)

/-- The loop that continues a sequence: the value and the bytes that remain, with the rest of the text, or nothing if
the sequence is invalid. -/
def continueSequence : Nat → Nat → Bytes → Option (Nat × Nat × Bytes)
  | value, n + 1, b :: src =>
    if b.toNat >>> 6 ≠ 2 then none else continueSequence ((value <<< 6) + (b.toNat &&& 0x3F)) n src
  | value, nRemain, src => some (value, nRemain, src)

/-- `lookup[highbits] - 1`, the bytes behind a first byte. -/
def remaining (b : UInt8) : Int :=
  ([1, 1, 1, 1, 1, 1, 1, 1, 0, 0, 0, 0, 2, 2, 3, 4] : List Int).getD (b.toNat >>> 4) 0 - 1

/-- The loop over the sequences that follow, and the loop in it, byte by byte: the code points, and what is left of
the last sequence, or the bytes that remain according to a first byte that is none. -/
def decodeSequences : Nat → Nat → Bytes → Except Int (List Nat × Nat × Nat)
  | value, nRemain, [] => .ok ([], value, nRemain)
  | _, 0, b :: src =>
    if remaining b < 0 then
      .error (remaining b)
    else
      let nRemain := (remaining b).toNat
      let value := b.toNat &&& (1 <<< (7 - nRemain) - 1)
      match decodeSequences value nRemain src with
      | .error n => .error n
      | .ok (codePoints, left) => .ok (if nRemain = 0 then value :: codePoints else codePoints, left)
  | value, n + 1, b :: src =>
    let value := (value <<< 6) + (b.toNat &&& 0x3F)
    match decodeSequences value n src with
    | .error n => .error n
    | .ok (codePoints, left) => .ok (if n = 0 then value :: codePoints else codePoints, left)

/-- `decode_utf8`: the code points, with a zero behind them, and what is left of the last sequence. -/
def decodeUtf8 (src : Bytes) (partialStart : PartialUtf8) : List Nat × PartialUtf8 :=
  match continueSequence partialStart.value partialStart.nRemain.toNat (cStr src) with
  | none => ([0], ⟨0, -1⟩)
  | some (value, nRemain, rest) =>
    let continued := if partialStart.nRemain > 0 ∧ nRemain = 0 then [value] else []
    if rest = [] then
      (continued ++ [0], ⟨value, if partialStart.nRemain > 0 then nRemain else partialStart.nRemain⟩)
    else
      match decodeSequences value nRemain rest with
      | .error n => ([0], ⟨0, n⟩)
      | .ok (codePoints, value, nRemain) => (continued ++ codePoints ++ [0], ⟨value, nRemain⟩)

/-! ## Stacks -/

/-- `llama_grammar_stack`. -/
abbrev Stack := List Pos

/-- A pointer is pushed unless it points to the end of a sequence. -/
def pushUnlessEnd (rules : Rules) (pos : Pos) (stack : Stack) : Stack :=
  if isEndOfSequence (rules.from pos) then stack else pos :: stack

/-- The stack is added unless it is there. -/
def addStack (stack : Stack) (newStacks : List Stack) : List Stack :=
  if stack ∈ newStacks then newStacks else newStacks ++ [stack]

/-- Where further alternates begin behind an offset. -/
def altStartsFrom : Nat → List Element → List Nat
  | _, [] => []
  | offset, elem :: elems =>
    match elem.type with
    | .end_ => []
    | .alt => (offset + 1) :: altStartsFrom (offset + 1) elems
    | _ => altStartsFrom (offset + 1) elems

/-- Where the alternates of a rule begin. -/
def altStarts (rule : Rule) : List Nat := 0 :: altStartsFrom 0 rule

/-- `llama_grammar_advance_stack`. -/
def advanceStack (rules : Rules) : Nat → Stack → List Stack → Except Failure (List Stack)
  | 0, _, _ => .error .overflow
  | _ + 1, [], newStacks => .ok (addStack [] newStacks)
  | depth + 1, pos :: below, newStacks =>
    match rules.from pos with
    | [] => .error .outOfBounds
    | elem :: _ =>
      match elem.type with
      | .ruleRef =>
        match rules[elem.value]? with
        | none => .error .outOfBounds
        | some rule =>
          (altStarts rule).foldlM (fun newStacks start =>
            advanceStack rules depth (pushUnlessEnd rules ⟨elem.value,
              start⟩ (pushUnlessEnd rules (pos.add 1) below)) newStacks) newStacks
      | .char | .charNot | .charAny => .ok (addStack (pos :: below) newStacks)
      | _ => .error .abort

/-- The stack behind the range at its top, in `llama_grammar_accept`. -/
def acceptStack (depth : Nat) (rules : Rules) (chr : Nat) (newStacks : List Stack) : Stack → Except Failure (List Stack)
  | [] => .ok newStacks
  | pos :: below => do
    let (found, passed) ← matchChar (rules.from pos) chr
    if found then advanceStack rules depth (pushUnlessEnd rules (pos.add passed) below) newStacks else .ok newStacks

/-- `llama_grammar_accept`. -/
def accept (depth : Nat) (rules : Rules) (stacks_ : List Stack) (chr : Nat) : Except Failure (List Stack) :=
  stacks_.foldlM (acceptStack depth rules chr) []

/-! ## Candidates -/

/-- `llama_grammar_candidate`. The pointer to the code points is their list and an index. -/
structure Candidate where
  index : Nat
  codePoints : List Nat
  pos : Nat
  partialUtf8 : PartialUtf8
  deriving DecidableEq

/-- The code point that a candidate points to. -/
def Candidate.codePoint (tok : Candidate) : Nat := tok.codePoints.getD tok.pos 0

/-- Whether a candidate without further code points is kept. -/
def endsWell (elems : List Element) (partialUtf8 : PartialUtf8) : Except Failure Bool :=
  if partialUtf8.nRemain ≠ 0 then matchPartialChar elems partialUtf8 else .ok true

/-- The loop of `llama_grammar_reject_candidates_for_stack` over the candidates: those that are rejected, and the next
candidates. -/
def checkCandidates (elems : List Element) : List Candidate → Except Failure (List Candidate × List Candidate)
  | [] => .ok ([], [])
  | tok :: candidates => do
    if tok.codePoint = 0 then
      let ok ← endsWell elems tok.partialUtf8
      let out ← checkCandidates elems candidates
      .ok (if ok then out else (tok :: out.1, out.2))
    else
      let (found, _) ← matchChar elems tok.codePoint
      let out ← checkCandidates elems candidates
      .ok (if found then (out.1, { tok with pos := tok.pos + 1 } :: out.2) else (tok :: out.1, out.2))

/-- `llama_grammar_reject_candidates_for_stack`. -/
def rejectForStack (rejectNext : List Stack → List Candidate → Except Failure (List Candidate)) (depth : Nat)
    (rules : Rules) (candidates : List Candidate) : Stack → Except Failure (List Candidate)
  | [] => .ok (candidates.filter (fun tok => tok.codePoint ≠ 0 ∨ tok.partialUtf8.nRemain ≠ 0))
  | pos :: below => do
    let (rejects, nextCandidates) ← checkCandidates (rules.from pos) candidates
    let (_, passed) ← matchChar (rules.from pos) 0
    let nextStacks ← advanceStack rules depth (pushUnlessEnd rules (pos.add passed) below) []
    let nextRejects ← rejectNext nextStacks nextCandidates
    .ok (rejects ++ nextRejects.map (fun tok => { tok with pos := tok.pos - 1 }))

/-- `llama_grammar_reject_candidates`, where so many calls of it fit. -/
def rejectCandidates (depth : Nat) (rules : Rules) : Nat → List Stack → List Candidate → Except Failure (List Candidate)
  | 0, _, _ => .error .overflow
  | calls + 1, stacks_, candidates =>
    match stacks_ with
    | [] => .error .abort
    | stack :: stacks_ =>
      if candidates = [] then
        .ok []
      else do
        let rejects ← rejectForStack (rejectCandidates depth rules calls) depth rules candidates stack
        stacks_.foldlM (fun rejects stack =>
          rejectForStack (rejectCandidates depth rules calls) depth rules rejects stack) rejects

/-! ## Left recursion -/

/-- The vectors of `llama_grammar_detect_left_recursion`. -/
structure Flags where
  visited : List Bool
  inProgress : List Bool
  mayBeEmpty : List Bool

/-- The loop that looks for an empty alternate. -/
def hasEmptyAlternate : Bool → List Element → Bool
  | _, [] => false
  | atStart, elem :: elems =>
    if isEndOfSequence (elem :: elems) then
      if atStart then true else hasEmptyAlternate true elems
    else
      hasEmptyAlternate false elems

/-- The loop over the leftmost rules of the alternates. -/
def detectElements (detect : Nat → Flags → Except Failure (Bool × Flags)) :
    Bool → List Element → Flags → Except Failure (Bool × Flags)
  | _, [], flags => .ok (false, flags)
  | recurse, elem :: elems, flags =>
    if elem.type = .ruleRef ∧ recurse then do
      let (found, flags) ← detect elem.value flags
      if found then .ok (true, flags) else detectElements detect (flags.mayBeEmpty.getD elem.value false) elems flags
    else
      detectElements detect (isEndOfSequence (elem :: elems)) elems flags

/-- `llama_grammar_detect_left_recursion`, where so many calls of it fit. -/
def detectLeftRecursion (rules : Rules) : Nat → Nat → Flags → Except Failure (Bool × Flags)
  | 0, _, _ => .error .overflow
  | calls + 1, index, flags =>
    match rules[index]? with
    | none => .error .outOfBounds
    | some rule =>
      if flags.inProgress.getD index false then
        .ok (true, flags)
      else do
        let flags := { flags with inProgress := flags.inProgress.set index true }
        let flags := if hasEmptyAlternate true rule
          then { flags with mayBeEmpty := flags.mayBeEmpty.set index true } else flags
        let (found, flags) ← detectElements (detectLeftRecursion rules calls) true rule flags
        if found then
          .ok (true, flags)
        else
          .ok (false,
            { flags with inProgress := flags.inProgress.set index false, visited := flags.visited.set index true })

/-- The loop over all rules in `llama_grammar_init_impl`. -/
def detectAll (rules : Rules) (calls : Nat) : List Nat → Flags → Except Failure Bool
  | [], _ => .ok false
  | index :: indexes, flags =>
    if flags.visited.getD index false then
      detectAll rules calls indexes flags
    else do
      let (found, flags) ← detectLeftRecursion rules calls index flags
      if found then .ok true else detectAll rules calls indexes flags

/-- Whether `llama_grammar_init_impl` refuses the rules. -/
def leftRecursive (rules : Rules) (calls : Nat) : Except Failure Bool :=
  let none_ := List.replicate rules.length false
  detectAll rules calls (List.range rules.length) ⟨none_, none_, none_⟩

/-! ## Grammars -/

/-- What a grammar asks the vocabulary. -/
structure Vocab where
  tokenToPiece : Nat → Bytes
  isEog : Nat → Bool

/-- `llama_grammar`. -/
structure Grammar where
  rules : Rules
  stacks_ : List Stack
  partialUtf8 : PartialUtf8
  lazy : Bool
  awaitingTrigger : Bool
  triggerBuffer : Bytes
  triggerTokens : List Nat
  triggerWords : List Bytes

/-- A rule as it is copied: up to the first end. -/
def copyRule (rule : Rule) : Rule := rule.takeWhile (fun elem => elem.type ≠ .end_) ++ [⟨.end_, 0⟩]

/-- The initial stacks. -/
def initStacks (depth : Nat) (rules : Rules) (start : Nat) : Except Failure (List Stack) :=
  match rules[start]? with
  | none => .error .outOfBounds
  | some rule =>
    (altStarts rule).foldlM (fun stacks_ alt =>
      advanceStack rules depth (pushUnlessEnd rules ⟨start, alt⟩ []) stacks_) []

/-- `llama_grammar_init_impl` behind the parser: a null pointer if the rules are refused. -/
def initImpl (calls depth : Nat) (parsed : Rules) (start : Nat) (lazy : Bool) (triggerWords : List Bytes)
    (triggerTokens : List Nat) :
    Except Failure (Option Grammar) := do
  let rules := parsed.map copyRule
  if ← leftRecursive rules calls then
    .ok none
  else
    let stacks_ ← initStacks depth rules start
    .ok (some ⟨rules, stacks_, ⟨0, 0⟩, lazy, lazy, [], triggerTokens, triggerWords⟩)

/-- The candidates of `llama_grammar_apply_impl`, and the indexes that get no logit before they are checked. -/
def candidatesOf (vocab : Vocab) (g : Grammar) : Nat → List Nat → List Nat × List Candidate
  | _, [] => ([], [])
  | i, id :: ids =>
    let out := candidatesOf vocab g (i + 1) ids
    if vocab.isEog id then
      if [] ∈ g.stacks_ then out else (i :: out.1, out.2)
    else if (vocab.tokenToPiece id).head?.all (· = 0) then
      (i :: out.1, out.2)
    else
      let decoded := decodeUtf8 (vocab.tokenToPiece id) g.partialUtf8
      (out.1, ⟨i, decoded.1, 0, decoded.2⟩ :: out.2)

/-- `llama_grammar_apply_impl`: the indexes of the tokens whose logit becomes `-INFINITY`. -/
def applyImpl (calls depth : Nat) (vocab : Vocab) (g : Grammar) (ids : List Nat) : Except Failure (List Nat) :=
  if g.awaitingTrigger then
    .ok []
  else do
    let (masked, candidates) := candidatesOf vocab g 0 ids
    let rejects ← rejectCandidates depth g.rules calls g.stacks_ candidates
    .ok (masked ++ rejects.map Candidate.index)

/-- `llama_grammar_accept_str`. -/
def acceptStr (depth : Nat) (g : Grammar) (piece : Bytes) : Except Failure Grammar := do
  let decoded := decodeUtf8 piece g.partialUtf8
  let stacks_ ← decoded.1.dropLast.foldlM (accept depth g.rules) g.stacks_
  if stacks_ = [] then .error .thrown else .ok { g with stacks_ := stacks_, partialUtf8 := decoded.2 }

/-- `llama_grammar_accept_impl`. -/
def acceptImpl (depth : Nat) (vocab : Vocab) (g : Grammar) (token : Nat) : Except Failure Grammar :=
  let piece := vocab.tokenToPiece token
  if g.awaitingTrigger then
    if token ∈ g.triggerTokens then
      acceptStr depth { g with awaitingTrigger := false, triggerBuffer := [] } piece
    else
      let buffer := g.triggerBuffer ++ piece
      match g.triggerWords.findSome? (fun word => index word buffer) with
      | some pos => acceptStr depth { g with awaitingTrigger := false, triggerBuffer := [] } (buffer.drop pos)
      | none => .ok { g with triggerBuffer := buffer }
  else if vocab.isEog token then
    if [] ∈ g.stacks_ then .ok g else .error .abort
  else
    acceptStr depth g piece

/-!
## Generation under a grammar

A generation is a grammar and the tokens that were accepted. A token is sampled from those whose logit
`llama_grammar_apply_impl` leaves alone, and is then accepted by `llama_grammar_accept_impl`.
-/

/-- A grammar, and the tokens it has accepted. -/
structure Generation where
  grammar : Grammar
  tokens : List Nat

/-- The text of the tokens, as the grammar reads it: a token that ends the generation has none. -/
def Generation.bytes (vocab : Vocab) (s : Generation) : Bytes :=
  s.tokens.flatMap (fun id => if vocab.isEog id then [] else cStr (vocab.tokenToPiece id))

/-- Tokens are accepted. -/
def generation (depth : Nat) (vocab : Vocab) (first : Grammar) : Machine Generation Nat where
  init s := s = ⟨first, []⟩
  act s token := (acceptImpl depth vocab s.grammar token).toOption.map (fun g => ⟨g, s.tokens ++ [token]⟩)

/-- A token can be sampled: it is among tokens whose logits the grammar has been applied to, its own is left alone,
and no character of it is a zero. -/
def Sampled (calls depth : Nat) (vocab : Vocab) (s : Generation) (token : Nat) : Prop :=
  (∃ ids i masked, ids[i]? = some token ∧ applyImpl calls depth vocab s.grammar ids = .ok masked ∧ i ∉ masked) ∧
    0 ∉ (decodeUtf8 (vocab.tokenToPiece token) s.grammar.partialUtf8).1.dropLast

end Ollama.Llama
