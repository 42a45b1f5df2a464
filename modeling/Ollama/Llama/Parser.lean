import Ollama.Lib.Assoc
import Ollama.Lib.Decimal
import Ollama.Llama.Grammar

/-!
# The text of a grammar

The parser of `llama-grammar.cpp`: the text of a grammar becomes rules. A text ends before its first zero, and a
pointer into it is what is left of it. What is thrown makes `parse` answer that there is no grammar.

A loop takes so many rounds, of which each takes a character, and `depth` is how many groups may stand in one another.
-/

namespace Ollama.Llama

open Lib

/-! ## Characters, numbers and names -/

/-- The character that is pointed to: a zero behind the text. -/
def peek (src : Bytes) : UInt8 := src.headD 0

/-- `is_digit_char`. -/
def isDigitChar (c : UInt8) : Bool := 0x30 ≤ c ∧ c ≤ 0x39

/-- `is_word_char`: a letter, a digit or a dash. -/
def isWordChar (c : UInt8) : Bool := (0x61 ≤ c ∧ c ≤ 0x7A) ∨ (0x41 ≤ c ∧ c ≤ 0x5A) ∨ c = 0x2D ∨ isDigitChar c

/-- The value of a hexadecimal digit. -/
def hexValue (c : UInt8) : Option Nat :=
  if 0x61 ≤ c ∧ c ≤ 0x66 then some (c.toNat - 0x61 + 10)
  else if 0x41 ≤ c ∧ c ≤ 0x46 then some (c.toNat - 0x41 + 10)
  else if isDigitChar c then some (c.toNat - 0x30)
  else none

/-- `parse_hex`: so many digits. -/
def parseHex : (size : Nat) → Bytes → (value : Nat) → Except Failure (Nat × Bytes)
  | 0, src, value => .ok (value, src)
  | _ + 1, [], _ => .error .thrown
  | size + 1, c :: src, value =>
    match hexValue c with
    | none => .error .thrown
    | some digit => parseHex size src ((value <<< 4) + digit)

/-- The loop of `parse_space`, where it may be in a comment. -/
def parseSpaceFrom (newlineOk : Bool) : (comment : Bool) → Bytes → Bytes
  | _, [] => []
  | comment, c :: src =>
    if comment ∧ c ≠ 0x0D ∧ c ≠ 0x0A then parseSpaceFrom newlineOk true src
    else if c = 0x20 ∨ c = 0x09 then parseSpaceFrom newlineOk false src
    else if c = 0x23 then parseSpaceFrom newlineOk true src
    else if newlineOk ∧ (c = 0x0D ∨ c = 0x0A) then parseSpaceFrom newlineOk false src
    else c :: src

/-- `parse_space`. -/
def parseSpace (newlineOk : Bool) (src : Bytes) : Bytes := parseSpaceFrom newlineOk false src

/-- `parse_name`: the name and what is behind it. -/
def parseName (src : Bytes) : Except Failure (Bytes × Bytes) :=
  if src.takeWhile isWordChar = [] then .error .thrown else .ok (src.takeWhile isWordChar, src.dropWhile isWordChar)

/-- `parse_int`. -/
def parseInt (src : Bytes) : Except Failure (Bytes × Bytes) :=
  if src.takeWhile isDigitChar = [] then .error .thrown else .ok (src.takeWhile isDigitChar, src.dropWhile isDigitChar)

/-- `std::stoul` of digits, as an `int`. -/
def stoul (digits : Bytes) : Except Failure Int :=
  let n : Nat := digits.foldl (fun n c => n * 10 + (c.toNat - 0x30)) 0
  if n < 2 ^ 64 then .ok ((n : Int).bmod (2 ^ 32)) else .error .thrown

/-- `decode_utf8` of one character. -/
def decodeChar (b : UInt8) (src : Bytes) : Nat × Bytes :=
  let len := ([1, 1, 1, 1, 1, 1, 1, 1, 1, 1, 1, 1, 2, 2, 3, 4] : List Nat).getD (b.toNat >>> 4) 0
  let value := b.toNat &&& (1 <<< (8 - len) - 1)
  ((src.take (len - 1)).foldl (fun value b => (value <<< 6) + (b.toNat &&& 0x3F)) value, src.drop (len - 1))

/-- An escape, behind its backslash. -/
def parseEscape : Bytes → Except Failure (Nat × Bytes)
  | [] => .error .thrown
  | c :: src =>
    if c = 0x78 then parseHex 2 src 0
    else if c = 0x75 then parseHex 4 src 0
    else if c = 0x55 then parseHex 8 src 0
    else if c = 0x74 then .ok (0x09, src)
    else if c = 0x72 then .ok (0x0D, src)
    else if c = 0x6E then .ok (0x0A, src)
    else if c = 0x5C ∨ c = 0x22 ∨ c = 0x5B ∨ c = 0x5D then .ok (c.toNat, src)
    else .error .thrown

/-- `parse_char`. -/
def parseChar : Bytes → Except Failure (Nat × Bytes)
  | [] => .error .thrown
  | c :: src => if c = 0x5C then parseEscape src else .ok (decodeChar c src)

/-! ## Rules -/

/-- `llama_grammar_parser`. -/
structure Parser where
  symbolIds : List (Bytes × Nat) := []
  rules : Rules := []

/-- `get_symbol_id`. -/
def Parser.getSymbolId (p : Parser) (name : Bytes) : Nat × Parser :=
  match p.symbolIds.lookup name with
  | some id => (id, p)
  | none => (p.symbolIds.length, { p with symbolIds := p.symbolIds ++ [(name, p.symbolIds.length)] })

/-- `generate_symbol_id`. -/
def Parser.generateSymbolId (p : Parser) (baseName : Bytes) : Nat × Parser :=
  let nextId := p.symbolIds.length
  (nextId, { p with symbolIds := Assoc.set p.symbolIds (baseName ++ 0x5F :: decimal nextId) nextId })

/-- `add_rule`. -/
def Parser.addRule (p : Parser) (ruleId : Nat) (rule : Rule) : Parser :=
  { p with rules := (p.rules ++ List.replicate (ruleId + 1 - p.rules.length) []).set ruleId rule }

/-- The loop of `handle_repetitions` that adds so many rules, with the last one before. -/
def addRepetitions (ruleName : Bytes) (prevRule : Rule) (unbounded : Bool) :
    Nat → Option Nat → Parser → Option Nat × Parser
  | 0, last, p => (last, p)
  | n + 1, last, p =>
    let (recRuleId, p) := p.generateSymbolId ruleName
    let next := if unbounded then some recRuleId else last
    let recRule := prevRule ++ (next.map (fun id => ⟨.ruleRef, id⟩)).toList ++ [⟨.alt, 0⟩, ⟨.end_, 0⟩]
    addRepetitions ruleName prevRule unbounded n (some recRuleId) (p.addRule recRuleId recRule)

/-- `handle_repetitions`. A difference of the numbers that is not an `int` wraps around. -/
def handleRepetitions (ruleName : Bytes) (minTimes maxTimes : Int) (lastSymStart : Nat) (rule : Rule) (p : Parser) :
    Except Failure (Rule × Parser) :=
  if lastSymStart = rule.length then
    .error .thrown
  else
    let prevRule := rule.drop lastSymStart
    let repeated := if minTimes = 0 then rule.take lastSymStart
      else rule ++ (List.replicate (minTimes - 1).toNat prevRule).flatten
    let nOpt := if maxTimes < 0 then 1 else (maxTimes - minTimes).bmod (2 ^ 32)
    let (last, p) := addRepetitions ruleName prevRule (maxTimes < 0) nOpt.toNat none p
    .ok (repeated ++ (last.map (fun id => ⟨.ruleRef, id⟩)).toList, p)

/-! ## Sequences -/

/-- The loop over the characters of a literal. -/
def parseLiteral : (rounds : Nat) → Bytes → Except Failure (List Element × Bytes)
  | 0, _ => .error .overflow
  | _ + 1, [] => .error .thrown
  | rounds + 1, c :: src =>
    if c = 0x22 then
      .ok ([], src)
    else do
      let (chr, src) ← parseChar (c :: src)
      let (elems, src) ← parseLiteral rounds src
      .ok (⟨.char, chr⟩ :: elems, src)

/-- An upper bound, if there is one. -/
def parseUpper (src : Bytes) : Except Failure (List Element × Bytes) :=
  if peek src = 0x2D ∧ peek src.tail ≠ 0x5D then
    if src.tail = [] then
      .error .thrown
    else do
      let (chr, src) ← parseChar src.tail
      .ok ([⟨.charRngUpper, chr⟩], src)
  else
    .ok ([], src)

/-- The loop over the characters of a range: of the type of the first, or alternates. -/
def parseRange : (rounds : Nat) → (type : GreType) → Bytes → Except Failure (List Element × Bytes)
  | 0, _, _ => .error .overflow
  | _ + 1, _, [] => .error .thrown
  | rounds + 1, type, c :: src =>
    if c = 0x5D then
      .ok ([], src)
    else do
      let (chr, src) ← parseChar (c :: src)
      let (upper, src) ← parseUpper src
      let (elems, src) ← parseRange rounds .charAlt src
      .ok (⟨type, chr⟩ :: upper ++ elems, src)

/-- What stands between `{` and `}`: the least and the greatest number of times, or `-1`. -/
def parseTimes (isNested : Bool) (src : Bytes) : Except Failure (Int × Int × Bytes) := do
  let (digits, src) ← parseInt (parseSpace isNested src)
  let minTimes ← stoul digits
  let src := parseSpace isNested src
  if peek src = 0x7D then
    .ok (minTimes, minTimes, parseSpace isNested src.tail)
  else if peek src = 0x2C then
    let src := parseSpace isNested src.tail
    let (maxTimes, src) ←
      if isDigitChar (peek src) then do
        let (digits, src) ← parseInt src
        let maxTimes ← stoul digits
        .ok (maxTimes, parseSpace isNested src)
      else .ok (-1, src)
    if peek src = 0x7D then .ok (minTimes, maxTimes, parseSpace isNested src.tail) else .error .thrown
  else
    .error .thrown

/-- How often the symbol before is repeated, if the character says so. -/
def parseRepetition (isNested : Bool) (c : UInt8) (src : Bytes) : Except Failure (Option (Int × Int × Bytes)) :=
  if c = 0x2A then .ok (some (0, -1, parseSpace isNested src))
  else if c = 0x2B then .ok (some (1, -1, parseSpace isNested src))
  else if c = 0x3F then .ok (some (0, 1, parseSpace isNested src))
  else if c = 0x7B then (parseTimes isNested src).map some
  else .ok none

/-- The loop of `parse_sequence`. What is in a group is parsed by the function that is given: it gets the text, and
the id of the rule. -/
def parseSymbols (nested : Bytes → Nat → Parser → Except Failure (Bytes × Parser)) (ruleName : Bytes)
    (isNested : Bool) :
    (rounds : Nat) → Bytes → (lastSymStart : Nat) → Rule → Parser → Except Failure (Bytes × Rule × Parser)
  | 0, _, _, _, _ => .error .overflow
  | _ + 1, [], _, rule, p => .ok ([], rule, p)
  | rounds + 1, c :: src, lastSymStart, rule, p =>
    if c = 0x22 then do
      let (elems, src) ← parseLiteral (src.length + 1) src
      parseSymbols nested ruleName isNested rounds (parseSpace isNested src) rule.length (rule ++ elems) p
    else if c = 0x5B then do
      let inverse := peek src = 0x5E
      let src := if inverse then src.tail else src
      let (elems, src) ← parseRange (src.length + 1) (if inverse then .charNot else .char) src
      parseSymbols nested ruleName isNested rounds (parseSpace isNested src) rule.length (rule ++ elems) p
    else if isWordChar c then do
      let (name, src) ← parseName (c :: src)
      let (refRuleId, p) := p.getSymbolId name
      parseSymbols nested ruleName isNested rounds (parseSpace isNested src) rule.length
        (rule ++ [⟨.ruleRef, refRuleId⟩]) p
    else if c = 0x28 then do
      let (subRuleId, p) := p.generateSymbolId ruleName
      let (src, p) ← nested (parseSpace true src) subRuleId p
      if peek src ≠ 0x29 then .error .thrown
      else
        parseSymbols nested ruleName isNested rounds (parseSpace isNested src.tail) rule.length
          (rule ++ [⟨.ruleRef, subRuleId⟩]) p
    else if c = 0x2E then
      parseSymbols nested ruleName isNested rounds (parseSpace isNested src) rule.length (rule ++ [⟨.charAny, 0⟩]) p
    else do
      match ← parseRepetition isNested c src with
      | none => .ok (c :: src, rule, p)
      | some (minTimes, maxTimes, src) => do
        let (rule, p) ← handleRepetitions ruleName minTimes maxTimes lastSymStart rule p
        parseSymbols nested ruleName isNested rounds src lastSymStart rule p

/-- The loop of `parse_alternates` behind a sequence. -/
def parseMore (sequence : Bytes → Rule → Parser → Except Failure (Bytes × Rule × Parser)) :
    (rounds : Nat) → Bytes → Rule → Parser → Except Failure (Bytes × Rule × Parser)
  | 0, _, _, _ => .error .overflow
  | rounds + 1, src, rule, p =>
    if peek src = 0x7C then do
      let (src, rule, p) ← sequence (parseSpace true src.tail) (rule ++ [⟨.alt, 0⟩]) p
      parseMore sequence rounds src rule p
    else
      .ok (src, rule, p)

/-- `parse_alternates`. -/
def parseAlternates : (depth : Nat) → Bytes → (ruleName : Bytes) → (ruleId : Nat) → (isNested : Bool) → Parser →
    Except Failure (Bytes × Parser)
  | 0, _, _, _, _, _ => .error .overflow
  | depth + 1, src, ruleName, ruleId, isNested, p => do
    let nested := fun src subRuleId p => parseAlternates depth src ruleName subRuleId true p
    let sequence := fun (src : Bytes) (rule : Rule) p =>
      parseSymbols nested ruleName isNested (src.length + 1) src rule.length rule p
    let (src, rule, p) ← sequence src [] p
    let (src, rule, p) ← parseMore sequence (src.length + 1) src rule p
    .ok (src, p.addRule ruleId (rule ++ [⟨.end_, 0⟩]))

/-! ## Grammars -/

/-- What ends a rule. -/
def parseNewline : Bytes → Except Failure Bytes
  | [] => .ok []
  | c :: src =>
    if c = 0x0D then .ok (if peek src = 0x0A then src.tail else src)
    else if c = 0x0A then .ok src
    else .error .thrown

/-- `parse_rule`. -/
def parseRule (depth : Nat) (src : Bytes) (p : Parser) : Except Failure (Bytes × Parser) := do
  let (name, src) ← parseName src
  let src := parseSpace false src
  let (ruleId, p) := p.getSymbolId name
  if src.take 3 = [0x3A, 0x3A, 0x3D] then
    let (src, p) ← parseAlternates depth (parseSpace true (src.drop 3)) name ruleId false p
    let src ← parseNewline src
    .ok (parseSpace true src, p)
  else
    .error .thrown

/-- The loop of `parse` over the rules. -/
def parseRules (depth : Nat) : (rounds : Nat) → Bytes → Parser → Except Failure Parser
  | 0, _, _ => .error .overflow
  | _ + 1, [], p => .ok p
  | rounds + 1, c :: src, p => do
    let (src, p) ← parseRule depth (c :: src) p
    parseRules depth rounds src p

/-- Whether an element refers to a rule that is not defined, and that has a name. -/
def Parser.undefined (p : Parser) (elem : Element) : Bool :=
  elem.type = .ruleRef ∧ (p.rules[elem.value]?.getD []) = [] ∧ elem.value ∈ p.symbolIds.map Prod.snd

/-- `parse`, where it does not answer that there is no grammar. -/
def parse (depth : Nat) (src : Bytes) : Except Failure Parser := do
  let src := parseSpace true (cStr src)
  let p ← parseRules depth (src.length + 1) src {}
  if p.rules.any (fun rule => rule = [] ∨ rule.any p.undefined) then .error .thrown else .ok p

/-- `llama_grammar_init_impl` of a text: a null pointer if it is no grammar, or has no `root`. -/
def initStr (nesting calls depth : Nat) (grammarStr grammarRoot : Bytes) (lazy : Bool) (triggerWords : List Bytes)
    (triggerTokens : List Nat) :
    Except Failure (Option Grammar) :=
  match parse nesting grammarStr with
  | .error .thrown => .ok none
  | .error e => .error e
  | .ok parser =>
    if parser.rules = [] then
      .ok none
    else if parser.symbolIds.lookup [0x72, 0x6F, 0x6F, 0x74] = none then
      .ok none
    else
      match parser.symbolIds.lookup grammarRoot with
      | none => .error .thrown
      | some startRuleIndex => initImpl calls depth parser.rules startRuleIndex lazy triggerWords triggerTokens

end Ollama.Llama
