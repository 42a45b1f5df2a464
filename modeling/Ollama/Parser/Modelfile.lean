import Ollama.Lib.Runes
import Ollama.Lib.Strings
import Ollama.Lib.Trim

/-!
# Modelfiles

A Modelfile is read rune by rune by a machine with six states: between commands, in the name of a command, in its
value, in the name of a parameter, in the role of a message and in a comment. A value ends at a line break at which
what has been read of it, without the blanks around it, is not the beginning of a quoted text. `Command.String` writes
a command as a line again, with quotes around an argument that has a line break in it or a blank at an end.
-/

namespace Ollama.Parser

open Lib

/-! ## Runes -/

/-- `isAlpha`. -/
def isAlpha (r : Char) : Bool := (decide ('a' ≤ r) && decide (r ≤ 'z')) || (decide ('A' ≤ r) && decide (r ≤ 'Z'))

/-- `isNumber`. -/
def isNumber (r : Char) : Bool := decide ('0' ≤ r) && decide (r ≤ '9')

/-- `isSpace`. -/
def isSpace (r : Char) : Bool := r == ' ' || r == '\t'

/-- `isNewline`. -/
def isNewline (r : Char) : Bool := r == '\r' || r == '\n'

/-- `unicode.IsSpace`, which `strings.TrimSpace` asks. -/
def unicodeIsSpace (r : Char) : Bool :=
  (decide (0x09 ≤ r.toNat) && decide (r.toNat ≤ 0x0d)) || r.toNat == 0x20 || r.toNat == 0x85 || r.toNat ==
    0xa0 || r.toNat == 0x1680 ||
    (decide (0x2000 ≤ r.toNat) && decide (r.toNat ≤ 0x200a)) || r.toNat == 0x2028 || r.toNat == 0x2029 || r.toNat
      == 0x202f ||
    r.toNat == 0x205f || r.toNat == 0x3000

/-- `strings.TrimSpace`. -/
def trimSpace (s : List Char) : List Char := trim unicodeIsSpace s

/-- `unicode.ToLower` on the runes for which it gives an ASCII letter: the capitals, the Kelvin sign and the dotted I.
No name of a command has what it gives for another rune. -/
def toLowerRune (r : Char) : Char :=
  if 'A' ≤ r ∧ r ≤ 'Z' then Char.ofNat (r.toNat + 32)
  else if r = '\u212a' then 'k'
  else if r = '\u0130' then 'i'
  else r

/-- `strings.ToLower`. -/
def toLower (s : List Char) : List Char := s.map toLowerRune

/-- `strconv.IsPrint`, as it is documented: of the ASCII runes those from the blank to the tilde can be printed, and
of all blanks only that one. -/
structure PrintTable where
  isPrint : Char → Bool
  ascii : ∀ r : Char, r.toNat < 0x80 → isPrint r = (decide (0x20 ≤ r.toNat) && decide (r.toNat ≤ 0x7e))
  blank : ∀ r : Char, unicodeIsSpace r = true → r ≠ ' ' → isPrint r = false

/-- The bytes of a text. -/
def encode (s : List Char) : Bytes := Utf8.ofRunes (s.map Char.toNat)

/-- The decoder that a file is read through, `unicode.BOMOverride` over the one of UTF-8: what is written in UTF-8 is
read as it is where it does not begin with a byte order mark. -/
structure Decoder where
  decode : Bytes → List Char
  utf8 : ∀ s : List Char, s.head? ≠ some '\ufeff' → decode (encode s) = s

/-! ## Commands -/

/-- `Command`. -/
structure Command where
  name : List Char
  args : List Char
  deriving DecidableEq, Repr

/-- `Modelfile`. -/
structure Modelfile where
  commands : List Command
  deriving DecidableEq, Repr

/-- `"""`. -/
def tripleQuote : List Char := ['"', '"', '"']

/-- `quote`. -/
def quote (s : List Char) : List Char :=
  if '\n' ∈ s ∨ s.head? = some ' ' ∨ s.getLast? = some ' ' then
    if '"' ∈ s then tripleQuote ++ (s ++ tripleQuote) else ['"'] ++ (s ++ ['"'])
  else s

/-- `unquote`. Quotes are single bytes, so the lengths can be those in runes. -/
def unquote (s : List Char) : Option (List Char) :=
  if 3 ≤ s.length ∧ s.take 3 = tripleQuote then
    if 6 ≤ s.length ∧ s.drop (s.length - 3) = tripleQuote then some ((s.take (s.length - 3)).drop 3) else none
  else if s.head? = some '"' then
    if 2 ≤ s.length ∧ s.getLast? = some '"' then some ((s.take (s.length - 1)).drop 1) else none
  else some s

/-- `strings.Cut`, of which the last answer is not used. -/
def cut (s sep : List Char) : List Char × List Char :=
  match index sep s with
  | some i => (s.take i, s.drop (i + sep.length))
  | none => (s, [])

/-- `Command.String`. -/
def Command.string (c : Command) : List Char :=
  if c.name = "model".toList then "FROM ".toList ++ c.args
  else if c.name = "license".toList then "LICENSE ".toList ++ quote c.args
  else if c.name = "template".toList then "TEMPLATE ".toList ++ quote c.args
  else if c.name = "system".toList then "SYSTEM ".toList ++ quote c.args
  else if c.name = "adapter".toList then "ADAPTER ".toList ++ quote c.args
  else if c.name = "message".toList then
    "MESSAGE ".toList ++ ((cut c.args ": ".toList).1 ++ [' '] ++ quote (cut c.args ": ".toList).2)
  else "PARAMETER ".toList ++ (c.name ++ [' '] ++ quote c.args)

/-- `Modelfile.String`. -/
def Modelfile.string (m : Modelfile) : List Char := m.commands.flatMap (fun c => c.string ++ ['\n'])

/-- `isValidMessageRole`. -/
def isValidMessageRole (role : List Char) : Bool :=
  role == "system".toList || role == "user".toList || role == "assistant".toList

/-- `isValidCommand`. -/
def isValidCommand (cmd : List Char) : Bool :=
  ["from".toList, "license".toList, "template".toList, "system".toList, "adapter".toList, "parameter".toList,
    "message".toList].contains
    (toLower cmd)

/-! ## The machine -/

/-- `state`. -/
inductive State where
  | nil
  | name
  | value
  | parameter
  | message
  | comment
  deriving DecidableEq, Repr

/-- The errors of `parseRuneForState`: `errInvalidCommand` and `io.ErrUnexpectedEOF`. -/
inductive RuneError where
  | invalidCommand
  | unexpectedEOF
  deriving DecidableEq, Repr

/-- The errors of `ParseFile`: `io.ErrUnexpectedEOF` at the end of the input, the same with the text that had been
read before a rune that cannot follow it, a `ParserError` and `errMissingFrom`. -/
inductive ParseError where
  | unexpectedEOF
  | unexpectedEOFAfter (text : List Char)
  | parserError (lineNumber : Nat) (msg : String)
  | missingFrom
  deriving DecidableEq, Repr

/-- The text of `errInvalidMessageRole`. -/
def errInvalidMessageRole : String := "message role must be one of \"system\", \"user\", or \"assistant\""

/-- The text of `errInvalidCommand`. -/
def errInvalidCommand : String :=
  "command must be one of \"from\", \"license\", \"template\", \"system\", \"adapter\", \"parameter\", or \"message\""

/-- The rune that stands for none. -/
def noRune : Char := '\x00'

/-- `parseRuneForState`. -/
def parseRuneForState (r : Char) : State → Except RuneError (State × Char)
  | .nil =>
    if r = '#' then .ok (.comment, noRune)
    else if isSpace r || isNewline r then .ok (.nil, noRune)
    else .ok (.name, r)
  | .name =>
    if isAlpha r then .ok (.name, r)
    else if isSpace r then .ok (.value, noRune)
    else .error .invalidCommand
  | .value =>
    if isNewline r then .ok (.nil, r)
    else if isSpace r then .ok (.nil, r)
    else .ok (.value, r)
  | .parameter =>
    if isAlpha r || isNumber r || r == '_' then .ok (.parameter, r)
    else if isSpace r then .ok (.value, noRune)
    else .error .unexpectedEOF
  | .message =>
    if isAlpha r then .ok (.message, r)
    else if isSpace r then .ok (.value, noRune)
    else .error .unexpectedEOF
  | .comment =>
    if isNewline r then .ok (.nil, noRune)
    else .ok (.comment, noRune)

/-- The variables of `ParseFile`. -/
structure Scanner where
  cmd : Command := ⟨[], []⟩
  curr : State := .nil
  currLine : Nat := 1
  b : List Char := []
  role : List Char := []
  commands : List Command := []
  deriving DecidableEq, Repr

/-- A rune is written to the buffer if it can be printed. -/
def Scanner.put (T : PrintTable) (r : Char) (p : Scanner) : Scanner :=
  if T.isPrint r then { p with b := p.b ++ [r] } else p

/-- The buffer is emptied for the state that follows. -/
def Scanner.enter (next : State) (p : Scanner) : Scanner := { p with b := [], curr := next }

/-- What the name of a command says: the name that the command gets, and the state that follows where it is not `next`. -/
def Scanner.command (s : List Char) (next : State) (p : Scanner) : Scanner :=
  if s = "from".toList then { p with cmd.name := "model".toList }.enter next
  else if s = "parameter".toList then p.enter .parameter
  else if s = "message".toList then { p with cmd.name := s }.enter .message
  else { p with cmd.name := s }.enter next

/-- The argument of a command, after the role where there is one. -/
def Scanner.argument (s : List Char) (p : Scanner) : List Char := if p.role ≠ [] then p.role ++ ": ".toList ++ s else s

/-- The command gets its argument and is added to the commands. -/
def Scanner.append (s : List Char) (p : Scanner) : Scanner :=
  { p with cmd.args := p.argument s, role := [], commands := p.commands ++ [{ p.cmd with args := p.argument s }] }

/-- What a rune does at the end of a state: `next` is the state that follows and `r` the rune, as `parseRuneForState`
gives them. -/
def Scanner.transition (T : PrintTable) (next : State) (r : Char) (p : Scanner) : Except ParseError Scanner :=
  match p.curr with
  | .name =>
    if isValidCommand p.b then .ok ((p.command (toLower p.b) next).put T r)
    else .error (.parserError p.currLine errInvalidCommand)
  | .parameter => .ok (({ p with cmd.name := p.b }.enter next).put T r)
  | .message =>
    if isValidMessageRole p.b then .ok (({ p with role := p.b }.enter next).put T r)
    else .error (.parserError p.currLine errInvalidMessageRole)
  | .comment => .ok ((p.enter next).put T r)
  | .nil => .ok ((p.enter next).put T r)
  | .value =>
    match unquote (trimSpace p.b) with
    | none => .ok { p with b := p.b ++ [r] }
    | some s => if isSpace r then .ok { p with b := p.b ++ [r] } else .ok (((p.append s).enter next).put T r)

/-- One turn of the loop of `ParseFile`, on the rune `r`. -/
def Scanner.step (T : PrintTable) (p : Scanner) (r : Char) : Except ParseError Scanner :=
  let p' := if isNewline r then { p with currLine := p.currLine + 1 } else p
  match parseRuneForState r p'.curr with
  | .error .unexpectedEOF => .error (.unexpectedEOFAfter p'.b)
  | .error .invalidCommand => .error (.parserError p'.currLine errInvalidCommand)
  | .ok (next, r') => if next = p'.curr then .ok (p'.put T r') else p'.transition T next r'

/-- The loop of `ParseFile`. -/
def Scanner.run (T : PrintTable) (p : Scanner) : List Char → Except ParseError Scanner
  | [] => .ok p
  | r :: rs => (p.step T r).bind (fun p' => p'.run T rs)

/-- What `ParseFile` makes of its variables at the end of the input. -/
def Scanner.finish (p : Scanner) : Except ParseError (List Command) :=
  match p.curr with
  | .comment => .ok p.commands
  | .nil => .ok p.commands
  | .value =>
    match unquote (trimSpace p.b) with
    | none => .error .unexpectedEOF
    | some s => .ok (p.append s).commands
  | _ => .error .unexpectedEOF

/-- `ParseFile` on the runes of a file. -/
def parseRunes (T : PrintTable) (input : List Char) : Except ParseError Modelfile :=
  (({} : Scanner).run T input).bind (fun p => p.finish.bind (fun commands =>
    if commands.any (fun c => c.name == "model".toList) then .ok ⟨commands⟩ else .error .missingFrom))

/-- `ParseFile`. -/
def parseFile (T : PrintTable) (D : Decoder) (input : Bytes) : Except ParseError Modelfile :=
  parseRunes T (D.decode input)

end Ollama.Parser
