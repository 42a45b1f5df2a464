import Ollama.Lib.Paths
import Ollama.Lib.Strings
import Ollama.Names.Name

/-!
# Model names

`types/model/name.go`: a name has a host, a namespace, a model and a tag. `ParseNameBare` cuts a text from its end; a
part that a separator promises and that is empty is given a text that no valid part has. The bytes of a part are those
of the registry client's names.
-/

namespace Ollama.Types

open Lib Names

/-- `Name`. -/
structure Name where
  host : Bytes := []
  namespace_ : Bytes := []
  model : Bytes := []
  tag : Bytes := []
  deriving DecidableEq

/-- `MissingPart`. -/
def missingPart : Bytes := ascii "!MISSING!"

/-- `DefaultName`. -/
def defaultName : Name := { host := ascii "registry.ollama.ai", namespace_ := ascii "library", tag := ascii "latest" }

/-- `cmp.Or`, for two texts. -/
def or (s t : Bytes) : Bytes := if s = [] then t else s

/-! ## Validity -/

/-- `isValidLen`. -/
def isValidLen (kind : Part) (s : Bytes) : Bool :=
  match kind with
  | .host => s.length ≥ 1 && s.length ≤ 350
  | .tag => s.length ≥ 1 && s.length ≤ 80
  | _ => s.length ≥ 1 && s.length ≤ 80

/-- `isValidPart`. The source visits the first bytes of the runes: the first byte that is not of ASCII is one. -/
def isValidPart (kind : Part) (s : Bytes) : Bool :=
  if ¬isValidLen kind s then false
  else
    match s with
    | [] => true
    | c :: s => isAlphanumericOrUnderscore c && s.all (isPartByte kind)

/-- `Name.IsFullyQualified`. -/
def Name.isFullyQualified (n : Name) : Bool :=
  isValidPart .host n.host && isValidPart .namespace_ n.namespace_ && isValidPart .model n.model && isValidPart
    .tag n.tag

/-- `Name.IsValid`. -/
def Name.isValid (n : Name) : Bool := n.isFullyQualified

/-! ## Texts -/

/-- `strings.LastIndex`, for a text of one byte. -/
def lastIndex (s : Bytes) (c : UInt8) : Int :=
  match cutLastAny [c] s with
  | none => -1
  | some (before, _, _) => before.length

/-- `cutLast`. -/
def cutLast (s : Bytes) (sep : UInt8) : Bytes × Bytes × Bool :=
  match cutLastAny [sep] s with
  | none => (s, [], false)
  | some (before, after, _) => (before, after, true)

/-- `cutPromised`. -/
def cutPromised (s : Bytes) (sep : UInt8) : Bytes × Bytes × Bool :=
  let (before, after, ok) := cutLast s sep
  if ok then (or before missingPart, or after missingPart, true) else (before, after, false)

/-- What stands behind the first `://`, if there is one. -/
def cutScheme (s : Bytes) : Bytes :=
  match index (ascii "://") s with
  | none => s
  | some i => s.drop (i + 3)

/-- `ParseNameBare`, behind the cut for the tag. -/
def parseParts (s tag : Bytes) : Name :=
  let (s, model, promised) := cutPromised s 0x2f
  if ¬promised then { model := s, tag }
  else
    let (s, namespace_, promised) := cutPromised s 0x2f
    if ¬promised then { namespace_ := s, model, tag } else { host := cutScheme s, namespace_, model, tag }

/-- `ParseNameBare`. -/
def parseNameBare (s : Bytes) : Name :=
  if lastIndex s 0x3a > lastIndex s 0x2f then
    let (s, tag, _) := cutPromised s 0x3a
    parseParts s tag
  else parseParts s []

/-- `Merge`. -/
def merge (a b : Name) : Name :=
  { a with host := or a.host b.host, namespace_ := or a.namespace_ b.namespace_, tag := or a.tag b.tag }

/-- `ParseName`. -/
def parseName (s : Bytes) : Name := merge (parseNameBare s) defaultName

/-- `Name.String`. -/
def Name.string (n : Name) : Bytes :=
  (if n.host ≠ [] then n.host ++ [0x2f] else []) ++ (if n.namespace_ ≠ [] then n.namespace_ ++ [0x2f] else []) ++
    n.model ++ (if n.tag ≠ [] then 0x3a :: n.tag else [])

/-- `Name.DisplayShortest`. -/
def Name.displayShortest (n : Name) : Bytes :=
  (if ¬equalFold n.host defaultName.host then n.host ++ [0x2f] ++ n.namespace_ ++ [0x2f]
    else if ¬equalFold n.namespace_ defaultName.namespace_ then n.namespace_ ++ [0x2f]
    else []) ++ n.model ++ 0x3a :: n.tag

/-- `Name.Filepath`. It panics for a name that is not fully qualified. -/
def Name.filepath (n : Name) : Option Bytes :=
  if n.isFullyQualified then some (joinPath [n.host, n.namespace_, n.model, n.tag]) else none

/-- `ParseNameFromFilepath`. -/
def parseNameFromFilepath (s : Bytes) : Name :=
  match components s with
  | [host, namespace_, model, tag] =>
    let n : Name := ⟨host, namespace_, model, tag⟩
    if n.isFullyQualified then n else {}
  | _ => {}

/-- `Name.EqualFold`. -/
def Name.equalFold (n o : Name) : Bool :=
  Names.equalFold n.host o.host && Names.equalFold n.namespace_ o.namespace_ && Names.equalFold n.model o.model &&
    Names.equalFold n.tag o.tag

end Ollama.Types
