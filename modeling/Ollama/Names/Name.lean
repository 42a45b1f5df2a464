import Ollama.Lib.Utf8

/-!
# Model names

`server/internal/internal/names`: a name has a host, a namespace, a model and a tag, and is parsed from its end. Texts
are bytes. Only bytes of ASCII stand in a valid part, so letter case is that of ASCII.
-/

namespace Ollama.Names

open Lib Utf8

/-- The part of a name. -/
inductive Part where
  | host | namespace_ | model | tag
  deriving DecidableEq

/-- `Name`. -/
structure Name where
  h : Bytes := []
  n : Bytes := []
  m : Bytes := []
  t : Bytes := []
  deriving DecidableEq

/-- `MaxNameLength`. -/
def maxNameLength : Nat := 350 + 1 + 80 + 1 + 80 + 1 + 80

/-- `cutLastAny`, with no outcome where none of the characters is found. -/
def cutLastAny (chars : Bytes) : Bytes → Option (Bytes × Bytes × UInt8)
  | [] => none
  | b :: s =>
    match cutLastAny chars s with
    | some (before, after, sep) => some (b :: before, after, sep)
    | none => if b ∈ chars then some ([], s, b) else none

/-- The loop of `Parse`. Every turn but the last takes a character away, so that there are never more than the text has. -/
def parseFrom : Nat → Name → Bytes → Name
  | 0, n, s => { n with m := s }
  | fuel + 1, n, s =>
    match cutLastAny [0x2f, 0x3a] s with
    | none => { n with m := s }
    | some (before, tail, sep) =>
      if sep = 0x3a then parseFrom fuel { n with t := tail } before
      else
        match cutLastAny [0x2f] before with
        | none => { n with h := [], n := before, m := tail }
        | some (host, namespace_, _) => { n with h := host, n := namespace_, m := tail }

/-- `Parse`. -/
def parse (s : Bytes) : Name := if s.length > maxNameLength then {} else parseFrom s.length {} s

/-- `isAlphanumericOrUnderscore`. -/
def isAlphanumericOrUnderscore (c : UInt8) : Bool :=
  c ≥ 0x41 && c ≤ 0x5a || c ≥ 0x61 && c ≤ 0x7a || c ≥ 0x30 && c ≤ 0x39 || c == 0x5f

/-- Whether a byte may follow the first one of a part. -/
def isPartByte (kind : Part) (c : UInt8) : Bool :=
  if c = 0x5f ∨ c = 0x2d then true
  else if c = 0x2e then kind ≠ .namespace_
  else if c = 0x3a then kind = .host
  else isAlphanumericOrUnderscore c

/-- `isValidPart`. The source visits the first bytes of the runes: the first byte that is not of ASCII is one. -/
def isValidPart (kind : Part) (s : Bytes) : Bool :=
  if s.length > (if kind = .host then 350 else 80) then false
  else
    match s with
    | [] => true
    | c :: s => isAlphanumericOrUnderscore c && s.all (isPartByte kind)

/-- `Name.IsValid`. -/
def Name.isValid (n : Name) : Bool :=
  (n.h = [] || isValidPart .host n.h) && (n.n = [] || isValidPart .namespace_ n.n) && (n.t =
    [] || isValidPart .tag n.t) &&
    n.m ≠ [] && isValidPart .model n.m

/-- `Name.IsFullyQualified`. -/
def Name.isFullyQualified (n : Name) : Bool := n.isValid && n.h ≠ [] && n.n ≠ [] && n.m ≠ [] && n.t ≠ []

/-- `Merge`. -/
def merge (a b : Name) : Name :=
  { a with h := if a.h = [] then b.h else a.h, n := if a.n = [] then b.n else a.n, t := if a.t = [] then b.t else a.t }

/-- `Name.String`. -/
def Name.string (n : Name) : Bytes :=
  (if n.h = [] then [] else n.h ++ [0x2f]) ++ (if n.n = [] then [] else n.n ++ [0x2f]) ++ n.m ++
    (if n.t = [] then [] else 0x3a :: n.t)

/-! ## Letter case -/

/-- The lower case of a byte. -/
def lower (b : UInt8) : UInt8 := if 0x41 ≤ b ∧ b ≤ 0x5a then b + 0x20 else b

/-- `strings.EqualFold`, for texts of ASCII. -/
def equalFold (s t : Bytes) : Bool := s.map lower = t.map lower

/-- A name in lower case. -/
def Name.fold (n : Name) : Name := ⟨n.h.map lower, n.n.map lower, n.m.map lower, n.t.map lower⟩

/-- Texts that are equal up to case are so in small letters. -/
theorem equalFold_iff {s t : Bytes} : equalFold s t = true ↔ s.map lower = t.map lower := by
  rw [equalFold, decide_eq_true_iff]

/-- A text is equal to itself. -/
theorem equalFold_refl (s : Bytes) : equalFold s s = true := equalFold_iff.2 rfl

/-- Equality up to case is symmetric. -/
theorem equalFold_symm {s t : Bytes} (h : equalFold s t = true) : equalFold t s = true :=
  equalFold_iff.2 (equalFold_iff.1 h).symm

/-- Equality up to case is transitive. -/
theorem equalFold_trans {s t u : Bytes} (h : equalFold s t = true) (h' : equalFold t u = true) : equalFold s u = true :=
  equalFold_iff.2 ((equalFold_iff.1 h).trans (equalFold_iff.1 h'))

/-- Only the separators have themselves as lower case. -/
theorem lower_eq_sep (b : UInt8) : (lower b = 0x2f ↔ b = 0x2f) ∧ (lower b = 0x3a ↔ b = 0x3a) :=
  forall_byte (P := fun b => (lower b = 0x2f ↔ b = 0x2f) ∧ (lower b = 0x3a ↔ b = 0x3a)) (by decide +kernel) b

/-- Case does not matter for what is a letter or a digit. -/
theorem isAlphanumericOrUnderscore_lower (b : UInt8) :
    isAlphanumericOrUnderscore (lower b) = isAlphanumericOrUnderscore b :=
  forall_byte (P := fun b => isAlphanumericOrUnderscore (lower b) = isAlphanumericOrUnderscore b) (by decide +kernel) b

/-- Case does not matter for what may stand in a part. -/
theorem isPartByte_lower (kind : Part) (b : UInt8) : isPartByte kind (lower b) = isPartByte kind b := by
  cases kind
  · exact forall_byte (P := fun b => isPartByte .host (lower b) = isPartByte .host b) (by decide +kernel) b
  · exact forall_byte (P := fun b => isPartByte .namespace_ (lower b) = isPartByte .namespace_ b) (by decide +kernel) b
  · exact forall_byte (P := fun b => isPartByte .model (lower b) = isPartByte .model b) (by decide +kernel) b
  · exact forall_byte (P := fun b => isPartByte .tag (lower b) = isPartByte .tag b) (by decide +kernel) b

/-- A text in lower case is cut where the text is cut. -/
theorem cutLastAny_lower {chars : Bytes} (hsep : ∀ b, lower b ∈ chars ↔ b ∈ chars) (hid : ∀ b ∈ chars, lower b = b)
    (s : Bytes) :
    cutLastAny chars (s.map lower) = (cutLastAny chars s).map (fun x => (x.1.map lower, x.2.1.map lower, x.2.2)) := by
  induction s with
  | nil => rfl
  | cons b s ih =>
    rw [List.map_cons, cutLastAny, ih, cutLastAny]
    cases h : cutLastAny chars s with
    | some x => rfl
    | none =>
      by_cases hb : b ∈ chars
      · simp [hb, hid b hb]
      · simp [hb, hsep]

/-- Case does not matter for where the last slash is. -/
theorem cutLastAny_slash_lower (s : Bytes) :
    cutLastAny [0x2f] (s.map lower) = (cutLastAny [0x2f] s).map (fun x => (x.1.map lower, x.2.1.map lower, x.2.2)) := by
  refine cutLastAny_lower (fun b => ?_) (fun b hb => ?_) s
  · rw [List.mem_singleton, List.mem_singleton]
    exact (lower_eq_sep b).1
  · rw [List.mem_singleton.1 hb]
    rfl

/-- Case does not matter for where the last slash or colon is. -/
theorem cutLastAny_sep_lower (s : Bytes) :
    cutLastAny [0x2f, 0x3a] (s.map lower) =
      (cutLastAny [0x2f, 0x3a] s).map (fun x => (x.1.map lower, x.2.1.map lower, x.2.2)) := by
  refine cutLastAny_lower (fun b => ?_) (fun b hb => ?_) s
  · simp only [List.mem_cons, List.not_mem_nil, or_false]
    exact or_congr (lower_eq_sep b).1 (lower_eq_sep b).2
  · simp only [List.mem_cons, List.not_mem_nil, or_false] at hb
    rcases hb with rfl | rfl <;> rfl

/-- Case does not matter for where the parts of a name are. -/
theorem parseFrom_lower (fuel : Nat) (n : Name) (s : Bytes) :
    parseFrom fuel n.fold (s.map lower) = (parseFrom fuel n s).fold := by
  induction fuel generalizing n s with
  | zero => rfl
  | succ fuel ih =>
    rw [parseFrom, cutLastAny_sep_lower, parseFrom]
    cases h : cutLastAny [0x2f, 0x3a] s with
    | none => rfl
    | some x =>
      obtain ⟨before, tail, sep⟩ := x
      simp only [Option.map_some]
      by_cases hsep : sep = 0x3a
      · rw [if_pos hsep, if_pos hsep]
        exact ih { n with t := tail } before
      · rw [if_neg hsep, if_neg hsep, cutLastAny_slash_lower]
        cases cutLastAny [0x2f] before with
        | none => rfl
        | some y => rfl

/-- The name of a text in lower case is the name of the text in lower case. -/
theorem parse_lower (s : Bytes) : parse (s.map lower) = (parse s).fold := by
  unfold parse
  rw [List.length_map]
  split
  · rfl
  · exact parseFrom_lower s.length {} s

/-- Case does not matter for whether a part is valid. -/
theorem isValidPart_lower (kind : Part) (s : Bytes) : isValidPart kind (s.map lower) = isValidPart kind s := by
  have hbytes : isPartByte kind ∘ lower = isPartByte kind := funext (isPartByte_lower kind)
  unfold isValidPart
  rw [List.length_map]
  cases s with
  | nil => rfl
  | cons c s => simp only [List.map_cons, List.all_map, isAlphanumericOrUnderscore_lower, hbytes]

/-- Letter case does not matter to whether a name is fully qualified. -/
theorem isFullyQualified_fold (n : Name) : n.fold.isFullyQualified = n.isFullyQualified := by
  simp only [Name.isFullyQualified, Name.isValid, Name.fold, isValidPart_lower, ne_eq, List.map_eq_nil_iff]

end Ollama.Names
