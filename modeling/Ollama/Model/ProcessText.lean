import Ollama.Lib.Runes
import Ollama.Lib.Strings
import Mathlib.Data.Multiset.AddSub

/-!
# The byte pair encoder

`model/process_text.go`: a text is split at special tokens and by a pre-tokenizer, each part is written with one rune
for each byte, and neighbouring parts of it are merged while there is a merge for them. Texts are bytes and runes are
numbers.

The pre-tokenizer is a regular expression and the queue of merges a heap, both of other packages: an encoder has the
one as a function, and `Queue` is what is known of the other. A call that panics or does not return has no outcome
(`none`).
-/

namespace Ollama.Model

open Lib Utf8

/-- `Vocabulary`. Ids are `int32`, so there are no more values and merges than that. -/
structure Vocabulary where
  values : List Bytes
  types : List UInt32
  merges : List Bytes
  bos : Int := 0
  eos : Int := 0
  addBOS : Bool := false
  addEOS : Bool := false
  values_le : values.length ≤ 2 ^ 31
  merges_le : merges.length ≤ 2 ^ 31

/-- The index of a text in a list from index `i` on, as a map has it that is filled from the list: the last one. -/
def lastIndex (s : Bytes) : List Bytes → Nat → Option Nat
  | [], _ => none
  | v :: vs, i => (lastIndex s vs (i + 1)).or (if v = s then some i else none)

/-- `Vocabulary.Encode`. -/
def Vocabulary.encode (v : Vocabulary) (s : Bytes) : Int :=
  match lastIndex s v.values 0 with
  | some id => id
  | none => -1

/-- `Vocabulary.Decode`. -/
def Vocabulary.decode (v : Vocabulary) (id : Int) : Option Bytes := if id < 0 then none else v.values[id.toNat]?

/-- The loop of `SpecialVocabulary`. -/
def specialFrom : List Bytes → List UInt32 → Option (List Bytes)
  | [], _ => some []
  | _ :: _, [] => none
  | value :: values, t :: types => (specialFrom values types).map (fun rest => if t = 3 then value :: rest else rest)

/-- `SpecialVocabulary`. -/
def Vocabulary.specialVocabulary (v : Vocabulary) : Option (List Bytes) := specialFrom v.values v.types

/-- `Vocabulary.Merge`. -/
def Vocabulary.merge (v : Vocabulary) (left right : Bytes) : Int :=
  match lastIndex (left ++ [0x20] ++ right) v.merges 0 with
  | some id => id
  | none => -1

/-! ## Special tokens -/

/-- `fragment`. -/
structure Fragment where
  value : Bytes
  ids : List Int := []
  deriving DecidableEq

/-- What a fragment becomes at the first occurrence of a special token. -/
def middle (special : Bytes) (id : Int) (value : Bytes) (i : Nat) : List Fragment :=
  (if i > 0 then [{ value := value.take i }] else []) ++ { value := special, ids := [id] } ::
    (if value.drop (i + special.length) ≠ [] then [{ value := value.drop (i + special.length) }] else [])

/-- The loop over the fragments for a special token. What it puts in the place of a fragment is visited too, but for
the first part. It returns within `fuel` steps or not at all. -/
def splitFragments (special : Bytes) (id : Int) : (fuel : Nat) → List Fragment → Option (List Fragment)
  | _, [] => some []
  | 0, _ :: _ => none
  | fuel + 1, frag :: frags =>
    if frag.ids.length > 0 then (splitFragments special id fuel frags).map (frag :: ·)
    else
      match index special frag.value with
      | none => (splitFragments special id fuel frags).map (frag :: ·)
      | some i =>
        match middle special id frag.value i with
        | [] => splitFragments special id fuel frags
        | first :: rest => (splitFragments special id fuel (rest ++ frags)).map (first :: ·)

/-- More steps than the loop over some fragments takes for a special token that is not empty. -/
def splitFuel (frags : List Fragment) : Nat := frags.length + 3 * (frags.map (fun f => f.value.length)).sum

/-- The loop over the special tokens. -/
def splitSpecials (v : Vocabulary) : List Bytes → List Fragment → Option (List Fragment)
  | [], frags => some frags
  | special :: rest, frags => (splitFragments special (v.encode special) (splitFuel frags) frags).bind
      (splitSpecials v rest)

/-! ## Merges -/

/-- The rune a byte is written as. -/
def byteRune (b : UInt8) : Nat :=
  let r := b.toNat
  if r = 0x00ad then 0x0143
  else if r ≤ 0x0020 then r + 0x0100
  else if r ≥ 0x007e ∧ r ≤ 0x00a0 then r + 0x00a2
  else r

/-- `pair`. -/
structure Pair where
  a : Nat
  b : Nat
  rank : Int
  value : Bytes
  deriving DecidableEq

/-- `merge`. -/
structure Merge where
  p : Int
  n : Nat
  runes : List Nat
  deriving DecidableEq

/-- A queue of pairs: what is in it, in no order, and what is known of its operations. -/
structure Queue (σ : Type) where
  empty : σ
  push : Pair → σ → σ
  pop : σ → Option (Pair × σ)
  items : σ → Multiset Pair
  items_empty : items empty = 0
  items_push : ∀ p q, items (push p q) = p ::ₘ items q
  pop_none : ∀ q, pop q = none ↔ items q = 0
  pop_some : ∀ q p q', pop q = some (p, q') → items q = p ::ₘ items q'

variable {σ : Type}

/-- The merge at an index. -/
def entry (merges : List Merge) (i : Nat) : Merge := (merges[i]?).getD ⟨0, 0, []⟩

/-- `pairwise`. -/
def pairwise (v : Vocabulary) (merges : List Merge) (a : Int) (b : Nat) : Option Pair :=
  if a < 0 ∨ b ≥ merges.length then none
  else
    let left := ofRunes (entry merges a.toNat).runes
    let right := ofRunes (entry merges b).runes
    let rank := v.merge left right
    if rank < 0 then none else some ⟨a.toNat, b, rank, left ++ right⟩

/-- A pair is queued, if there is one. -/
def Queue.pushSome (Q : Queue σ) : Option Pair → σ → σ
  | none, q => q
  | some p, q => Q.push p q

/-- The merges after the right part of a pair has been added to the left one. -/
def join (merges : List Merge) (a b : Nat) : List Merge :=
  let left := entry merges a
  let right := entry merges b
  let merges := merges.set a { left with runes := left.runes ++ right.runes, n := right.n }
  let merges := merges.set b { entry merges b with runes := [] }
  if right.n < merges.length then merges.set right.n { entry merges right.n with p := a } else merges

/-- Whether a pair is as it was when it was queued. -/
def Pair.current (merges : List Merge) (pair : Pair) : Prop :=
  (entry merges pair.a).runes.length ≠ 0 ∧ (entry merges pair.b).runes.length ≠ 0 ∧
    ofRunes (entry merges pair.a).runes ++ ofRunes (entry merges pair.b).runes = pair.value

instance (merges : List Merge) (pair : Pair) : Decidable (pair.current merges) :=
  inferInstanceAs (Decidable (_ ∧ _ ∧ _))

/-- The loop over the queue, which returns within `fuel` steps or not at all. -/
def mergeLoop (Q : Queue σ) (v : Vocabulary) : (fuel : Nat) → List Merge → σ → Option (List Merge)
  | 0, merges, q => if (Q.pop q).isNone then some merges else none
  | fuel + 1, merges, q =>
    match Q.pop q with
    | none => some merges
    | some (pair, q) =>
      if pair.current merges then
        let merges := join merges pair.a pair.b
        let q := Q.pushSome (pairwise v merges (entry merges pair.a).p pair.a) q
        let q := Q.pushSome (pairwise v merges pair.a (entry merges pair.a).n) q
        mergeLoop Q v fuel merges q
      else
        mergeLoop Q v fuel merges q

/-- The merges before any pair is merged. -/
def singles (runes : List Nat) : List Merge := runes.zipIdx.map (fun x => ⟨(x.2 : Int) - 1, x.2 + 1, [x.1]⟩)

/-- The queue before any pair is merged. -/
def firstPairs (Q : Queue σ) (v : Vocabulary) (merges : List Merge) : σ :=
  (List.range (merges.length - 1)).foldl (fun q (i : Nat) => Q.pushSome (pairwise v merges i (i + 1)) q) Q.empty

/-- The ids of what is left after the merges. -/
def mergedIds (v : Vocabulary) (merges : List Merge) : List Int :=
  (merges.filter (fun m => m.runes.length > 0)).map (fun m => v.encode (ofRunes m.runes)) |>.filter (fun id => id ≥ 0)

/-- The ids of a part of the text. Every merge takes a part away and queues at most two pairs. -/
def encodeSplit (Q : Queue σ) (v : Vocabulary) (split : Bytes) : Option (List Int) :=
  let s := ofRunes (split.map byteRune)
  if v.encode s ≥ 0 then some [v.encode s]
  else
    let merges := singles (runes s)
    (mergeLoop Q v (3 * merges.length) merges (firstPairs Q v merges)).map (mergedIds v)

/-! ## Encode and Decode -/

/-- `BytePairEncoding`: the parts the regular expression finds in a text, and the vocabulary. -/
structure BytePairEncoding where
  pre : Bytes → List Bytes
  vocab : Vocabulary

/-- The ids of a fragment. -/
def encodeFragment (Q : Queue σ) (bpe : BytePairEncoding) (frag : Fragment) : Option (List Int) :=
  if frag.ids.length > 0 then some frag.ids
  else ((bpe.pre frag.value).mapM (encodeSplit Q bpe.vocab)).map List.flatten

/-- The ids with those of the beginning and the end of a text. -/
def addSpecials (v : Vocabulary) (ids : List Int) : List Int :=
  if ids.length > 0 then
    (if v.addBOS then [v.bos] else []) ++ ids ++ (if v.addEOS then [v.eos] else [])
  else ids

/-- `Encode`. -/
def BytePairEncoding.encode (Q : Queue σ) (bpe : BytePairEncoding) (s : Bytes) (addSpecial : Bool) :
    Option (List Int) := do
  let specials ← bpe.vocab.specialVocabulary
  let frags ← splitSpecials bpe.vocab specials [{ value := s }]
  let ids ← (frags.mapM (encodeFragment Q bpe)).map List.flatten
  pure (if addSpecial then addSpecials bpe.vocab ids else ids)

/-- The bytes a rune is read as: none, or one. -/
def runeBytes (r : Nat) : Bytes :=
  if r = 0x0100 then []
  else if r = 0x0143 then [0xad]
  else if r > 0x0100 ∧ r ≤ 0x0120 then [UInt8.ofNat (r - 0x0100)]
  else if r > 0x0120 ∧ r ≤ 0x0142 then [UInt8.ofNat (r - 0x00a2)]
  else [UInt8.ofNat r]

/-- `Decode`. -/
def BytePairEncoding.decode (bpe : BytePairEncoding) (ids : List Int) : Option Bytes :=
  (ids.mapM bpe.vocab.decode).map (fun tokens => tokens.flatMap (fun token => (runes token).flatMap runeBytes))

end Ollama.Model
