import Ollama.Llama.Lemmas.Parser

/-!
# Sequences and alternates

A text is read as sequences of symbols, as it is written (`Sequence`, `Alternates`, `Definitions`), and a sequence
says which texts it stands for once it is known what the names stand for (`Says`). The elements that are parsed from
it derive the same (`Means`).
-/

namespace Ollama.Llama

open Lib

variable {n rounds depth bound k id : Nat} {elem : Element} {elems a b pre : List Element} {prev type : GreType}
  {rule : Rule} {p p' : Parser} {q : NamedCfg}
  {src src' name : Bytes} {isNested : Bool} {u v w : List Nat}

/-! ## Texts -/

/-- A symbol as it is written. -/
inductive Item where
  | literal (chars : List Nat)
  | range (t : CharClass)
  | name (name : Bytes)
  | group (alternates : List (List Item))
  | times (item : Item) (minTimes maxTimes : Int)

variable {item : Item} {items items' last : List Item} {alternates : List (List Item)}

mutual

/-- The texts that a symbol stands for, where it is known for the names. -/
inductive ItemSays (named : Bytes → List Nat → Prop) : Item → List Nat → Prop
  | literal {chars : List Nat} : ItemSays named (.literal chars) chars
  | range {t : CharClass} {c : Nat} (hc : t.Holds c) : ItemSays named (.range t) [c]
  | name {name : Bytes} {w : List Nat} (h : named name w) : ItemSays named (.name name) w
  | group {alternates : List (List Item)} {items : List Item} {w : List Nat} (hitems : items ∈ alternates)
      (h : Says named items w) :
      ItemSays named (.group alternates) w
  | times {item : Item} {minTimes maxTimes : Int} {i : Nat} {w : List Nat} (hi : Often minTimes maxTimes i)
      (h : Says named (List.replicate i item) w) : ItemSays named (.times item minTimes maxTimes) w

/-- The texts that a sequence stands for. -/
inductive Says (named : Bytes → List Nat → Prop) : List Item → List Nat → Prop
  | nil : Says named [] []
  | cons {item : Item} {items : List Item} {u v : List Nat} (hitem : ItemSays named item u) (h : Says named items v) :
      Says named (item :: items) (u ++ v)

end

/-- The symbol of a class. If it has no characters, nothing is to stand there. -/
def rangeItem (elems : List Element) : Item := if elems = [] then .literal [] else .range (classAt elems)

/-- No symbol begins here, and nothing is repeated. -/
def Stops (src : Bytes) : Prop :=
  ∀ c rest, src = c :: rest → isWordChar c = false ∧ c ∉ ([0x22, 0x5B, 0x28, 0x2E, 0x2A, 0x2B, 0x3F, 0x7B] : Bytes)

mutual

/-- A text is read as symbols behind those so far, up to the text behind them. A repetition is of the symbol before it. -/
inductive Sequence : (isNested : Bool) → Bytes → (items items' : List Item) → Bytes → Prop
  | done {isNested : Bool} {src : Bytes} {items : List Item} (hstops : Stops src) :
      Sequence isNested src items items src
  | literal {isNested : Bool} {src src' rest : Bytes} {chars : List Nat} {items items' : List Item}
      (hchars : parseLiteral (src.length + 1) src = .ok (chars.map (fun c => ⟨.char, c⟩), src'))
      (h : Sequence isNested (parseSpace isNested src') (items ++ [.literal chars]) items' rest) :
        Sequence isNested (0x22 :: src) items items' rest
  | range {isNested : Bool} {src src' rest : Bytes} {elems : List Element} {items items' : List Item}
      (hnot : peek src ≠ 0x5E)
      (hrange : parseRange (src.length + 1) .char src = .ok (elems, src'))
      (h : Sequence isNested (parseSpace isNested src') (items ++ [rangeItem elems]) items' rest) :
        Sequence isNested (0x5B :: src) items items' rest
  | rangeNot {isNested : Bool} {src src' rest : Bytes} {elems : List Element} {items items' : List Item}
      (hrange : parseRange (src.length + 1) .charNot src = .ok (elems, src'))
      (h : Sequence isNested (parseSpace isNested src') (items ++ [rangeItem elems]) items' rest) :
      Sequence isNested (0x5B :: 0x5E :: src) items items' rest
  | name {isNested : Bool} {src src' rest name : Bytes} {items items' : List Item} (hname : parseName src =
      .ok (name, src'))
      (h : Sequence isNested (parseSpace isNested src') (items ++ [.name name]) items' rest) :
        Sequence isNested src items items' rest
  | group {isNested : Bool} {src src' rest : Bytes} {alternates : List (List Item)} {items items' : List Item}
      (halternates : Alternates true (parseSpace true src) alternates (0x29 :: src'))
      (h : Sequence isNested (parseSpace isNested src') (items ++ [.group alternates]) items' rest) :
        Sequence isNested (0x28 :: src) items items' rest
  | any {isNested : Bool} {src rest : Bytes} {items items' : List Item}
      (h : Sequence isNested (parseSpace isNested src) (items ++ [rangeItem [⟨.charAny, 0⟩]]) items' rest) :
      Sequence isNested (0x2E :: src) items items' rest
  | times {isNested : Bool} {c : UInt8} {src src' rest : Bytes} {item : Item} {minTimes maxTimes : Int}
      {items items' : List Item}
      (htimes : parseRepetition isNested c src = .ok (some (minTimes, maxTimes, src')))
      (h : Sequence isNested src' (items ++ [.times item minTimes maxTimes]) items' rest) :
        Sequence isNested (c :: src) (items ++ [item]) items' rest

/-- A text is read as sequences with a bar between them. -/
inductive Alternates : (isNested : Bool) → Bytes → List (List Item) → Bytes → Prop
  | last {isNested : Bool} {src rest : Bytes} {items : List Item} (h : Sequence isNested src [] items rest)
      (hlast : peek rest ≠ 0x7C) :
      Alternates isNested src [items] rest
  | more {isNested : Bool} {src src' rest : Bytes} {items : List Item} {alternates : List (List Item)}
      (h : Sequence isNested src [] items (0x7C :: src'))
        (hrest : Alternates isNested (parseSpace true src') alternates rest) :
      Alternates isNested src (items :: alternates) rest

end

/-- A text is read as definitions of names. -/
inductive Definitions : Bytes → List (Bytes × List (List Item)) → Prop
  | nil : Definitions [] []
  | rule {src src₁ src₂ src₃ src₄ name : Bytes} {alternates : List (List Item)} {g : List (Bytes × List (List Item))}
      (hname : parseName src = .ok (name, src₁)) (hdef : parseSpace false src₁ = [0x3A, 0x3A, 0x3D] ++ src₂)
      (halternates : Alternates false (parseSpace true src₂) alternates src₃) (hnewline : parseNewline src₃ = .ok src₄)
      (h : Definitions (parseSpace true src₄) g) : Definitions src ((name, alternates) :: g)

/-- The least of what the definitions say of names, where the last definition of a name holds. -/
def Sentence (g : List (Bytes × List (List Item))) (name : Bytes) (w : List Nat) : Prop :=
  ∀ named : Bytes → List Nat → Prop,
    (∀ name alternates, g.reverse.lookup name = some alternates → ∀ items ∈ alternates, ∀ w, Says named items w →
    named name w) → named name w

/-- The texts that a grammar derives for a name of the text: for one that is not generated. -/
def NamedCfg.language (q : NamedCfg) (name : Bytes) (w : List Nat) : Prop :=
  0x5F ∉ name ∧ ∃ id, q.names.lookup name = some id ∧ q.cfg.Derives [.ref id] w

/-- The rules of a parser, and their names. -/
def Parser.named (p : Parser) : NamedCfg := ⟨p.symbolIds, p.rules.cfg⟩

/-! ## What sequences say -/

variable {named : Bytes → List Nat → Prop}

/-- No items say the empty text only. -/
theorem says_nil_iff : Says named [] w ↔ w = [] := by
  constructor
  · rintro ⟨⟩
    rfl
  · rintro rfl
    exact .nil

/-- What items say is what the first says, and then what the others say. -/
theorem says_cons_iff :
    Says named (item :: items) w ↔ ∃ u v, w = u ++ v ∧ ItemSays named item u ∧ Says named items v := by
  constructor
  · rintro ⟨⟩
    exact ⟨_, _, rfl, ‹_›, ‹_›⟩
  · rintro ⟨u, v, rfl, hitem, h⟩
    exact .cons hitem h

/-- A single item says what it says alone. -/
theorem says_singleton_iff : Says named [item] w ↔ ItemSays named item w := by
  rw [says_cons_iff]
  constructor
  · rintro ⟨u, v, rfl, hitem, h⟩
    obtain rfl := says_nil_iff.1 h
    rwa [List.append_nil]
  · exact fun h => ⟨w, [], (List.append_nil w).symm, h, .nil⟩

/-- Two sequences, one behind the other. -/
theorem says_append_iff :
    Says named (items ++ items') w ↔ ∃ u v, w = u ++ v ∧ Says named items u ∧ Says named items' v := by
  induction items generalizing w with
  | nil =>
    constructor
    · exact fun h => ⟨[], w, rfl, .nil, h⟩
    · rintro ⟨u, v, rfl, hu, hv⟩
      obtain rfl := says_nil_iff.1 hu
      exact hv
  | cons item items ih =>
    rw [List.cons_append, says_cons_iff]
    constructor
    · rintro ⟨u, v, rfl, hitem, h⟩
      obtain ⟨u', v', rfl, hu', hv'⟩ := ih.1 h
      exact ⟨u ++ u', v', (List.append_assoc u u' v').symm, .cons hitem hu', hv'⟩
    · rintro ⟨u, v, rfl, hu, hv⟩
      obtain ⟨u₁, u₂, rfl, hitem, h⟩ := says_cons_iff.1 hu
      exact ⟨u₁, u₂ ++ v, List.append_assoc u₁ u₂ v, hitem, ih.2 ⟨u₂, v, rfl, h, hv⟩⟩

mutual

/-- More is said where the names stand for more. -/
theorem ItemSays.mono {named named' : Bytes → List Nat → Prop} (hnamed : ∀ name w, named name w → named' name w) :
    ∀ {item : Item} {w : List Nat}, ItemSays named item w → ItemSays named' item w
  | _, _, .literal => .literal
  | _, _, .range hc => .range hc
  | _, _, .name h => .name (hnamed _ _ h)
  | _, _, .group hitems h => .group hitems (Says.mono hnamed h)
  | _, _, .times hi h => .times hi (Says.mono hnamed h)

/-- Items that say a text say it too when the names stand for more. -/
theorem Says.mono {named named' : Bytes → List Nat → Prop} (hnamed : ∀ name w, named name w → named' name w) :
    ∀ {items : List Item} {w : List Nat}, Says named items w → Says named' items w
  | _, _, .nil => .nil
  | _, _, .cons hitem h => .cons (hitem.mono hnamed) (h.mono hnamed)

end

/-! ## What elements mean -/

/-- The elements derive what the symbols stand for, whatever is parsed behind them. -/
structure Means (p : Parser) (a : List Element) (items : List Item) : Prop where
  piece : Piece p.symbolIds.length a
  noAlt : ∀ elem ∈ a, elem.type ≠ .alt
  derives : ∀ q, Becomes p q → ∀ w, q.cfg.Derives (symbols a) w ↔ Says q.language items w

/-- No elements mean no items. -/
theorem means_nil (p : Parser) : Means p [] [] := by
  refine ⟨piece_nil, nofun, fun q _ w => ?_⟩
  rw [says_nil_iff]
  constructor
  · rintro ⟨⟩
    rfl
  · rintro rfl
    exact .nil

/-- The elements of two lists of items, one behind the other, mean both. -/
theorem Means.append (ha : Means p a items) (hb : Means p b items') : Means p (a ++ b) (items ++ items') := by
  refine ⟨ha.piece.append hb.piece, List.forall_mem_append.2 ⟨ha.noAlt, hb.noAlt⟩, fun q hq w => ?_⟩
  have hsymbols : symbols (a ++ b) = symbols a ++ symbols b := by
    rw [symbols, List.append_assoc, symbolsAt_append (ha.piece .alt) ha.noAlt (hb.piece.plain plain_end), ← symbols]
  rw [hsymbols, Cfg.derives_append_iff, says_append_iff]
  simp only [ha.derives q hq, hb.derives q hq]

/-- Elements keep their meaning when names are added, for grammars that were meant before. -/
theorem Means.mono (h : Means p a items) (hids : p.symbolIds <+: p'.symbolIds)
    (hbecomes : ∀ q, Becomes p' q → Becomes p q) : Means p' a items :=
  ⟨h.piece.mono hids.length_le, h.noAlt, fun q hq => h.derives q (hbecomes q hq)⟩

/-- Elements keep their meaning while the parser grows. -/
theorem Means.grows (h : Means p a items) (hp : p.Ok) (hgrows : Grows p p') : Means p' a items :=
  h.mono hgrows.ids (fun _ hq => hgrows.becomes hp hq)

/-- The elements of one symbol. -/
theorem means_item (hpiece : Piece p.symbolIds.length a) (halt : ∀ elem ∈ a, elem.type ≠ .alt)
    (h : ∀ q, Becomes p q → ∀ w, q.cfg.Derives (symbols a) w ↔ ItemSays q.language item w) : Means p a [item] :=
  ⟨hpiece, halt, fun q hq w => (h q hq w).trans says_singleton_iff.symm⟩

/-- A single character is a piece of a rule. -/
theorem piece_char (c : Nat) : Piece n [⟨.char, c⟩] := piece_singleton nofun (fun prev => by cases prev <;> rfl) nofun

/-- What begins with a terminal says a character of its class first. -/
theorem derives_term_iff {G : Cfg Nat CharClass Nat} {t : CharClass} {l : List (CfgSymbol Nat CharClass)} :
    G.Derives (.term t :: l) w ↔ ∃ c v, w = c :: v ∧ G.Holds t c ∧ G.Derives l v := by
  constructor
  · rintro ⟨⟩
    exact ⟨_, _, rfl, ‹_›, ‹_›⟩
  · rintro ⟨c, v, rfl, hc, h⟩
    exact .term hc h

/-- The symbols of characters. -/
def literal (chars : List Nat) : List (CfgSymbol Nat CharClass) := chars.map (fun c => .term ⟨false, [.upto c c]⟩)

/-- A literal says its own characters only. -/
theorem derives_literal_iff {G : Cfg Nat CharClass Nat} (hG : G.Holds = CharClass.Holds) {chars : List Nat} :
    G.Derives (literal chars) w ↔ w = chars := by
  induction chars generalizing w with
  | nil =>
    constructor
    · rintro ⟨⟩
      rfl
    · rintro rfl
      exact .nil
  | cons c chars ih =>
    have hholds : ∀ d, G.Holds ⟨false, [.upto c c]⟩ d ↔ d = c := by
      intro d
      rw [hG]
      simp [CharClass.Holds, CharRange.Holds]
      omega
    rw [literal, List.map_cons, derives_term_iff, ← literal]
    constructor
    · rintro ⟨d, v, rfl, hd, hv⟩
      rw [(hholds d).1 hd, ih.1 hv]
    · rintro rfl
      exact ⟨c, chars, rfl, (hholds c).2 rfl, ih.2 rfl⟩

/-- The elements of a literal mean the literal. -/
theorem means_literal (p : Parser) (chars : List Nat) : Means p (chars.map (fun c => ⟨.char, c⟩)) [.literal chars] := by
  have hpiece : ∀ chars : List Nat, Piece p.symbolIds.length (chars.map (fun c => (⟨.char, c⟩ : Element))) := by
    intro chars
    induction chars with
    | nil => exact piece_nil
    | cons c chars ih => exact (piece_char c).append ih
  have hsymbols : symbols (chars.map (fun c => ⟨.char, c⟩)) = literal chars := by
    induction chars with
    | nil => rfl
    | cons c chars ih =>
      have happend := symbolsAt_append (n := 0) (a := [⟨.char, c⟩]) (piece_char c .alt) (by simp)
        ((hpiece chars).plain plain_end)
      exact happend.trans (congrArg (symbols [⟨.char, c⟩] ++ ·) ih)
  refine means_item (hpiece chars) (by simp) (fun q hq w => ?_)
  rw [hsymbols, derives_literal_iff hq.holds]
  constructor
  · rintro rfl
    exact .literal
  · rintro ⟨⟩
    rfl

/-- Elements of which the first has a type, and is modified by the others. -/
def Modified (type : GreType) (elems : List Element) : Prop :=
  ∃ value rest, elems = ⟨type, value⟩ :: rest ∧ ∀ elem ∈ rest, elem.type = .charRngUpper ∨ elem.type = .charAlt

/-- The elements of a class have no `|` between them. -/
theorem Modified.noAlt (h : Modified type elems) (htype : type ≠ .alt) : ∀ elem ∈ elems, elem.type ≠ .alt := by
  obtain ⟨value, rest, rfl, hrest⟩ := h
  refine List.forall_mem_cons.2 ⟨htype, fun elem helem heq => ?_⟩
  rcases hrest elem helem with h | h <;> rw [heq] at h <;> cases h

/-- A class is one symbol. -/
theorem Modified.symbols_eq (h : Modified type elems) (htype : type = .char ∨ type = .charNot ∨ type = .charAny) :
    symbols elems = [.term (classAt elems)] := by
  obtain ⟨value, rest, rfl, hrest⟩ := h
  have hclass : classAt (⟨type, value⟩ :: (rest ++ [⟨.end_, 0⟩])) = classAt (⟨type, value⟩ :: rest) := by
    have hranges := rangesAt_append plain_end (show Plain [] from ⟨rfl, rfl⟩) ⟨type, value⟩ rest
    rw [List.append_nil] at hranges
    rw [classAt, classAt, hranges]
    rfl
  have htail : symbolsAt (rest ++ [⟨.end_, 0⟩]) = [] := by
    clear hclass
    induction rest with
    | nil => rfl
    | cons elem rest ih =>
      obtain ⟨helem, hrest⟩ := List.forall_mem_cons.1 hrest
      rw [List.cons_append, symbolsAt]
      rcases helem with helem | helem <;> rw [helem] <;> exact ih hrest
  rw [symbols, List.cons_append, symbolsAt, hclass, htail]
  rcases htype with rfl | rfl | rfl <;> rfl

/-- The elements of a class of characters mean the class. -/
theorem means_range (hpiece : Piece p.symbolIds.length elems) (h : elems = [] ∨ Modified type elems)
    (htype : type = .char ∨ type = .charNot ∨ type = .charAny) : Means p elems [rangeItem elems] := by
  rcases h with rfl | h
  · exact means_literal p []
  have hne : elems ≠ [] := by
    obtain ⟨_, _, rfl, _⟩ := h
    exact List.cons_ne_nil _ _
  rw [rangeItem, if_neg hne]
  refine means_item hpiece (h.noAlt (by rcases htype with rfl | rfl | rfl <;> nofun)) (fun q hq w => ?_)
  rw [h.symbols_eq htype, derives_term_iff, hq.holds]
  constructor
  · rintro ⟨c, v, rfl, hc, hv⟩
    obtain ⟨⟩ := hv
    exact .range hc
  · rintro ⟨⟩
    exact ⟨_, [], rfl, ‹_›, .nil⟩

/-- A dot means any character. -/
theorem means_any (p : Parser) : Means p [⟨.charAny, 0⟩] [rangeItem [⟨.charAny, 0⟩]] :=
  means_range (piece_singleton nofun (fun prev => by cases prev <;> rfl) nofun) (.inr ⟨0, [], rfl, nofun⟩)
    (.inr (.inr rfl))

/-- A name that has an id keeps it when names are added. -/
theorem lookup_of_prefix {l l' : List (Bytes × Nat)} (h : l <+: l') (hid : l.lookup name = some id) :
    l'.lookup name = some id := by
  obtain ⟨t, rfl⟩ := h
  rw [List.lookup_append, hid]
  rfl

/-- A reference to the id of a name means the name. -/
theorem means_name (hp : p.Ok) (hname : 0x5F ∉ name) (hid : p.symbolIds.lookup name = some id) :
    Means p [⟨.ruleRef, id⟩] [.name name] := by
  refine means_item (piece_ref (hp.id_lt (mem_of_lookup hid))) (refTo_ne_alt (some id)) (fun q hq w => ?_)
  have hid' := lookup_of_prefix hq.ids hid
  constructor
  · exact fun h => .name ⟨hname, id, hid', h⟩
  · rintro ⟨⟩
    rename_i h
    obtain ⟨_, id', hlookup, h⟩ := h
    obtain rfl := Option.some.inj (hid'.symm.trans hlookup)
    exact h

/-- What is repeated, so many times. -/
theorem Means.times (h : Means p b [item]) (hq : Becomes p q) (i : Nat) (w : List Nat) :
    q.cfg.Derives (Cfg.times (symbols b) i) w ↔ Says q.language (List.replicate i item) w := by
  induction i generalizing w with
  | zero => exact (means_nil p).derives q hq w
  | succ i ih =>
    rw [Cfg.times_succ, Cfg.derives_append_iff, List.replicate_succ, ← List.singleton_append, says_append_iff]
    simp only [h.derives q hq, ih]

/-! ## What rules mean -/

/-- Sequences with a bar between them. -/
def joined (seq : List Element) : List (List Element) → List Element
  | [] => seq
  | next :: seqs => seq ++ ⟨.alt, 0⟩ :: joined next seqs

/-- Alternates that are pieces are one piece when `|` is put between them. -/
theorem joined_piece {seq : List Element} {seqs : List (List Element)} (h : ∀ a ∈ seq :: seqs, Piece n a) :
    Piece n (joined seq seqs) := by
  induction seqs generalizing seq with
  | nil => exact (List.forall_mem_cons.1 h).1
  | cons next seqs ih =>
    obtain ⟨hseq, hseqs⟩ := List.forall_mem_cons.1 h
    exact hseq.append (piece_alt.append (ih hseqs))

/-- The sequences of a rule stand for alternates. -/
def RuleMeans (p : Parser) (rule : Rule) (alternates : List (List Item)) : Prop :=
  ∃ seq seqs, rule = joined seq seqs ++ [⟨.end_, 0⟩] ∧ List.Forall₂ (Means p) (seq :: seqs) alternates

/-- A rule keeps its meaning when names are added, for grammars that were meant before. -/
theorem RuleMeans.mono (h : RuleMeans p rule alternates) (hids : p.symbolIds <+: p'.symbolIds)
    (hbecomes : ∀ q, Becomes p' q → Becomes p q) :
    RuleMeans p' rule alternates := by
  obtain ⟨seq, seqs, hrule, hmeans⟩ := h
  exact ⟨seq, seqs, hrule, hmeans.imp (fun _ _ h => h.mono hids hbecomes)⟩

/-- Alternates that mean something are pieces without `|`. -/
theorem forall_piece {seqs : List (List Element)} (h : List.Forall₂ (Means p) seqs alternates) :
    ∀ a ∈ seqs, Piece p.symbolIds.length a ∧ ∀ elem ∈ a, elem.type ≠ .alt := by
  induction h with
  | nil => exact nofun
  | cons hmeans _ ih => exact List.forall_mem_cons.2 ⟨⟨hmeans.piece, hmeans.noAlt⟩, ih⟩

/-- A rule that means alternates is a whole rule. -/
theorem RuleMeans.whole (h : RuleMeans p rule alternates) : Whole p.symbolIds.length rule := by
  obtain ⟨seq, seqs, rfl, hmeans⟩ := h
  exact ⟨_, rfl, joined_piece (fun a ha => (forall_piece hmeans a ha).1)⟩

/-- A rule that means alternates is not empty. -/
theorem RuleMeans.ne_nil (h : RuleMeans p rule alternates) : rule ≠ [] := by
  obtain ⟨_, _, rfl, _⟩ := h
  simp

/-- The forms of a rule are the symbols of its sequences. -/
theorem forms_joined {seq : List Element} {seqs : List (List Element)}
    (h : ∀ a ∈ seq :: seqs, Piece n a ∧ ∀ elem ∈ a, elem.type ≠ .alt) :
    forms (joined seq seqs ++ [⟨.end_, 0⟩]) = (seq :: seqs).map symbols := by
  induction seqs generalizing seq with
  | nil =>
    obtain ⟨hpiece, halt⟩ := h seq List.mem_cons_self
    rw [joined, forms, laterForms_append (hpiece .alt) halt]
    rfl
  | cons next seqs ih =>
    obtain ⟨⟨hpiece, halt⟩, hseqs⟩ := List.forall_mem_cons.1 h
    rw [joined, forms, List.append_assoc, laterForms_append (hpiece .alt) halt,
      symbolsAt_append (hpiece .alt) halt ⟨rfl, rfl⟩, List.map_cons, ← ih hseqs]
    simp [symbolsAt, laterForms, forms]

/-- The forms of a rule derive what its alternates say. -/
theorem RuleMeans.derives (h : RuleMeans p rule alternates) (hq : Becomes p q) :
    (∃ alt ∈ forms rule, q.cfg.Derives alt w) ↔ ∃ items ∈ alternates, Says q.language items w := by
  obtain ⟨seq, seqs, rfl, hmeans⟩ := h
  rw [forms_joined (forall_piece hmeans)]
  generalize seq :: seqs = all at hmeans
  induction hmeans with
  | nil => simp
  | cons hmeans _ ih => rw [List.map_cons, List.exists_mem_cons_iff, List.exists_mem_cons_iff, hmeans.derives q hq, ih]

/-- A rule that means alternates says what one of them says. -/
theorem RuleMeans.derives_ref (h : RuleMeans p rule alternates) (hq : Becomes p q)
    (hrule : q.cfg.rules id = forms rule) :
    q.cfg.Derives [.ref id] w ↔ ∃ items ∈ alternates, Says q.language items w := by
  rw [Cfg.derives_ref_iff, hrule, ← h.derives hq]
  simp only [List.append_nil]

/-! ## Characters -/

/-- Passing over blanks leaves no more text than there was. -/
theorem length_parseSpace (newlineOk : Bool) (src : Bytes) : (parseSpace newlineOk src).length ≤ src.length := by
  have hall : ∀ comment, (parseSpaceFrom newlineOk comment src).length ≤ src.length := by
    induction src with
    | nil => exact fun _ => Nat.le_refl 0
    | cons c src ih =>
      intro comment
      have hle : ∀ comment, (parseSpaceFrom newlineOk comment src).length ≤ (c :: src).length :=
        fun comment => (ih comment).trans (Nat.le_succ _)
      rw [parseSpaceFrom]
      split
      · exact hle _
      split
      · exact hle _
      split
      · exact hle _
      split
      · exact hle _
      · exact Nat.le_refl _
  exact hall false

/-- Reading hexadecimal digits leaves no more text than there was. -/
theorem parseHex_spec (size : Nat) (src : Bytes) (value : Nat) :
    Gives (fun out => out.2.length ≤ src.length) (parseHex size src value) := by
  induction size generalizing src value with
  | zero => exact Nat.le_refl src.length
  | succ size ih =>
    cases src with
    | nil => exact rfl
    | cons c src =>
      rw [parseHex]
      split
      · exact rfl
      · exact (ih _ _).mono (fun _ h => h.trans (Nat.le_succ _)) (fun _ h => h)

/-- Reading an escape leaves no more text than there was. -/
theorem parseEscape_spec (src : Bytes) : Gives (fun out => out.2.length ≤ src.length) (parseEscape src) := by
  cases src with
  | nil => exact rfl
  | cons c src =>
    have hle : src.length ≤ (c :: src).length := Nat.le_succ _
    have hhex : ∀ size, Gives (fun out => out.2.length ≤ (c :: src).length) (parseHex size src 0) := fun size =>
      (parseHex_spec size src 0).mono (fun _ h => h.trans hle) (fun _ h => h)
    rw [parseEscape]
    split
    · exact hhex 2
    split
    · exact hhex 4
    split
    · exact hhex 8
    split
    · exact hle
    split
    · exact hle
    split
    · exact hle
    split
    · exact hle
    · exact rfl

/-- A character takes some of the text. -/
theorem parseChar_spec (c : UInt8) (src : Bytes) :
    Gives (fun out => out.2.length ≤ src.length) (parseChar (c :: src)) := by
  rw [parseChar]
  split
  · exact parseEscape_spec src
  · exact (List.drop_sublist _ _).length_le

/-- A literal is read as a list of characters. -/
theorem parseLiteral_spec (hrounds : src.length < rounds) :
    Gives (fun out => out.2.length ≤ src.length ∧ ∃ chars : List Nat, out.1 = chars.map (fun c => ⟨.char, c⟩))
      (parseLiteral rounds src) := by
  induction rounds generalizing src with
  | zero => nomatch hrounds
  | succ rounds ih =>
    cases src with
    | nil => exact rfl
    | cons c src =>
      rw [parseLiteral]
      split
      · exact ⟨Nat.le_succ _, [], rfl⟩
      · refine (parseChar_spec c src).bind (fun out hout => ?_)
        refine (ih (Nat.lt_of_le_of_lt hout (Nat.lt_of_succ_lt_succ hrounds))).bind (fun out' hout' => ?_)
        obtain ⟨hle, chars, hchars⟩ := hout'
        refine ⟨hle.trans (hout.trans (Nat.le_succ _)), out.1 :: chars, ?_⟩
        rw [hchars]
        rfl

/-- An upper bound behind a character, and what can be behind either. -/
theorem parseUpper_spec (n : Nat) (src : Bytes)
    (htype : follows type .charRngUpper = true ∧ follows type .charAlt = true) :
    Gives (fun out => out.2.length ≤ src.length ∧ (∀ elem ∈ out.1, elem.type = .charRngUpper) ∧
      ∀ elems, (∀ prev, follows prev .charAlt = true → Linked n prev elems) →
        Linked n type (out.1 ++ elems)) (parseUpper src) := by
  rw [parseUpper]
  split
  · cases htail : src.tail with
    | nil => exact rfl
    | cons c rest =>
      have hlength : rest.length ≤ src.length := by
        have htails := congrArg List.length htail
        simp only [List.length_tail, List.length_cons] at htails
        omega
      rw [if_neg (List.cons_ne_nil c rest)]
      refine (parseChar_spec c rest).bind (fun out hout =>
        ⟨hout.trans hlength, ?_, fun elems helems => ⟨htype.1, nofun, nofun, helems _ rfl⟩⟩)
      intro elem helem
      obtain rfl := List.mem_singleton.1 helem
      rfl
  · exact ⟨Nat.le_refl _, nofun, fun elems helems => helems _ htype.2⟩

/-- A class is modified by what follows its first character. -/
theorem parseRange_spec (n : Nat) (hrounds : src.length < rounds)
    (htype : type = .char ∨ type = .charNot ∨ type = .charAlt) :
    Gives (fun out => out.2.length ≤ src.length ∧ (out.1 = [] ∨ Modified type out.1) ∧
      ∀ prev, follows prev type = true → Linked n prev out.1)
      (parseRange rounds type src) := by
  induction rounds generalizing src type with
  | zero => nomatch hrounds
  | succ rounds ih =>
    cases src with
    | nil => exact rfl
    | cons c src =>
      have hfollows : follows type .charRngUpper = true ∧ follows type .charAlt = true := by
        rcases htype with rfl | rfl | rfl <;> exact ⟨rfl, rfl⟩
      have hne : type ≠ .end_ ∧ type ≠ .ruleRef := by
        rcases htype with rfl | rfl | rfl <;> exact ⟨nofun, nofun⟩
      rw [parseRange]
      split
      · exact ⟨Nat.le_succ _, .inl rfl, fun _ _ => trivial⟩
      · refine (parseChar_spec c src).bind (fun out hout => ?_)
        refine (parseUpper_spec n out.2 hfollows).bind (fun upper hupper => ?_)
        have hlength := hupper.1.trans hout
        refine (ih (Nat.lt_of_le_of_lt hlength (Nat.lt_of_succ_lt_succ hrounds)) (.inr (.inr rfl))).bind
          (fun rest hrest => ?_)
        refine ⟨hrest.1.trans (hlength.trans (Nat.le_succ _)), .inr ⟨out.1, upper.1 ++ rest.1, rfl, ?_⟩,
          fun prev hprev => ?_⟩
        · refine List.forall_mem_append.2 ⟨fun elem helem => .inl (hupper.2.1 elem helem), fun elem helem => ?_⟩
          rcases hrest.2.1 with hnil | ⟨value, others, heq, hothers⟩
          · rw [hnil] at helem
            nomatch helem
          · rw [heq] at helem
            rcases List.mem_cons.1 helem with rfl | helem
            · exact .inr rfl
            · exact hothers elem helem
        · exact ⟨hprev, hne.1, fun htype => absurd htype hne.2, hupper.2.2 _ hrest.2.2⟩

/-- A name is read that has no underscore, and it is not empty. -/
theorem parseName_spec (src : Bytes) : Gives (fun out => 0x5F ∉ out.1 ∧ out.2.length < src.length) (parseName src) := by
  rw [parseName]
  split
  · exact rfl
  · rename_i hne
    refine ⟨fun hmem => absurd (List.mem_takeWhile_imp hmem :) (by decide), ?_⟩
    have hlength := congrArg List.length (List.takeWhile_append_dropWhile (p := isWordChar) (l := src))
    have := List.length_pos_of_ne_nil hne
    rw [List.length_append] at hlength
    dsimp only
    omega

/-- Reading digits leaves no more text than there was. -/
theorem parseInt_spec (src : Bytes) : Gives (fun out => out.2.length ≤ src.length) (parseInt src) := by
  rw [parseInt]
  split
  · exact rfl
  · exact (List.dropWhile_suffix _).length_le

/-- `std::stoul` gives a number or throws. -/
theorem stoul_spec (digits : Bytes) : Gives (fun _ => True) (stoul digits) := by
  simp only [stoul]
  split
  · trivial
  · exact rfl

/-- Reading the bounds of a repetition leaves no more text than there was. -/
theorem parseTimes_spec (isNested : Bool) (src : Bytes) :
    Gives (fun out => out.2.2.length ≤ src.length) (parseTimes isNested src) := by
  have hspace : ∀ {src src' : Bytes}, src'.length ≤ src.length → (parseSpace isNested src').length ≤ src.length :=
    fun h => (length_parseSpace isNested _).trans h
  have htail : ∀ {src' : Bytes}, src'.length ≤ src.length → src'.tail.length ≤ src.length :=
    fun h => (List.tail_sublist _).length_le.trans h
  rw [parseTimes]
  refine (parseInt_spec _).bind (fun out hout => ?_)
  refine (stoul_spec _).bind (fun minTimes _ => ?_)
  have hfirst : (parseSpace isNested out.2).length ≤ src.length := hspace (hout.trans (length_parseSpace isNested src))
  dsimp only
  split
  · exact hspace (htail hfirst)
  split
  · have hsecond := hspace (htail hfirst)
    have hclose : ∀ (maxTimes : Int) (src' : Bytes), src'.length ≤ src.length →
      Gives (fun out => out.2.2.length ≤ src.length)
        (if peek src' = 0x7D then .ok (minTimes, maxTimes, parseSpace isNested src'.tail) else .error .thrown) := by
      intro maxTimes src' hle
      split
      · exact hspace (htail hle)
      · exact rfl
    split
    · refine (parseInt_spec _).bind (fun out hout => ?_)
      refine (stoul_spec _).bind (fun maxTimes _ => ?_)
      exact hclose maxTimes _ (hspace (hout.trans hsecond))
    · exact hclose (-1) _ hsecond
  · exact rfl

/-- Reading a repetition leaves no more text than there was. -/
theorem parseRepetition_spec (isNested : Bool) (c : UInt8) (src : Bytes) :
    Gives (fun out => ∀ times, out = some times → times.2.2.length ≤ src.length) (parseRepetition isNested c src) := by
  have hspace : ∀ minTimes maxTimes : Int, ∀ times, some (minTimes, maxTimes, parseSpace isNested src) =
    some times → times.2.2.length ≤ src.length := by
    rintro minTimes maxTimes times hsome
    obtain rfl := Option.some.inj hsome
    exact length_parseSpace isNested src
  rw [parseRepetition]
  split
  · exact hspace 0 (-1)
  split
  · exact hspace 1 (-1)
  split
  · exact hspace 0 1
  split
  · have htimes := parseTimes_spec isNested src
    cases h : parseTimes isNested src with
    | error e => exact htimes.of_error h
    | ok out =>
      intro times hsome
      obtain rfl := Option.some.inj hsome
      exact htimes.of_ok h
  · exact nofun

/-- Nothing is repeated by other characters. -/
theorem parseRepetition_none {c : UInt8} (h : parseRepetition isNested c src = .ok none) :
    c ≠ 0x2A ∧ c ≠ 0x2B ∧ c ≠ 0x3F ∧ c ≠ 0x7B := by
  rw [parseRepetition] at h
  split at h
  · cases h
  split at h
  · cases h
  split at h
  · cases h
  split at h
  · cases htimes : parseTimes isNested src <;> rw [htimes] at h <;> cases h
  · exact ⟨‹_›, ‹_›, ‹_›, ‹_›⟩

/-! ## Sequences and alternates -/

/-- What parsing alternates gives: the parser has grown, and the rule is added last. -/
def Alternated (isNested : Bool) (src : Bytes) (id : Nat) (p : Parser) (out : Bytes × Parser) : Prop :=
  out.1.length ≤ src.length ∧ ∃ p' rule alternates, Grows p p' ∧ out.2 = p'.addRule id rule ∧
    RuleMeans p' rule alternates ∧ Alternates isNested src alternates out.1

/-- Alternates of texts below a length are parsed. -/
def Nests (bound : Nat) (nested : Bytes → Nat → Parser → Except Failure (Bytes × Parser)) : Prop :=
  ∀ src id p, src.length < bound → p.Ok → Gives (Alternated true src id p) (nested src id p)

/-- What parsing a sequence gives, behind elements and symbols that are there. -/
def Sequenced (isNested : Bool) (src : Bytes) (pre : List Element) (items : List Item) (p : Parser)
    (out : Bytes × Rule × Parser) : Prop :=
  out.1.length ≤ src.length ∧ Grows p out.2.2 ∧ ∃ seq items', out.2.1 = pre ++ seq ∧ Means out.2.2 seq items' ∧
    Sequence isNested src items items' out.1

/-- A new rule, and what it means for those that are not added to. -/
theorem becomes_of_addRule (h : p.Generated id → p.ruleAt id = []) (hq : Becomes (p.addRule id rule) q) :
    Becomes p q := by
  refine ⟨hq.ids, hq.holds, fun id' hid' hne => ?_⟩
  have hother : id' ≠ id := by
    rintro rfl
    exact hne (h hid')
  have hkept := hq.kept id' hid'
  rw [addRule_of_ne hother] at hkept
  exact hkept hne

/-- A group is a reference to a rule that is generated. -/
theorem group_spec {nested : Bytes → Nat → Parser → Except Failure (Bytes × Parser)} (hnested : Nests bound nested)
    (hname : 0x5F ∉ name) (hbound : src.length < bound) (h : p.Ok) :
    Gives (fun out => out.1.length ≤ src.length ∧ Grows p out.2 ∧ ∃ alternates, Alternates true src alternates out.1 ∧
        Means out.2 [⟨.ruleRef, p.symbolIds.length⟩] [.group alternates])
      (nested src (p.generateSymbolId name).1 (p.generateSymbolId name).2) := by
  obtain ⟨hid, hgrows, hlength, hgenerated, hnone⟩ := generateSymbolId_spec h hname
  generalize p.generateSymbolId name = out at hid hgrows hlength hgenerated hnone
  obtain ⟨subRuleId, p₁⟩ := out
  dsimp only at hid hgrows hlength hgenerated hnone
  subst hid
  refine (hnested src _ p₁ hbound hgrows.ok).mono ?_ (fun _ h => h)
  rintro ⟨rest, p₃⟩ ⟨hle, p₂, rule, alternates, hgrows₂, rfl, hmeans, halternates⟩
  have hlt : p.symbolIds.length < p₂.symbolIds.length := by
    have := hgrows₂.le
    omega
  have hall := (hgrows.trans hgrows₂).addRule (Nat.le_refl _) (hgenerated.mono hgrows₂.ids) hmeans.whole
  refine ⟨hle, hall, alternates, halternates, means_item (piece_ref hlt) (refTo_ne_alt (some _)) (fun q hq w => ?_)⟩
  -- the rule was not there before it was added, so what was parsed before is as it was
  have hbefore : p₂.ruleAt p.symbolIds.length = [] := (hgrows₂.kept _ (by omega)).trans hnone
  have hkept := hq.kept _ (hgenerated.mono hgrows₂.ids)
  rw [addRule_self] at hkept
  refine (hmeans.derives_ref (becomes_of_addRule (fun _ => hbefore) hq) (hkept hmeans.ne_nil)).trans ?_
  constructor
  · rintro ⟨items, hitems, hsaid⟩
    exact .group hitems hsaid
  · rintro ⟨⟩
    exact ⟨_, ‹_›, ‹_›⟩

/-- A sequence is parsed behind the symbols so far, of which the last one may be repeated. -/
theorem parseSymbols_spec {nested : Bytes → Nat → Parser → Except Failure (Bytes × Parser)}
    (hnested : Nests bound nested) (hname : 0x5F ∉ name) (hbound : src.length ≤ bound)
    (hrounds : src.length < rounds) (h : p.Ok) (ha : Means p a items) (hb : Means p b last)
    (hlast : b ≠ [] → ∃ item, last = [item]) (hk : k = (pre ++ a).length) (hrule : rule = pre ++ a ++ b) :
    Gives (Sequenced isNested src pre (items ++ last) p) (parseSymbols nested name isNested rounds src k rule p) := by
  induction rounds generalizing src k rule p a b items last with
  | zero => nomatch hrounds
  | succ rounds ih =>
    have hdone : ∀ src, Stops src → Sequenced isNested src pre (items ++ last) p (src, rule, p) := fun src hstops =>
      ⟨Nat.le_refl _, .refl h, a ++ b, items ++ last, by rw [hrule, List.append_assoc], ha.append hb, .done hstops⟩
    cases src with
    | nil => exact hdone [] nofun
    | cons c src =>
      have hshorter : ∀ {src' : Bytes}, src'.length ≤ src.length → src'.length ≤ bound ∧ src'.length < rounds ∧
        src'.length ≤ (c :: src).length := by
        intro src' hle
        rw [List.length_cons] at hbound hrounds ⊢
        omega
      -- behind a new symbol, the rest of the sequence is parsed
      have hrest : ∀ {p' : Parser} {src' : Bytes} {elems : List Element} {item : Item}, src'.length ≤ src.length →
        Grows p p' → Means p' elems [item] →
          (∀ items' rest, Sequence isNested (parseSpace isNested src') (items ++ last ++ [item]) items' rest →
            Sequence isNested (c :: src) (items ++ last) items' rest) →
          Gives (Sequenced isNested (c :: src) pre (items ++ last) p)
            (parseSymbols nested name isNested rounds (parseSpace isNested src') rule.length (rule ++ elems) p') := by
        intro p' src' elems item hle hgrows hmeans hsequence
        obtain ⟨hbound', hrounds', hlength⟩ := hshorter ((length_parseSpace isNested src').trans hle)
        refine (ih hbound' hrounds' hgrows.ok ((ha.append hb).grows h hgrows) hmeans
          (fun _ => ⟨item, rfl⟩) ?_ ?_).mono ?_ (fun _ h => h)
        · rw [hrule, List.append_assoc]
        · rw [hrule, List.append_assoc, List.append_assoc, List.append_assoc, List.append_assoc]
        · rintro out ⟨hle', hgrows', seq, items', hseq, hmeans', hread⟩
          exact ⟨hle'.trans hlength, hgrows.trans hgrows', seq, items', hseq, hmeans', hsequence items' out.1 hread⟩
      rw [parseSymbols]
      by_cases hquote : c = 0x22
      · subst hquote
        rw [if_pos rfl]
        refine (parseLiteral_spec (Nat.lt_succ_self _)).and_eq.bind ?_
        rintro ⟨elems, src'⟩ ⟨hliteral, hle, chars, rfl⟩
        exact hrest hle (.refl h) (means_literal p chars) (fun _ _ hread => .literal hliteral hread)
      rw [if_neg hquote]
      by_cases hbracket : c = 0x5B
      · subst hbracket
        rw [if_pos rfl]
        by_cases hnot : peek src = 0x5E
        · obtain ⟨rest, rfl⟩ : ∃ rest, src = 0x5E :: rest := by
            cases src with
            | nil => cases hnot
            | cons c rest => exact ⟨rest, congrArg (· :: rest) hnot⟩
          refine (parseRange_spec p.symbolIds.length (Nat.lt_succ_self rest.length) (.inr (.inl rfl))).and_eq.bind ?_
          rintro ⟨elems, src'⟩ ⟨hrange, hle, hmodified, hlinked⟩
          refine hrest (hle.trans (Nat.le_succ _)) (.refl h)
            (means_range (fun prev => hlinked prev ?_) hmodified (.inr (.inl rfl))) ?_
          · cases prev <;> rfl
          · exact fun _ _ hread => .rangeNot hrange hread
        · simp only [if_neg hnot]
          refine (parseRange_spec p.symbolIds.length (Nat.lt_succ_self src.length) (.inl rfl)).and_eq.bind ?_
          rintro ⟨elems, src'⟩ ⟨hrange, hle, hmodified, hlinked⟩
          refine hrest hle (.refl h) (means_range (fun prev => hlinked prev ?_) hmodified (.inl rfl)) ?_
          · cases prev <;> rfl
          · exact fun _ _ hread => .range hnot hrange hread
      rw [if_neg hbracket]
      by_cases hword : isWordChar c = true
      · rw [if_pos hword]
        refine (parseName_spec (c :: src)).and_eq.bind ?_
        rintro ⟨name', src'⟩ ⟨hread, hname', hlt⟩
        obtain ⟨hgrows, hid⟩ := getSymbolId_spec h hname'
        exact hrest (Nat.le_of_lt_succ hlt) hgrows (means_name hgrows.ok hname' hid)
          (fun _ _ hread' => .name hread hread')
      rw [if_neg hword]
      by_cases hopen : c = 0x28
      · subst hopen
        rw [if_pos rfl]
        have hspace := length_parseSpace true src
        refine (group_spec hnested hname (Nat.lt_of_le_of_lt hspace hbound) h).bind ?_
        rintro ⟨rest, p'⟩ ⟨hle, hgrows, alternates, halternates, hmeans⟩
        by_cases hclose : peek rest ≠ 0x29
        · simp only [if_pos hclose]
          exact rfl
        · obtain ⟨src', rfl⟩ : ∃ src', rest = 0x29 :: src' := by
            cases rest with
            | nil => exact absurd nofun hclose
            | cons c src' => exact ⟨src', congrArg (· :: src') (not_not.1 hclose)⟩
          simp only [if_neg hclose]
          exact hrest ((Nat.le_of_succ_le hle).trans hspace) hgrows hmeans (fun _ _ hread => .group halternates hread)
      rw [if_neg hopen]
      by_cases hany : c = 0x2E
      · subst hany
        rw [if_pos rfl]
        exact hrest (Nat.le_refl _) (.refl h) (means_any p) (fun _ _ hread => .any hread)
      rw [if_neg hany]
      refine (parseRepetition_spec isNested c src).and_eq.bind ?_
      rintro times ⟨htimes, hle⟩
      cases times with
      | none =>
        refine hdone (c :: src) ?_
        rintro _ _ ⟨⟩
        have hrepetition := parseRepetition_none htimes
        exact ⟨Bool.eq_false_of_not_eq_true hword, by simp [hquote, hbracket, hopen, hany, hrepetition]⟩
      | some times =>
        obtain ⟨minTimes, maxTimes, src'⟩ := times
        obtain ⟨hbound', hrounds', hlength⟩ := hshorter (hle _ rfl)
        rw [hk, hrule]
        refine (handleRepetitions_spec minTimes maxTimes h hname hb.piece hb.noAlt).bind ?_
        rintro ⟨rule', p'⟩ ⟨hne, hgrows, b', rfl, hpiece, halt, hderives⟩
        obtain ⟨item, rfl⟩ := hlast hne
        have hmeans : Means p' b' [.times item minTimes maxTimes] := by
          refine means_item hpiece halt (fun q hq w => (hderives q hq w).trans ?_)
          simp only [hb.times (hgrows.becomes h hq)]
          constructor
          · rintro ⟨i, hi, hsaid⟩
            exact .times hi hsaid
          · rintro ⟨⟩
            exact ⟨_, ‹_›, ‹_›⟩
        refine (ih hbound' hrounds' hgrows.ok (ha.grows h hgrows) hmeans (fun _ => ⟨_, rfl⟩) rfl rfl).mono ?_
          (fun _ h => h)
        rintro out ⟨hle', hgrows', seq, items', hseq, hmeans', hread⟩
        exact ⟨hle'.trans hlength, hgrows.trans hgrows', seq, items', hseq, hmeans', .times htimes hread⟩

/-- The alternates behind the first are read one by one, and the rule means all of them. -/
theorem parseMore_spec {sequence : Bytes → Rule → Parser → Except Failure (Bytes × Rule × Parser)} {seq : List Element}
    (hsequence : ∀ src rule p, src.length ≤ bound → p.Ok →
      Gives (Sequenced isNested src rule [] p) (sequence src rule p)) (hbound : src.length ≤ bound)
      (hrounds : src.length < rounds) (h : p.Ok) (hseq : Means p seq items) (hrule : rule = pre ++ seq) :
    Gives (fun out => out.1.length ≤ src.length ∧ Grows p out.2.2 ∧
      ∃ seqs alternates, out.2.1 = pre ++ joined seq seqs ∧
        List.Forall₂ (Means out.2.2) (seq :: seqs) (items :: alternates) ∧
        ∀ start, Sequence isNested start [] items src → Alternates isNested start (items :: alternates) out.1)
      (parseMore sequence rounds src rule p) := by
  induction rounds generalizing src rule p seq items pre with
  | zero => nomatch hrounds
  | succ rounds ih =>
    rw [parseMore]
    by_cases hbar : peek src = 0x7C
    · obtain ⟨rest, rfl⟩ : ∃ rest, src = 0x7C :: rest := by
        cases src with
        | nil => cases hbar
        | cons c rest => exact ⟨rest, congrArg (· :: rest) hbar⟩
      rw [if_pos hbar]
      have hspace := length_parseSpace true rest
      rw [List.length_cons] at hbound hrounds
      refine (hsequence (parseSpace true rest) (rule ++ [⟨.alt, 0⟩]) p (by omega) h).bind ?_
      rintro ⟨src', rule', p'⟩ ⟨hle, hgrows, next, items', hrule', hnext, hread⟩
      dsimp only at hle hgrows hrule' hnext hread
      refine (ih (by omega) (by omega) hgrows.ok hnext hrule').mono ?_ (fun _ h => h)
      rintro out ⟨hle', hgrows', seqs, alternates, hout, hmeans, hrest⟩
      refine ⟨by rw [List.length_cons]; omega, hgrows.trans hgrows', next :: seqs, items' :: alternates, ?_,
        .cons (hseq.grows h (hgrows.trans hgrows')) hmeans, fun start hstart => .more hstart (hrest _ hread)⟩
      rw [hout, hrule, joined]
      simp only [List.append_assoc, List.singleton_append]
    · rw [if_neg hbar]
      exact ⟨Nat.le_refl _, .refl h, [], [], hrule, .cons hseq .nil, fun _ hstart => .last hstart hbar⟩

/-- Alternates are parsed where as many groups may stand in one another as the text is long. -/
theorem parseAlternates_spec (hname : 0x5F ∉ name) (hdepth : src.length < depth) (h : p.Ok) :
    Gives (Alternated isNested src id p) (parseAlternates depth src name id isNested p) := by
  induction depth generalizing src id isNested p with
  | zero => nomatch hdepth
  | succ depth ih =>
    have hnested : Nests depth (fun src subRuleId p => parseAlternates depth src name subRuleId true p) :=
      fun _ _ _ hlt hok => ih hlt hok
    have hsequence : ∀ src rule p, src.length ≤ depth → p.Ok → Gives (Sequenced isNested src rule [] p)
        (parseSymbols (fun src subRuleId p => parseAlternates depth src name subRuleId true p) name isNested
          (src.length + 1) src rule.length rule p) :=
      fun src rule p hle hok => parseSymbols_spec (a := []) (b := []) hnested hname hle (Nat.lt_succ_self _) hok
        (means_nil p) (means_nil p)
        (fun hne => absurd rfl hne) (by simp) (by simp)
    have hle := Nat.le_of_lt_succ hdepth
    rw [parseAlternates]
    refine (hsequence src [] p hle h).bind ?_
    rintro ⟨src₁, rule₁, p₁⟩ ⟨hle₁, hgrows₁, seq, items, hrule₁, hseq, hread⟩
    dsimp only at hle₁ hgrows₁ hrule₁ hseq hread
    refine (parseMore_spec hsequence (hle₁.trans hle) (Nat.lt_succ_self _) hgrows₁.ok hseq hrule₁).bind ?_
    rintro ⟨src₂, rule₂, p₂⟩ ⟨hle₂, hgrows₂, seqs, alternates, hrule₂, hmeans, hrest⟩
    dsimp only at hle₂ hgrows₂ hrule₂ hmeans hrest
    refine ⟨hle₂.trans hle₁, p₂, _, items :: alternates, hgrows₁.trans hgrows₂, rfl, ⟨seq, seqs, ?_, hmeans⟩,
      hrest src hread⟩
    rw [hrule₂]
    rfl

end Ollama.Llama
