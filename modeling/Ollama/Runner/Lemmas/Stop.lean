import Ollama.Runner.Stop
import Mathlib.Data.List.Find

/-!
# What is held back

The facts about `stop.go` that make incremental sending safe: a text that ends with no beginning of a stop sequence
can be sent, since no stop sequence lies across its end, and a text that is not refused by the UTF-8 machine ends
between characters when `IncompleteUnicode` says so.
-/

namespace Ollama.Runner

open Lib

/-! ## FindStop and ContainsStopSuffix -/

theorem findStop_eq_none_iff {sequence : Bytes} {stops : List Bytes} :
    findStop sequence stops = none ↔ ∀ stop ∈ stops, ¬stop <:+: sequence := by
  simp only [findStop, List.find?_eq_none, Option.not_isSome_iff_eq_none, index_eq_none_iff]

/-- A text without a suffix that begins a stop sequence: no stop sequence lies across its end. -/
theorem not_suffix_of_containsStopSuffix {sequence : Bytes} {stops : List Bytes}
    (h : containsStopSuffix sequence stops = false) {stop : Bytes} (hs : stop ∈ stops) {u v : Bytes} (hu : u ≠ [])
    (huv : stop = u ++ v) : ¬u <:+ sequence := by
  intro hsuf
  have hall : ∀ i < stop.length, ¬(stop.take (i + 1)).isSuffixOf sequence = true := by
    intro i hi hbad
    have hyes : containsStopSuffix sequence stops = true :=
      List.any_eq_true.2 ⟨stop, hs, List.any_eq_true.2 ⟨i, List.mem_range.2 hi, hbad⟩⟩
    rw [h] at hyes
    nomatch hyes
  have hpos : 0 < u.length := List.length_pos_iff.2 hu
  have htake : stop.take (u.length - 1 + 1) = u := by
    rw [Nat.sub_add_cancel hpos, huv, List.take_left]
  refine hall (u.length - 1) ?_ ?_
  · rw [huv, List.length_append]
    omega
  · rw [htake]
    exact List.isSuffixOf_iff_suffix.2 hsuf

/-! ## TruncateStop -/

/-- The pieces that are left join to the rest of the text from `start` on. -/
theorem splitPieces_flatten (joined : Bytes) (lengths : List Nat) (start : Nat)
    (h : joined.length ≤ start + lengths.sum) :
    (splitPieces joined lengths start).1.flatten = joined.drop start := by
  induction lengths generalizing start with
  | nil =>
    simp only [List.sum_nil, Nat.add_zero] at h
    simp [splitPieces, List.drop_eq_nil_of_le h]
  | cons length rest ih =>
    simp only [splitPieces]
    split
    · rename_i hge
      rw [List.drop_eq_nil_of_le hge]
      rfl
    · rename_i hlt
      simp only [List.sum_cons] at h
      generalize hstop : (if decide (start + length > joined.length) =
        true then joined.length else start + length) = stop
      have hle : start ≤ stop ∧ joined.length ≤ stop + rest.sum := by
        rw [← hstop]
        split
        · omega
        · omega
      rw [List.flatten_cons, ih stop hle.2]
      have hdrop : joined.drop stop = (joined.drop start).drop (stop - start) := by
        rw [List.drop_drop, Nat.add_sub_cancel' hle.1]
      rw [List.drop_take, hdrop, List.take_append_drop]

/-- `TruncateStop` cuts the text before the first occurrence of the stop sequence. -/
theorem truncateStop_flatten {pieces : List Bytes} {stop : Bytes} {i : Nat} (h : index stop pieces.flatten = some i) :
    (truncateStop pieces stop).1.flatten = pieces.flatten.take i := by
  unfold truncateStop
  rw [h]
  simp only
  rw [splitPieces_flatten, List.drop_zero]
  rw [Nat.zero_add, List.length_take, ← List.length_flatten]
  exact Nat.min_le_right _ _

/-- The last of the pieces that are left is a beginning of the piece in its place, neither empty nor all of it. -/
def LastShortened (pieces left : List Bytes) : Prop :=
  ∃ kept p q rest, pieces = kept ++ p :: rest ∧ left = kept ++ [q] ∧ q ≠ [] ∧ q <+: p ∧ q ≠ p

theorem LastShortened.cons {pieces left : List Bytes} (h : LastShortened pieces left) (p : Bytes) :
    LastShortened (p :: pieces) (p :: left) := by
  obtain ⟨kept, p', q, rest, rfl, rfl, hq⟩ := h
  exact ⟨p :: kept, p', q, rest, rfl, rfl, hq⟩

/-- Pieces of which the last is shortened are not the first pieces. -/
theorem LastShortened.not_prefix {pieces left : List Bytes} (h : LastShortened pieces left) : ¬left <+: pieces := by
  obtain ⟨kept, p, q, rest, rfl, rfl, _, _, hne⟩ := h
  intro hprefix
  rw [List.prefix_append_right_inj, List.cons_prefix_cons] at hprefix
  exact hne hprefix.1

theorem splitPieces_of_le {joined : Bytes} {start : Nat} (h : joined.length ≤ start) (lengths : List Nat) :
    splitPieces joined lengths start = ([], false) := by
  cases lengths with
  | nil => rfl
  | cons length lengths => rw [splitPieces, if_pos h]

/-- The pieces that are left of the first bytes of a text are the first pieces, or the last of them is shortened, as
the flag says. -/
theorem splitPieces_shape (before : Bytes) (pieces : List Bytes) {i : Nat} (hstart : before.length ≤ i)
    (hi : i ≤ (before ++ pieces.flatten).length) :
    let out := splitPieces ((before ++ pieces.flatten).take i) (pieces.map List.length) before.length
    out.2 = false ∧ out.1 <+: pieces ∨ out.2 = true ∧ LastShortened pieces out.1 := by
  induction pieces generalizing before with
  | nil => exact .inl ⟨rfl, List.nil_prefix⟩
  | cons p pieces ih =>
    have hjoined : ((before ++ (p :: pieces).flatten).take i).length = i := by rw [List.length_take, Nat.min_eq_left hi]
    have htext : before ++ (p :: pieces).flatten = (before ++ p) ++ pieces.flatten := by
      rw [List.flatten_cons, List.append_assoc]
    rw [List.map_cons, splitPieces, hjoined]
    dsimp only
    by_cases hge : before.length ≥ i
    · rw [if_pos hge]
      exact .inl ⟨rfl, List.nil_prefix⟩
    · rw [if_neg hge]
      by_cases hcut : before.length + p.length > i
      · -- the text ends within this piece
        have hq : (((before ++ (p :: pieces).flatten).take i).take i).drop before.length =
          p.take (i - before.length) := by
          rw [List.take_take, Nat.min_self, htext, List.append_assoc, List.drop_take, List.drop_left,
            List.take_append_of_le_length (by omega)]
        simp only [hcut, decide_true, if_true, Bool.true_or]
        rw [splitPieces_of_le (Nat.le_of_eq hjoined), hq]
        refine .inr ⟨trivial, [], p, _, pieces, rfl, rfl, ?_, List.take_prefix _ _, ?_⟩
        · rw [Ne, List.take_eq_nil_iff, ← List.length_eq_zero_iff]
          omega
        · intro heq
          have hlen := congrArg List.length heq
          rw [List.length_take] at hlen
          omega
      · have hp : (((before ++ (p :: pieces).flatten).take i).take (before.length + p.length)).drop before.length =
          p := by
          rw [List.take_take, Nat.min_eq_left (Nat.le_of_not_lt hcut), htext, ← List.length_append, List.take_left,
            List.drop_left]
        have hrest := ih (before ++ p) (by rw [List.length_append]; omega) (htext ▸ hi)
        simp only [hcut, decide_false, Bool.false_eq_true, if_false, Bool.false_or]
        rw [hp, htext, ← List.length_append]
        exact hrest.imp (fun h => ⟨h.1, List.cons_prefix_cons.2 ⟨rfl, h.2⟩⟩) (fun h => ⟨h.1, h.2.cons p⟩)

/-! ## Tokens -/

/-- The number of first pieces that are left as they were. -/
def wholePieces (pieces left : List Bytes) : Nat := ((pieces.zip left).takeWhile (fun x => x.1 = x.2)).length

theorem wholePieces_append (kept pieces left : List Bytes) :
    wholePieces (kept ++ pieces) (kept ++ left) = kept.length + wholePieces pieces left := by
  induction kept with
  | nil => rw [List.nil_append, List.nil_append, List.length_nil, Nat.zero_add]
  | cons p kept ih =>
    rw [List.cons_append, List.cons_append, wholePieces, List.zip_cons_cons, List.takeWhile_cons_of_pos (by simp),
      List.length_cons, List.length_cons, Nat.add_right_comm, ← ih]
    rfl

theorem wholePieces_cons_ne {p q : Bytes} (h : p ≠ q) (pieces left : List Bytes) :
    wholePieces (p :: pieces) (q :: left) = 0 := by
  rw [wholePieces, List.zip_cons_cons, List.takeWhile_cons_of_neg (by simpa using h)]
  rfl

theorem wholePieces_nil (pieces : List Bytes) : wholePieces pieces [] = 0 := by
  rw [wholePieces, List.zip_nil_right]
  rfl

/-- The whole pieces, and the one that is shortened, when the text ends before the last of the bytes. -/
theorem splitPieces_whole (pieces : List Bytes) {i : Nat} (hi : i < pieces.flatten.length) :
    let out := splitPieces (pieces.flatten.take i) (pieces.map List.length) 0
    out.1.length = wholePieces pieces out.1 + (if out.2 then 1 else 0) ∧ wholePieces pieces out.1 < pieces.length := by
  have hflat := splitPieces_flatten (pieces.flatten.take i) (pieces.map List.length) 0 (by
    rw [Nat.zero_add, List.length_take, ← List.length_flatten]
    exact Nat.min_le_right _ _)
  dsimp only
  rcases splitPieces_shape [] pieces (Nat.zero_le i) (Nat.le_of_lt hi) with ⟨hflag, rest, hrest⟩ |
    ⟨hflag, kept, p, q, rest, hpieces, hleft, _, _, hne⟩
  · rw [List.nil_append, List.length_nil] at hflag hrest
    generalize splitPieces (pieces.flatten.take i) (pieces.map List.length) 0 = out at hflag hrest hflat
    have hwhole : wholePieces pieces out.1 = out.1.length := by
      have h := wholePieces_append out.1 rest []
      rwa [hrest, List.append_nil, wholePieces_nil] at h
    rw [hflag, hwhole]
    refine ⟨rfl, ?_⟩
    rcases List.eq_nil_or_concat rest with rfl | ⟨init, last, rfl⟩
    · have hlen := congrArg List.length hflat
      rw [List.append_nil] at hrest
      rw [hrest, List.drop_zero, List.length_take] at hlen
      omega
    · rw [← hrest, List.length_append, List.concat_eq_append, List.length_append, List.length_singleton]
      omega
  · rw [List.nil_append, List.length_nil] at hflag hleft
    rw [hflag, hleft]
    have hwhole : wholePieces pieces (kept ++ [q]) = kept.length := by
      rw [hpieces, wholePieces_append, wholePieces_cons_ne (Ne.symm hne), Nat.add_zero]
    rw [hwhole, List.length_append, List.length_singleton, hpieces, List.length_append, List.length_cons]
    exact ⟨rfl, by omega⟩

/-- How many tokens are taken off for a stop sequence: those from the first whose piece is dropped or cut on. -/
theorem truncateStop_tokens {pieces : List Bytes} {stop : Bytes} (hne : pieces ≠ []) (h : stop <:+: pieces.flatten) :
    let out := truncateStop pieces stop
    wholePieces pieces out.1 < pieces.length ∧
      pieces.length - out.1.length + (if out.2 ∨ pieces.length = out.1.length then 1 else 0) =
      pieces.length - wholePieces pieces out.1 ∧
      out.1.length ≤ pieces.length := by
  obtain ⟨i, hindex⟩ := Option.isSome_iff_exists.1 (index_isSome_iff.2 h)
  have hpos := List.length_pos_iff.2 hne
  rw [truncateStop, hindex]
  dsimp only
  have hwhole : let out := splitPieces (pieces.flatten.take i) (pieces.map List.length) 0
      out.1.length = wholePieces pieces out.1 + (if out.2 then 1 else 0) ∧
        wholePieces pieces out.1 < pieces.length := by
    by_cases hi : i < pieces.flatten.length
    · exact splitPieces_whole pieces hi
    · -- an empty stop sequence, before which there is nothing
      obtain ⟨hle, hfront, hfirst⟩ := index_eq_some_iff.1 hindex
      rw [List.drop_of_length_le (by omega), List.prefix_nil] at hfront
      have hzero : i = 0 := by
        by_contra hne
        exact hfirst 0 (Nat.pos_of_ne_zero hne) (hfront ▸ List.nil_prefix)
      have hnone := wholePieces_nil pieces
      rw [hzero, List.take_zero, splitPieces_of_le (Nat.le_refl 0)]
      exact ⟨hnone.symm, hnone.symm ▸ hpos⟩
  dsimp only at hwhole
  generalize splitPieces (pieces.flatten.take i) (pieces.map List.length) 0 = out at hwhole
  obtain ⟨h1, h2⟩ := hwhole
  refine ⟨h2, ?_, ?_⟩
  · cases hcut : out.2 with
    | true =>
      rw [hcut, if_pos rfl] at h1
      rw [if_pos (Or.inl rfl)]
      omega
    | false =>
      rw [hcut, if_neg Bool.false_ne_true] at h1
      rw [if_neg (by rintro (hf | hf); exact Bool.false_ne_true hf; omega)]
      omega
  · split at h1 <;> omega

/-! ## IncompleteUnicode -/

/-- The masks of `IncompleteUnicode` against the ranges of UTF-8: a continuation byte. -/
theorem cont_mask (c : UInt8) : 0x80 ≤ c ∧ c ≤ 0xBF ↔ c &&& 0xc0 = 0x80 := by
  revert c
  exact Utf8.forall_byte (by decide +kernel)

/-- The masks of `IncompleteUnicode` against the ranges of UTF-8: the first byte of a character. -/
theorem lead_mask (a : UInt8) (n : Nat) (h : (Utf8.lead a).map Utf8.State.owed = some n) (i : Nat) (hi : i < 5) :
    ∀ rest, incompleteFrom (a :: rest) i = decide (i < n + 1) ∨ n = 0 ∧ incompleteFrom (a :: rest) i = false := by
  have hmask : ∀ a : UInt8, (Utf8.lead a).map Utf8.State.owed = some 0 ∧ a < 0x80 ∨
      (Utf8.lead a).map Utf8.State.owed = some 1 ∧ a &&& 0xc0 ≠ 0x80 ∧ a &&& 0xe0 = 0xc0 ∨
      (Utf8.lead a).map Utf8.State.owed = some 2 ∧ a &&& 0xc0 ≠ 0x80 ∧ a &&& 0xe0 ≠ 0xc0 ∧ a &&& 0xf0 = 0xe0 ∨
      (Utf8.lead a).map Utf8.State.owed = some 3 ∧ a &&& 0xc0 ≠ 0x80 ∧ a &&& 0xe0 ≠ 0xc0 ∧ a &&& 0xf0 ≠ 0xe0 ∧
        a &&& 0xf8 = 0xf0 ∨
      Utf8.lead a = none := Utf8.forall_byte (by decide +kernel)
  have hascii : ∀ a : UInt8, a < 0x80 → a &&& 0xc0 ≠ 0x80 ∧ a &&& 0xe0 ≠ 0xc0 ∧ a &&& 0xf0 ≠ 0xe0 ∧ a &&& 0xf8 ≠ 0xf0 :=
    Utf8.forall_byte (by decide +kernel)
  intro rest
  rcases hmask a with ⟨h', ha⟩ | ⟨h', h1, h2⟩ | ⟨h', h1, h2, h3⟩ | ⟨h', h1, h2, h3, h4⟩ | h'
  · rw [h', Option.some.injEq] at h
    obtain ⟨h1, h2, h3, h4⟩ := hascii a ha
    right
    simp [incompleteFrom, hi, h1, h2, h3, h4, ← h]
  · rw [h', Option.some.injEq] at h
    left
    simp [incompleteFrom, hi, h1, h2, ← h]
  · rw [h', Option.some.injEq] at h
    left
    simp [incompleteFrom, hi, h1, h2, h3, ← h]
  · rw [h', Option.some.injEq] at h
    left
    simp [incompleteFrom, hi, h1, h2, h3, h4, ← h]
  · rw [h'] at h
    nomatch h

/-- The loop passes over continuation bytes. -/
theorem incompleteFrom_conts (conts rest : Bytes) (i : Nat) (h : ∀ c ∈ conts, 0x80 ≤ c ∧ c ≤ 0xBF)
    (hi : i + conts.length < 5) : incompleteFrom (conts ++ rest) i = incompleteFrom rest (i + conts.length) := by
  induction conts generalizing i with
  | nil => rfl
  | cons c conts ih =>
    have hc := (cont_mask c).1 (h c (List.mem_cons_self ..))
    simp only [List.length_cons] at hi
    rw [List.cons_append, incompleteFrom, if_pos (by omega), if_pos hc,
      ih (i + 1) (fun x hx => h x (List.mem_cons_of_mem _ hx)) (by omega), List.length_cons]
    congr 1
    omega

/-- A text that is not refused ends between characters exactly when `IncompleteUnicode` says so. -/
theorem incompleteUnicode_iff {t : Bytes} {s : Utf8.State} (h : Utf8.run Utf8.start t = some s) :
    incompleteUnicode t = true ↔ s.owed ≠ 0 := by
  by_cases ht : t = []
  · subst ht
    simp only [Utf8.run, Option.some.injEq] at h
    subst h
    simp [incompleteUnicode, incompleteFrom, Utf8.start]
  · obtain ⟨t', a, conts, s₀, rfl, _, hlead, howed, hconts⟩ := Utf8.run_last h ht
    have hle := Utf8.lead_owed_le hlead
    have hrev : (t' ++ a :: conts).reverse = conts.reverse ++ (a :: t'.reverse) := by simp
    unfold incompleteUnicode
    rw [hrev, incompleteFrom_conts _ _ _ (by simpa using hconts) (by simp only [List.length_reverse]; omega),
      List.length_reverse]
    rcases lead_mask a s₀.owed (by rw [hlead]; rfl) (1 + conts.length) (by omega) t'.reverse with h1 | ⟨h1, h2⟩
    · rw [h1, decide_eq_true_eq]
      omega
    · rw [h2]
      simp
      omega

end Ollama.Runner
