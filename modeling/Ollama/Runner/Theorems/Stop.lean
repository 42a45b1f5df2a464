import Ollama.Runner.Lemmas.Stop

/-!
# Stop sequences and the client

Text goes to the client in chunks, each cut before its first byte that is not part of a valid character. A chunk is
sent only when it ends with no beginning of a stop sequence, so no stop sequence lies across a chunk that has been
sent, and the first one to occur is found while all of it is held back. What is sent then is the text before the stop
sequence that is found.

`TruncateStop` leaves the first pieces of the text before the stop sequence, of which the last is shortened if the
stop sequence begins within a piece.

`FindStop` returns the first stop sequence of the list that occurs. Where that is also the first in the text, and the
text before it is UTF-8 up to an incomplete character at its end, the client gets the text before the stop sequence
without that character, and no stop sequence.
-/

namespace Ollama.Runner

open Lib

/-- The first place where some stop sequence occurs in the text. -/
def Earliest (stops : List Bytes) (text : Bytes) (i : Nat) : Prop :=
  (∃ stop ∈ stops, index stop text = some i) ∧ ∀ stop ∈ stops, ∀ j, index stop text = some j → i ≤ j

/-- The client got the text before the first stop sequence, up to an incomplete character at its end, and no stop
sequence. What is left out is UTF-8 that is not refused, and nothing of it is a whole character. -/
def CutAtStop (stops : List Bytes) (text sent : Bytes) : Prop :=
  (∀ stop ∈ stops, ¬stop <:+: sent) ∧
    ∃ i q, Earliest stops text i ∧ text.take i = sent ++ q ∧ Utf8.run Utf8.start q ≠ none ∧ Utf8.trimValid q = []

/-- The chunks in which the text that is held back and the pieces after it go out while no stop sequence occurs: a
chunk ends with the first piece after which the text neither ends with a beginning of a stop sequence nor within a
character. -/
def chunks (stops : List Bytes) : Bytes → List Bytes → List Bytes
  | _, [] => []
  | held, piece :: pieces =>
    if containsStopSuffix (held ++ piece) stops = true ∨ incompleteUnicode (held ++ piece) = true
      then chunks stops (held ++ piece) pieces
    else (held ++ piece) :: chunks stops [] pieces

namespace StopAux

/-- What holds while no stop sequence has occurred in the text: it is what went out in chunks and what is held back,
and no stop sequence lies across the end of the chunks. -/
structure GenInv (stops : List Bytes) (text : Bytes) (r : Responses) (gone : List Bytes) : Prop where
  text_eq : gone.flatten ++ r.pending.flatten = text
  sent : r.sent.flatten = (gone.map Utf8.trimValid).flatten
  across : ∀ stop ∈ stops, ∀ u v, stop = u ++ v → u ≠ [] → ¬u <:+ gone.flatten
  valid : Utf8.run Utf8.start gone.flatten ≠ none → ∀ c ∈ gone, Utf8.validString c

theorem genInv_start (stops : List Bytes) : GenInv stops [] {} [] :=
  ⟨rfl, rfl, fun _ _ u _ _ hu hs => hu (List.suffix_nil.1 hs), fun _ c hc => by simp at hc⟩

/-- The responses after a flush. -/
theorem flush_sent (r : Responses) :
    (flushPending true r).1.pending = [] ∧
      (flushPending true r).1.sent.flatten = r.sent.flatten ++ Utf8.trimValid r.pending.flatten ∧
      (flushPending true r).2 = true := by
  simp only [flushPending]
  split
  · rename_i h
    rw [List.length_eq_zero_iff.1 h]
    simp
  · simp

/-- A suffix of the chunks with one more that begins a stop sequence. -/
theorem across_concat {stops gone : List Bytes} {c : Bytes}
    (h : ∀ stop ∈ stops, ∀ u v, stop = u ++ v → u ≠ [] → ¬u <:+ gone.flatten)
    (hc : containsStopSuffix c stops = false) :
    ∀ stop ∈ stops, ∀ u v, stop = u ++ v → u ≠ [] → ¬u <:+ (gone ++ [c]).flatten := by
  intro stop hs u v huv hu hsuf
  rw [List.flatten_append, List.flatten_singleton] at hsuf
  obtain ⟨a, ha⟩ := hsuf
  rw [List.append_eq_append_iff] at ha
  rcases ha with ⟨w, hw, hu'⟩ | ⟨w, _, hc'⟩
  · -- it begins in the chunks before
    by_cases hw0 : w = []
    · subst hw0
      rw [List.nil_append] at hu'
      exact not_suffix_of_containsStopSuffix hc hs hu huv (hu' ▸ List.suffix_refl _)
    · exact h stop hs w (c ++ v) (by rw [huv, hu', List.append_assoc]) hw0 ⟨a, hw.symm⟩
  · exact not_suffix_of_containsStopSuffix hc hs hu huv ⟨w, hc'.symm⟩

/-- While no stop sequence occurs, a piece is held back or everything is sent. -/
theorem emit_go {stops : List Bytes} {text : Bytes} {r : Responses} {gone : List Bytes} (h : GenInv stops text r gone)
    (piece : Bytes) (hno : ∀ stop ∈ stops, ¬stop <:+: text ++ piece) :
    (emit true stops r piece).2 = .go ∧
      ∃ gone', GenInv stops (text ++ piece) (emit true stops r piece).1 gone' ∧
        ∀ pieces, gone ++ chunks stops r.pending.flatten (piece :: pieces) =
          gone' ++ chunks stops (emit true stops r piece).1.pending.flatten pieces := by
  have htext : gone.flatten ++ (r.pending ++ [piece]).flatten = text ++ piece := by
    rw [List.flatten_append, List.flatten_singleton, ← List.append_assoc, h.text_eq]
  have hheld : (r.pending ++ [piece]).flatten = r.pending.flatten ++ piece := by
    rw [List.flatten_append, List.flatten_singleton]
  have hfind : findStop (r.pending ++ [piece]).flatten stops = none := by
    rw [findStop_eq_none_iff]
    intro stop hs hin
    exact hno stop hs (htext ▸ hin.trans (List.suffix_append _ _).isInfix)
  unfold emit
  simp only [hfind]
  by_cases hhold : containsStopSuffix (r.pending ++ [piece]).flatten stops = true ∨
      incompleteUnicode (r.pending ++ [piece]).flatten = true
  · rw [if_pos hhold]
    refine ⟨rfl, gone, ⟨htext, h.sent, h.across, h.valid⟩, fun pieces => ?_⟩
    rw [hheld] at hhold
    rw [chunks, if_pos hhold, hheld]
  · rw [if_neg hhold]
    have hchunks : ∀ pieces, chunks stops r.pending.flatten (piece :: pieces) =
        (r.pending ++ [piece]).flatten :: chunks stops [] pieces := fun pieces => by
      rw [hheld] at hhold ⊢
      rw [chunks, if_neg hhold]
    obtain ⟨h1, h2, h3⟩ := flush_sent { r with pending := r.pending ++ [piece] }
    simp only [not_or, Bool.not_eq_true] at hhold
    refine ⟨by simp only [h3, if_true], gone ++ [(r.pending ++ [piece]).flatten],
      ⟨?_, ?_, across_concat h.across hhold.1, ?_⟩,
      fun pieces => ?_⟩
    · simp only [h1]
      rw [List.flatten_append, List.flatten_singleton, List.flatten_nil, List.append_nil, htext]
    · simp only [h2]
      rw [h.sent]
      simp
    · intro hrun c hc
      rw [List.flatten_append, List.flatten_singleton] at hrun
      have hchunks := h.valid (Utf8.run_prefix hrun)
      rcases List.mem_append.1 hc with hc | hc
      · exact hchunks c hc
      · rw [List.mem_singleton] at hc
        subst hc
        rw [Utf8.validString_append (Utf8.validString_flatten hchunks)] at hrun
        obtain ⟨s, hs⟩ := Option.ne_none_iff_exists'.1 hrun
        rw [Utf8.validString_iff hs]
        by_contra howed
        rw [(incompleteUnicode_iff hs).2 howed] at hhold
        nomatch hhold.2
    · simp only [h1, hchunks pieces]
      rw [List.append_assoc, List.singleton_append, List.flatten_nil]

/-- The pieces before a stop sequence occurs. -/
theorem generate_go {stops : List Bytes} {text : Bytes} {r : Responses} {gone : List Bytes}
    (h : GenInv stops text r gone) (pieces rest : List Bytes)
    (hno : ∀ stop ∈ stops, ¬stop <:+: text ++ pieces.flatten) :
    ∃ r', GenInv stops (text ++ pieces.flatten) r' (gone ++ chunks stops r.pending.flatten pieces) ∧
      generate stops (pieces ++ rest) r = generate stops rest r' := by
  induction pieces generalizing text r gone with
  | nil => exact ⟨r, by simpa [chunks] using h, rfl⟩
  | cons piece pieces ih =>
    rw [List.flatten_cons, ← List.append_assoc] at hno ⊢
    have hpiece : ∀ stop ∈ stops, ¬stop <:+: text ++ piece := fun stop hs hin =>
      hno stop hs (hin.trans (List.prefix_append _ _).isInfix)
    obtain ⟨hgo, gone', h', hchunks⟩ := emit_go h piece hpiece
    obtain ⟨r'', h'', heq⟩ := ih h' hno
    refine ⟨r'', by rw [hchunks]; exact h'', ?_⟩
    rw [← heq, List.cons_append, generate]
    split
    · rename_i hemit
      rw [hemit] at hgo
      nomatch hgo
    · rename_i hemit
      rw [hemit]
    · rename_i hemit
      rw [hemit] at hgo
      nomatch hgo

/-- The piece with which a stop sequence occurs: all that is left of what was held back is sent. -/
theorem generate_stop {stops : List Bytes} {text : Bytes} {r : Responses} {gone : List Bytes}
    (h : GenInv stops text r gone) (hno : ∀ stop ∈ stops, ¬stop <:+: text) {last : Bytes} (rest : List Bytes)
    {stop : Bytes} {i : Nat} (hfind : findStop (text ++ last) stops = some stop)
    (hi : index stop (text ++ last) = some i) :
    ∃ held, gone.flatten ++ held = (text ++ last).take i ∧
      (generate stops (last :: rest) r).sent.flatten = (gone.map Utf8.trimValid).flatten ++ Utf8.trimValid held := by
  have htext : gone.flatten ++ (r.pending ++ [last]).flatten = text ++ last := by
    rw [List.flatten_append, List.flatten_singleton, ← List.append_assoc, h.text_eq]
  have hchunks : ∀ s ∈ stops, ¬s <:+: gone.flatten := fun s hs hin =>
    hno s hs (h.text_eq ▸ hin.trans (List.prefix_append _ _).isInfix)
  -- a stop sequence occurs in what is held back exactly when it occurs in the text
  have hindex : ∀ s ∈ stops, index s (text ++ last) =
      (index s (r.pending ++ [last]).flatten).map (gone.flatten.length + ·) := fun s hs =>
    htext ▸ index_append (hchunks s hs) (h.across s hs)
  have hfind' : findStop (r.pending ++ [last]).flatten stops = some stop := by
    rw [← hfind]
    refine List.find?_congr (fun s hs => ?_)
    rw [hindex s hs, Option.isSome_map]
  rw [hindex stop (List.mem_of_find?_eq_some hfind), Option.map_eq_some_iff] at hi
  obtain ⟨k, hk, rfl⟩ := hi
  refine ⟨(r.pending ++ [last]).flatten.take k, ?_, ?_⟩
  · rw [← htext, List.take_length_add_append]
  · unfold generate
    simp only [emit, hfind']
    rw [(flush_sent _).2.1]
    simp only [truncateStop_flatten hk, h.sent]

end StopAux

open StopAux in
/-- The first stop sequence to occur in the generated text ends it. Where `FindStop` finds the one that comes first in
the text, what the client gets is the text before it, chunk by chunk up to the first byte of a chunk that is not part
of a valid character: the chunks that went out before the stop sequence occurred, and what is left of the text. Where
the text before it is UTF-8 up to an incomplete character at its end, it is this text without that character, and
holds no stop sequence. -/
theorem stop_cuts_text (stops : List Bytes) (hne : ∀ stop ∈ stops, stop ≠ []) (pieces rest : List Bytes)
    (last : Bytes) (i : Nat) (hbefore : ∀ stop ∈ stops, ¬stop <:+: pieces.flatten)
    (hi : Earliest stops (pieces.flatten ++ last) i)
    (hfound : ∀ stop, findStop (pieces.flatten ++ last) stops = some stop →
      index stop (pieces.flatten ++ last) = some i) :
    (∃ held, (chunks stops [] pieces).flatten ++ held = (pieces.flatten ++ last).take i ∧
      (generate stops (pieces ++ last :: rest) {}).sent.flatten =
        ((chunks stops [] pieces).map Utf8.trimValid).flatten ++ Utf8.trimValid held) ∧
    (Utf8.run Utf8.start ((pieces.flatten ++ last).take i) ≠ none →
      (generate stops (pieces ++ last :: rest) {}).sent.flatten = Utf8.trimValid ((pieces.flatten ++ last).take i) ∧
      CutAtStop stops (pieces.flatten ++ last) (generate stops (pieces ++ last :: rest) {}).sent.flatten) := by
  obtain ⟨r, hinv, hgen⟩ := generate_go (genInv_start stops) pieces (last :: rest) (by simpa using hbefore)
  rw [List.nil_append] at hinv
  simp only [List.flatten_nil, List.nil_append] at hinv
  rw [hgen]
  obtain ⟨⟨stop₀, hs₀, hi₀⟩, hleast⟩ := hi
  have hsome : (findStop (pieces.flatten ++ last) stops).isSome := by
    unfold findStop
    rw [List.find?_isSome]
    exact ⟨stop₀, hs₀, by rw [hi₀]; rfl⟩
  obtain ⟨stop, hstop⟩ := Option.isSome_iff_exists.1 hsome
  obtain ⟨held, hflat, hsent⟩ := generate_stop hinv hbefore rest hstop (hfound stop hstop)
  refine ⟨⟨held, hflat, hsent⟩, fun hrun => ?_⟩
  generalize hT : (pieces.flatten ++ last).take i = T at hflat hrun ⊢
  -- the chunks before the last are valid, so nothing is lost but at the end
  have hvalid : ∀ x ∈ chunks stops [] pieces, Utf8.validString x := by
    apply hinv.valid
    exact Utf8.run_prefix (hflat ▸ hrun)
  have hcut : (generate stops (last :: rest) r).sent.flatten = Utf8.trimValid T := by
    rw [hsent, ← hflat, Utf8.trimValid_append (Utf8.validString_flatten hvalid)]
    congr 2
    exact (List.map_congr_left fun x hx => Utf8.trimValid_of_valid (hvalid x hx)).trans (List.map_id _)
  rw [hcut]
  obtain ⟨q, hq⟩ := Utf8.trimValid_prefix T
  refine ⟨rfl, fun s hs hin => ?_, i, q, ⟨⟨stop₀, hs₀, hi₀⟩, hleast⟩, hT.trans hq.symm, ?_, ?_⟩
  · -- a stop sequence before the first one
    have hinT : s <:+: T := hin.trans (Utf8.trimValid_prefix T).isInfix
    obtain ⟨a, b, hab⟩ := hinT
    have hpre : s <+: (pieces.flatten ++ last).drop a.length := by
      refine ⟨b ++ (pieces.flatten ++ last).drop i, ?_⟩
      have hsplit : pieces.flatten ++ last = a ++ (s ++ (b ++ (pieces.flatten ++ last).drop i)) := by
        rw [← List.append_assoc s b, ← List.append_assoc a, ← List.append_assoc a, hab, ← hT, List.take_append_drop]
      conv_rhs => rw [hsplit, List.drop_left]
    have hlen : a.length + s.length ≤ i := by
      have := congrArg List.length hab
      simp only [List.length_append] at this
      have hT' := congrArg List.length hT
      rw [List.length_take] at hT'
      omega
    have hpos := List.length_pos_iff.2 (hne s hs)
    obtain ⟨j, hj⟩ :=
      Option.isSome_iff_exists.1 (index_isSome_iff.2 (hpre.isInfix.trans (List.drop_suffix _ _).isInfix))
    have hji := hleast s hs j hj
    exact (index_eq_some_iff.1 hj).2.2 a.length (by omega) hpre
  · rw [← hq, Utf8.validString_append (Utf8.validString_trimValid T)] at hrun
    exact hrun
  · -- a whole character in what is left out would have been kept
    have hkept := Utf8.trimValid_append (Utf8.validString_trimValid T) q
    rw [hq] at hkept
    exact List.self_eq_append_right.1 hkept

/-- The stop sequence "X" after "ab", in two pieces: the client gets "ab". -/
theorem stop_cuts_ab :
    CutAtStop [[0x58]] [0x61, 0x62, 0x58] (generate [[0x58]] [[0x61], [0x62, 0x58]] {}).sent.flatten := by
  refine ((stop_cuts_text [[0x58]] (by decide) [[0x61]] [] [0x62, 0x58] 2 ?_ ⟨⟨[0x58], by decide, by decide⟩, ?_⟩ ?_).2
    (by decide)).2
  · intro stop hs
    rw [List.mem_singleton] at hs
    subst hs
    rw [← index_eq_none_iff]
    decide
  · intro stop hs j hj
    rw [List.mem_singleton] at hs
    subst hs
    have h2 : index [0x58] ([[0x61]].flatten ++ [0x62, 0x58] : Bytes) = some 2 := by decide
    rw [h2, Option.some.injEq] at hj
    omega
  · intro stop hs
    have h2 : findStop ([[0x61]].flatten ++ [0x62, 0x58]) [[0x58]] = some [0x58] := by decide
    rw [h2, Option.some.injEq] at hs
    subst hs
    decide

/-- A byte that is part of no character is dropped with the rest of its chunk: the client of a sequence that generates
the byte `FF` and then "aX" gets "a", which is not a beginning of the text. -/
theorem stop_drops_invalid : ([0x58] : Bytes) <:+: [[0xff], [0x61, 0x58]].flatten ∧
    ¬CutAtStop [[0x58]] [[0xff], [0x61, 0x58]].flatten (generate [[0x58]] [[0xff], [0x61, 0x58]] {}).sent.flatten := by
  constructor
  · exact index_isSome_iff.1 (by decide)
  · rintro ⟨_, i, q, _, htake, _, _⟩
    have hsent : (generate [[0x58]] [[0xff], [0x61, 0x58]] {}).sent.flatten = [0x61] := by decide +kernel
    rw [hsent] at htake
    cases i with
    | zero => simp at htake
    | succ i => simp at htake

/-! ## No stop sequence -/

namespace StopAux

/-- What a flush sends is valid. -/
theorem flush_valid {r : Responses} (h : ∀ c ∈ r.sent, Utf8.validString c) :
    ∀ c ∈ (flushPending true r).1.sent, Utf8.validString c := by
  intro c hc
  simp only [flushPending] at hc
  split at hc
  · exact h c hc
  · rcases List.mem_append.1 hc with hc | hc
    · exact h c hc
    · rw [List.mem_singleton.1 hc]
      exact Utf8.validString_trimValid _

theorem emit_valid {stops : List Bytes} {r : Responses} (h : ∀ c ∈ r.sent, Utf8.validString c) (piece : Bytes) :
    ∀ c ∈ (emit true stops r piece).1.sent, Utf8.validString c := by
  unfold emit
  dsimp only
  split
  · exact h
  · split
    · exact h
    · exact flush_valid h

/-- Every response of a run is valid, whatever the pieces are. -/
theorem generate_valid (stops pieces : List Bytes) {r : Responses} (h : ∀ c ∈ r.sent, Utf8.validString c) :
    ∀ c ∈ (generate stops pieces r).sent, Utf8.validString c := by
  induction pieces generalizing r with
  | nil => exact h
  | cons piece pieces ih =>
    have hemit : ∀ c ∈ (emit true stops r piece).1.sent, Utf8.validString c := emit_valid h piece
    rw [generate]
    split
    · rename_i heq
      rw [heq] at hemit
      exact flush_valid hemit
    · rename_i heq
      rw [heq] at hemit
      exact ih hemit
    · rename_i heq
      rw [heq] at hemit
      exact flush_valid hemit

end StopAux

open StopAux in
/-- A text that is UTF-8 and in which no stop sequence occurs reaches the client whole, in responses that are each
UTF-8, wherever its pieces cut its characters. -/
theorem responses_lossless (stops pieces : List Bytes) (hvalid : Utf8.validString pieces.flatten)
    (hno : ∀ stop ∈ stops, ¬stop <:+: pieces.flatten) :
    (responses stops pieces).flatten = pieces.flatten ∧ ∀ c ∈ responses stops pieces, Utf8.validString c := by
  refine ⟨?_, flush_valid (generate_valid stops pieces (fun c hc => nomatch hc))⟩
  obtain ⟨r, hinv, hgen⟩ := generate_go (genInv_start stops) pieces [] (by simpa using hno)
  rw [List.nil_append, List.nil_append] at hinv
  generalize chunks stops _ pieces = gone at hinv
  rw [List.append_nil] at hgen
  have hrun : Utf8.run Utf8.start pieces.flatten = some Utf8.start := of_decide_eq_true hvalid
  have hsome : Utf8.run Utf8.start (gone.flatten ++ r.pending.flatten) ≠ none := by
    rw [hinv.text_eq, hrun]
    exact Option.some_ne_none _
  have hchunks := hinv.valid (Utf8.run_prefix hsome)
  -- what is held back at the end begins between two characters
  have hpending : Utf8.validString r.pending.flatten := by
    have hrest := Utf8.validString_append (t := r.pending.flatten) (Utf8.validString_flatten hchunks)
    rw [hinv.text_eq, hrun] at hrest
    exact decide_eq_true hrest.symm
  have hsent : (gone.map Utf8.trimValid).flatten = gone.flatten :=
    congrArg List.flatten ((List.map_congr_left fun c hc => Utf8.trimValid_of_valid (hchunks c hc)).trans
      (List.map_id _))
  rw [responses, hgen, generate, (flush_sent r).2.1, hinv.sent, hsent, Utf8.trimValid_of_valid hpending, hinv.text_eq]

/-- The two bytes of a character in two pieces, with a stop sequence that does not occur. -/
theorem responses_lossless_cut : (responses [[0x58]] [[0x61, 0xc2], [0xa3]]).flatten = [0x61, 0xc2, 0xa3] := by
  refine (responses_lossless [[0x58]] [[0x61, 0xc2], [0xa3]] (by decide) ?_).1
  intro stop hs
  rw [List.mem_singleton.1 hs, ← index_eq_none_iff]
  decide

/-- `TruncateStop` leaves the text before the first place of the stop sequence. What is left are the first pieces, of
which only the last may be shortened, and the flag says whether it is. Without the stop sequence the pieces are left
as they are. -/
theorem truncateStop_exact (pieces : List Bytes) (stop : Bytes) :
    (∀ k, index stop pieces.flatten = some k →
      let out := truncateStop pieces stop
      out.1.flatten = pieces.flatten.take k ∧ (out.1 <+: pieces ∨ LastShortened pieces out.1) ∧
        (out.2 = true ↔ LastShortened pieces out.1)) ∧
    (¬stop <:+: pieces.flatten → truncateStop pieces stop = (pieces, false)) := by
  refine ⟨fun k hk => ?_, fun hno => ?_⟩
  · have hflat := truncateStop_flatten hk
    have hle : k ≤ ([] ++ pieces.flatten).length := (index_eq_some_iff.1 hk).1
    rw [truncateStop, hk] at hflat ⊢
    refine ⟨hflat, ?_⟩
    rcases splitPieces_shape [] pieces (Nat.zero_le k) hle with ⟨hflag, hprefix⟩ | ⟨hflag, hcut⟩
    · exact ⟨.inl hprefix, fun htrue => absurd (hflag.symm.trans htrue) Bool.false_ne_true,
        fun hcut => absurd hprefix hcut.not_prefix⟩
    · exact ⟨.inr hcut, fun _ => hcut, fun _ => hflag⟩
  · rw [truncateStop, index_eq_none_iff.2 hno]

end Ollama.Runner
