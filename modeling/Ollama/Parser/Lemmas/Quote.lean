import Ollama.Parser.Modelfile

/-!
# Quoted arguments

What `unquote` makes of a text, and where a value ends: at a line break before which the text, without the blanks
around it, is not the beginning of a quoted one (`Open` says that no line break of a text is such). The argument of a
command is read back from the quotes around it because none that was ever read has a line break after three quotes and
blanks (`Unbroken`).
-/

namespace Ollama.Parser

open Lib

/-- The triple quote as a list of a quote and the rest. -/
theorem mem_tripleQuote {r : Char} (h : r ∈ tripleQuote) : r = '"' := by
  rcases List.mem_cons.1 h with h | h
  · exact h
  · rcases List.mem_cons.1 h with h | h
    · exact h
    · exact List.mem_singleton.1 h

/-! ## `unquote` -/

/-- The text between two equal ends, in the source's words. -/
theorem drop_take_quoted (q s : List Char) :
    ((q ++ (s ++ q)).take ((q ++ (s ++ q)).length - q.length)).drop q.length = s := by
  have hlen : (q ++ (s ++ q)).length - q.length = (q ++ s).length := by
    simp only [List.length_append]
    omega
  rw [hlen, ← List.append_assoc, List.take_left' rfl, List.drop_left' rfl]

/-- A text that begins and ends with `q`, in this order, has something between. -/
theorem eq_quoted {q t : List Char} (hpre : q <+: t) (hlen : 2 * q.length ≤ t.length)
    (hsuf : t.drop (t.length - q.length) = q) :
    ∃ s, t = q ++ (s ++ q) := by
  obtain ⟨x, rfl⟩ := hpre
  rw [List.length_append] at hlen hsuf
  have hdrop : q.length + x.length - q.length = q.length + (x.length - q.length) := by omega
  have hnil : q.drop (q.length + (x.length - q.length)) = [] := List.drop_eq_nil_of_le (Nat.le_add_right ..)
  rw [hdrop, List.drop_append, hnil, List.nil_append, Nat.add_sub_cancel_left] at hsuf
  refine ⟨x.take (x.length - q.length), congrArg (q ++ ·) ?_⟩
  calc x = x.take (x.length - q.length) ++ x.drop (x.length - q.length) := (List.take_append_drop _ x).symm
    _ = x.take (x.length - q.length) ++ q := by rw [hsuf]

/-- `unquote` takes triple quotes away. -/
theorem unquote_triple (s : List Char) : unquote (tripleQuote ++ (s ++ tripleQuote)) = some s := by
  have hdrop := drop_take_quoted tripleQuote s
  have hlen : (tripleQuote ++ (s ++ tripleQuote)).length = s.length + 6 := by
    simp only [List.length_append, tripleQuote, List.length_cons, List.length_nil]
    omega
  have hsuf : (tripleQuote ++ (s ++ tripleQuote)).drop (s.length + 6 - 3) = tripleQuote := by
    rw [← List.append_assoc]
    exact List.drop_left' (by simp [tripleQuote])
  unfold unquote
  rw [if_pos ⟨by omega, rfl⟩, hlen, if_pos ⟨by omega, hsuf⟩]
  rw [hlen] at hdrop
  exact congrArg some hdrop

/-- `unquote` takes single quotes away, where they are not three at the beginning. -/
theorem unquote_single {s : List Char} (h : ¬tripleQuote <+: '"' :: (s ++ ['"'])) :
    unquote ('"' :: (s ++ ['"'])) = some s := by
  have hdrop := drop_take_quoted ['"'] s
  have hno : ¬(3 ≤ ('"' :: (s ++ ['"'])).length ∧ ('"' :: (s ++ ['"'])).take 3 = tripleQuote) := by
    rintro ⟨-, htake⟩
    exact h (htake ▸ List.take_prefix 3 _)
  have hlast : ('"' :: (s ++ ['"'])).getLast? = some '"' := by
    rw [← List.cons_append, List.getLast?_concat]
  unfold unquote
  rw [if_neg hno, if_pos List.head?_cons, if_pos ⟨by simp, hlast⟩]
  exact congrArg some hdrop

/-- `unquote` leaves a text that does not begin with a quote. -/
theorem unquote_bare {s : List Char} (h : s.head? ≠ some '"') : unquote s = some s := by
  have hno : ¬(3 ≤ s.length ∧ s.take 3 = tripleQuote) := by
    rintro ⟨-, htake⟩
    have hpre : tripleQuote <+: s := htake ▸ List.take_prefix 3 s
    obtain ⟨x, rfl⟩ := hpre
    exact h rfl
  unfold unquote
  rw [if_neg hno, if_neg h]

/-- What `unquote` gives: the text in triple quotes, the text in quotes, or the text. -/
theorem unquote_cases {t s : List Char} (h : unquote t = some s) :
    t = tripleQuote ++ (s ++ tripleQuote) ∨ (¬tripleQuote <+: t ∧ t = '"' :: (s ++ ['"'])) ∨
      (t.head? ≠ some '"' ∧ t = s) := by
  by_cases hpre : tripleQuote <+: t
  · left
    have hyes : 3 ≤ t.length ∧ t.take 3 = tripleQuote := ⟨hpre.length_le, (List.prefix_iff_eq_take.1 hpre).symm⟩
    by_cases hsuf : 6 ≤ t.length ∧ t.drop (t.length - 3) = tripleQuote
    · obtain ⟨s', hs'⟩ := eq_quoted hpre hsuf.1 hsuf.2
      rw [hs', unquote_triple] at h
      rw [hs', Option.some.inj h]
    · rw [unquote, if_pos hyes, if_neg hsuf] at h
      exact absurd h.symm (Option.some_ne_none s)
  · right
    have hno : ¬(3 ≤ t.length ∧ t.take 3 = tripleQuote) := fun hyes => hpre (hyes.2 ▸ List.take_prefix 3 t)
    by_cases hhead : t.head? = some '"'
    · left
      refine ⟨hpre, ?_⟩
      obtain ⟨x, hx⟩ := List.head?_eq_some_iff.1 hhead
      by_cases hsuf : 2 ≤ t.length ∧ t.getLast? = some '"'
      · obtain ⟨y, hy⟩ := List.getLast?_eq_some_iff.1 hsuf.2
        have hdrop : t.drop (t.length - 1) = ['"'] := by
          rw [hy]
          exact List.drop_left' (by simp)
        obtain ⟨s', hs'⟩ := eq_quoted (q := ['"']) ⟨x, hx.symm⟩ hsuf.1 hdrop
        rw [List.singleton_append] at hs'
        rw [hs', unquote_single (hs' ▸ hpre)] at h
        rw [hs', Option.some.inj h]
      · rw [unquote, if_neg hno, if_pos hhead, if_neg hsuf] at h
        exact absurd h.symm (Option.some_ne_none s)
    · right
      rw [unquote_bare hhead] at h
      exact ⟨hhead, Option.some.inj h⟩

/-- Only a text that begins with a quote is the beginning of a quoted one. -/
theorem head?_of_unquote_none {t : List Char} (h : unquote t = none) : t.head? = some '"' := by
  by_contra hhead
  rw [unquote_bare hhead] at h
  exact Option.some_ne_none t h

/-! ## Where a value ends -/

/-- No line break of a text is one at which a value ends. -/
def Open (v : List Char) : Prop := ∀ u nl w, v = u ++ nl :: w → isNewline nl = true → unquote (trimSpace u) = none

/-- No line break of a text is one after three quotes and blanks. -/
def Unbroken (s : List Char) : Prop :=
  ∀ u ws nl w, s = u ++ (tripleQuote ++ (ws ++ nl :: w)) → (∀ r ∈ ws, unicodeIsSpace r = true) → isNewline nl = false

/-- A text that is read back without quotes around it: it has no line break, begins with no quote and has no blank at
an end. -/
structure Plain (s : List Char) : Prop where
  line : ∀ r ∈ s, isNewline r = false
  bare : s.head? ≠ some '"'
  first : ∀ r, s.head? = some r → isSpace r = false
  last : ∀ r, s.getLast? = some r → isSpace r = false

/-- A text around which `quote` puts quotes. -/
def NeedsQuotes (s : List Char) : Prop := '\n' ∈ s ∨ s.head? = some ' ' ∨ s.getLast? = some ' '

/-- A rune that gets into the buffer of a value. -/
def Kept (T : PrintTable) (r : Char) : Prop := isSpace r = true ∨ isNewline r = true ∨ T.isPrint r = true

/-- `isSpace` holds of blanks. -/
theorem blank_of_isSpace {r : Char} (h : isSpace r = true) : unicodeIsSpace r = true := by
  unfold isSpace at h
  rw [Bool.or_eq_true, beq_iff_eq, beq_iff_eq] at h
  rcases h with rfl | rfl
  · rfl
  · rfl

/-- `isNewline` holds of the two line breaks. -/
theorem newline_cases {r : Char} (h : isNewline r = true) : r = '\r' ∨ r = '\n' := by
  unfold isNewline at h
  rw [Bool.or_eq_true, beq_iff_eq, beq_iff_eq] at h
  exact h

/-- A quote is no line break. -/
theorem isNewline_of_mem_tripleQuote {r : Char} (h : r ∈ tripleQuote) : isNewline r = false := by
  rw [mem_tripleQuote h]
  rfl

/-- The blanks that get into the buffer of a value. -/
theorem space_or_newline {T : PrintTable} {r : Char} (hk : Kept T r) (hb : unicodeIsSpace r = true) :
    isSpace r = true ∨ isNewline r = true := by
  rcases hk with h | h | h
  · exact Or.inl h
  · exact Or.inr h
  · by_cases hr : r = ' '
    · left
      rw [hr]
      rfl
    · rw [T.blank r hb hr] at h
      exact absurd h Bool.false_ne_true

/-- A text between quotes has nothing to trim. -/
theorem tight_of_quotes {t : List Char} (hfirst : t.head? = some '"') (hlast : t.getLast? = some '"') :
    Tight unicodeIsSpace t := by
  constructor
  · intro c hc
    rw [hfirst] at hc
    rw [← Option.some.inj hc]
    rfl
  · intro c hc
    rw [hlast] at hc
    rw [← Option.some.inj hc]
    rfl

/-- A text in triple quotes has nothing to trim. -/
theorem tight_triple (s : List Char) : Tight unicodeIsSpace (tripleQuote ++ (s ++ tripleQuote)) := by
  refine tight_of_quotes rfl ?_
  have hsplit : tripleQuote ++ (s ++ tripleQuote) = (tripleQuote ++ s ++ ['"', '"']) ++ ['"'] := by simp [tripleQuote]
  rw [hsplit, List.getLast?_concat]

/-- A text in quotes has nothing to trim. -/
theorem tight_single (s : List Char) : Tight unicodeIsSpace ('"' :: (s ++ ['"'])) := by
  refine tight_of_quotes rfl ?_
  rw [← List.cons_append, List.getLast?_concat]

/-- A plain text has nothing to trim. -/
theorem tight_of_plain {T : PrintTable} {s : List Char} (hk : ∀ r ∈ s, Kept T r) (h : Plain s) :
    Tight unicodeIsSpace s := by
  have hend : ∀ r ∈ s, isSpace r = false → unicodeIsSpace r = false := by
    intro r hr hspace
    by_contra hblank
    rcases space_or_newline (hk r hr) (Bool.not_eq_false _ ▸ hblank) with h' | h'
    · rw [hspace] at h'
      exact Bool.false_ne_true h'
    · rw [h.line r hr] at h'
      exact Bool.false_ne_true h'
  exact ⟨fun r hr => hend r (List.mem_of_head? hr) (h.first r hr),
    fun r hr => hend r (List.mem_of_getLast? hr) (h.last r hr)⟩

/-- What is read as the argument of a command has no line break after three quotes and blanks: the value would have
ended there. -/
theorem unbroken_of_open {b s : List Char} (hb : Open b) (h : unquote (trimSpace b) = some s) : Unbroken s := by
  intro u ws nl w hs hws
  by_contra hnl
  rw [Bool.not_eq_false] at hnl
  obtain ⟨l, r, hsplit, hl, -⟩ := exists_trim unicodeIsSpace b
  change b = l ++ (trimSpace b ++ r) at hsplit
  rcases unquote_cases h with ht | ⟨hno, ht⟩ | ⟨hhead, ht⟩
  · have hopen := hb (l ++ ((tripleQuote ++ (u ++ tripleQuote)) ++ ws)) nl (w ++ tripleQuote ++ r)
      (by rw [hsplit, ht, hs]; simp) hnl
    have htrim : trimSpace (l ++ ((tripleQuote ++ (u ++ tripleQuote)) ++ ws)) = tripleQuote ++ (u ++ tripleQuote) :=
      trim_eq rfl hl hws (tight_triple u)
    rw [htrim, unquote_triple] at hopen
    exact Option.some_ne_none u hopen
  · have hquotes : '"' :: (u ++ tripleQuote) = '"' :: ((u ++ ['"', '"']) ++ ['"']) := by simp [tripleQuote]
    have hopen := hb (l ++ (('"' :: (u ++ tripleQuote)) ++ ws)) nl (w ++ ['"'] ++ r) (by rw [hsplit, ht, hs]; simp) hnl
    have htrim : trimSpace (l ++ (('"' :: (u ++ tripleQuote)) ++ ws)) = '"' :: (u ++ tripleQuote) :=
      trim_eq rfl hl hws (hquotes ▸ tight_single _)
    have hpre : '"' :: (u ++ tripleQuote) <+: trimSpace b := ⟨ws ++ nl :: w ++ ['"'], by rw [ht, hs]; simp⟩
    rw [htrim, hquotes, unquote_single (hquotes ▸ fun hq => hno (hq.trans hpre))] at hopen
    exact Option.some_ne_none _ hopen
  · have hopen := hb (l ++ ((u ++ tripleQuote) ++ ws)) nl (w ++ r) (by rw [hsplit, ht, hs]; simp) hnl
    refine hhead ?_
    have hb' : b = (l ++ ((u ++ tripleQuote) ++ ws)) ++ (nl :: w ++ r) := by
      rw [hsplit, ht, hs]
      simp
    rw [hb']
    exact head?_trim_append (head?_of_unquote_none hopen)

/-! ## What is read back -/

/-- A text that begins with a quote is trimmed to one. -/
theorem head?_trimSpace (u : List Char) : (trimSpace ('"' :: u)).head? = some '"' := by
  rw [trimSpace, head?_trim]
  rfl

/-- No value ends within a text in quotes that has none of its own. -/
theorem open_single {s : List Char} (hs : '"' ∉ s) : Open ('"' :: (s ++ ['"'])) := by
  intro u nl w h hnl
  by_contra hne
  obtain ⟨s', hs'⟩ := Option.ne_none_iff_exists'.1 hne
  have hquote : nl ∉ ['"'] := by
    intro hmem
    rw [List.mem_singleton.1 hmem] at hnl
    exact Bool.false_ne_true hnl
  obtain ⟨u', rfl, hrest⟩ := split_right (q := ['"']) h hquote
  obtain ⟨w', rfl⟩ := split_left hrest hquote
  have hone : (['"'] ++ u').count '"' = 1 := by
    have hu : '"' ∉ u' := fun hmem => hs (List.mem_append_left _ hmem)
    rw [List.count_append, List.count_eq_zero_of_not_mem hu, List.count_singleton_self]
  obtain ⟨l, r, hsplit, -, -⟩ := exists_trim unicodeIsSpace (['"'] ++ u')
  change ['"'] ++ u' = l ++ (trimSpace (['"'] ++ u') ++ r) at hsplit
  have hle : (trimSpace (['"'] ++ u')).count '"' ≤ 1 := by
    rw [hsplit, List.count_append, List.count_append] at hone
    omega
  rcases unquote_cases hs' with ht | ⟨-, ht⟩ | ⟨hhead, -⟩
  · rw [ht] at hle
    simp [tripleQuote] at hle
  · rw [ht] at hle
    simp at hle
  · exact hhead (head?_trimSpace u')

/-- No value ends within a text in triple quotes that has no line break after three quotes and blanks. -/
theorem open_triple {s : List Char} (hs : Unbroken s) : Open (tripleQuote ++ (s ++ tripleQuote)) := by
  intro u nl w h hnl
  by_contra hne
  obtain ⟨s', hs'⟩ := Option.ne_none_iff_exists'.1 hne
  have hquote : nl ∉ tripleQuote := fun hmem => Bool.false_ne_true (isNewline_of_mem_tripleQuote hmem ▸ hnl)
  obtain ⟨u', rfl, hrest⟩ := split_right h hquote
  obtain ⟨w', hw'⟩ := split_left hrest hquote
  obtain ⟨l, r, hsplit, hl, hr⟩ := exists_trim unicodeIsSpace (tripleQuote ++ u')
  change tripleQuote ++ u' = l ++ (trimSpace (tripleQuote ++ u') ++ r) at hsplit
  have hl' : l = [] := by
    rcases l with _ | ⟨c, l⟩
    · rfl
    · have hc := hl c (List.mem_cons_self ..)
      rw [← (List.cons.inj hsplit).1] at hc
      exact absurd hc (by decide)
  rw [hl', List.nil_append] at hsplit
  rcases unquote_cases hs' with ht | ⟨hno, ht⟩ | ⟨hhead, -⟩
  · -- the value would end after three quotes and blanks
    rw [ht, List.append_assoc, List.append_assoc] at hsplit
    have hu := List.append_cancel_left hsplit
    have hnot := hs s' r nl w' (by rw [hw', hu]; simp) hr
    rw [hnl] at hnot
    exact Bool.false_ne_true hnot.symm
  · rcases List.append_eq_append_iff.1 hsplit with ⟨v, hv, -⟩ | ⟨v, hv, hv'⟩
    · exact hno ⟨v, hv.symm⟩
    · rcases v with _ | ⟨c, v⟩
      · rw [List.append_nil] at hv
        exact hno (hv ▸ List.prefix_refl _)
      · have hc : c = '"' := mem_tripleQuote (hv ▸ List.mem_append_right _ (List.mem_cons_self ..))
        have hblank := hr c (hv' ▸ List.mem_append_left _ (List.mem_cons_self ..))
        rw [hc] at hblank
        exact absurd hblank (by decide)
  · exact hhead (head?_trimSpace _)

/-- A text that `quote` puts quotes around is read back. -/
theorem quote_reads {s : List Char} (hq : NeedsQuotes s) (hs : Unbroken s) :
    Open (quote s) ∧ unquote (trimSpace (quote s)) = some s := by
  unfold NeedsQuotes at hq
  unfold quote
  rw [if_pos hq]
  by_cases hmem : '"' ∈ s
  · rw [if_pos hmem, trimSpace, trim_of_tight (tight_triple s)]
    exact ⟨open_triple hs, unquote_triple s⟩
  · rw [if_neg hmem, List.singleton_append, trimSpace, trim_of_tight (tight_single s)]
    refine ⟨open_single hmem, unquote_single ?_⟩
    rintro ⟨x, hx⟩
    rcases s with _ | ⟨c, s⟩
    · rcases hq with hq | hq | hq
      · exact List.not_mem_nil hq
      · exact Option.some_ne_none _ hq.symm
      · exact Option.some_ne_none _ hq.symm
    · have hc := (List.cons.inj (List.cons.inj hx).2).1
      exact hmem (hc ▸ List.mem_cons_self ..)

/-- A plain text is read back as it is. -/
theorem plain_reads {T : PrintTable} {s : List Char} (hk : ∀ r ∈ s, Kept T r) (h : Plain s) :
    Open s ∧ unquote (trimSpace s) = some s := by
  constructor
  · intro u nl w hs hnl
    have hnot := h.line nl (hs ▸ List.mem_append_right u (List.mem_cons_self ..))
    rw [hnl] at hnot
    exact absurd hnot.symm Bool.false_ne_true
  · rw [trimSpace, trim_of_tight (tight_of_plain hk h)]
    exact unquote_bare h.bare

/-- A text that is written without quotes and read back is plain: `v` is what is read of it and of what follows it. -/
theorem plain_of_reads {s rest v w : List Char} (hsplit : s ++ '\n' :: rest = v ++ w) (hv : Open v)
    (h : unquote (trimSpace v) = some s) : Plain s := by
  obtain ⟨l, r, htrim, hl, -⟩ := exists_trim unicodeIsSpace v
  change v = l ++ (trimSpace v ++ r) at htrim
  -- between quotes, the text would be there again further on, and its line break would be one of the blanks before
  -- the quotes
  have hquoted : ∀ q, trimSpace v = q ++ (s ++ q) → q ≠ [] → (∀ c ∈ q, c = '"') → False := by
    intro q ht hq hall
    have hmem : '\n' ∈ l ++ q := by
      refine mem_of_shifted (s := s) (x := rest) (y := q ++ r ++ w) (by simp [hq]) ?_
      rw [hsplit, htrim, ht]
      simp
    rcases List.mem_append.1 hmem with hmem | hmem
    · obtain ⟨l₁, l₂, rfl⟩ := List.append_of_mem hmem
      have hopen := hv l₁ '\n' (l₂ ++ (trimSpace v ++ r)) (htrim.trans (by simp)) rfl
      have hnil : trimSpace l₁ = [] :=
        trim_eq (l := l₁) (t := []) (r := []) (by simp) (fun c hc => hl c (List.mem_append_left _ hc)) nofun tight_nil
      rw [hnil] at hopen
      exact Option.some_ne_none _ hopen
    · exact absurd (hall _ hmem) (by decide)
  rcases unquote_cases h with ht | ⟨-, ht⟩ | ⟨hhead, ht⟩
  · exact absurd (hquoted tripleQuote ht (by decide) (fun c hc => mem_tripleQuote hc)) id
  · exact absurd (hquoted ['"'] ht (by decide) (fun c hc => List.mem_singleton.1 hc)) id
  · have hline : ∀ c ∈ v, isNewline c = false := by
      intro c hc
      by_contra hnl
      obtain ⟨v₁, v₂, hv₁⟩ := List.append_of_mem hc
      have hopen := hv v₁ c v₂ hv₁ (Bool.not_eq_false _ ▸ hnl)
      refine hhead ?_
      rw [hv₁]
      exact head?_trim_append (head?_of_unquote_none hopen)
    have hvs : v = s := by
      rcases List.append_eq_append_iff.1 hsplit with ⟨x, hx, hx'⟩ | ⟨x, hx, hx'⟩
      · rcases x with _ | ⟨c, x⟩
        · rw [hx, List.append_nil]
        · have hc := hline c (hx ▸ List.mem_append_right s (List.mem_cons_self ..))
          rw [← (List.cons.inj hx').1] at hc
          exact absurd hc (by decide)
      · have hlen := congrArg List.length htrim
        have hlen' := congrArg List.length hx
        rw [ht, List.length_append, List.length_append] at hlen
        rw [List.length_append] at hlen'
        have hx0 : x = [] := List.eq_nil_of_length_eq_zero (by omega)
        rw [hx, hx0, List.append_nil]
    have htight := tight_trim unicodeIsSpace v
    change Tight unicodeIsSpace (trimSpace v) at htight
    have hspace : ∀ c, unicodeIsSpace c = false → isSpace c = false := by
      intro c hc
      by_contra hspace
      rw [blank_of_isSpace (Bool.not_eq_false _ ▸ hspace)] at hc
      exact Bool.false_ne_true hc.symm
    rw [ht] at htight hhead
    exact ⟨hvs ▸ hline, hhead, fun c hc => hspace c (htight.1 c hc), fun c hc => hspace c (htight.2 c hc)⟩

end Ollama.Parser
