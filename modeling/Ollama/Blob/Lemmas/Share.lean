import Ollama.Blob.Theorems.Puts

/-!
# Calls that share a file, and all return nil

A call of `Put` that writes something other than a content with the digest, of the size it was given, does not return
nil. So while no call for a digest is doomed, those that write all deliver one content, and the file is a part of it:
when all of them have returned nil, the file is that content (`Share.Kept.stored`). The calls take their steps in any
order, and no two contents have the digest.
-/

namespace Ollama.Blob

open Lib Utf8

/-- No two contents have the digest. -/
def NoCollision (sha : Bytes → Digest) (d : Digest) : Prop := ∀ x y, sha x = d → sha y = d → x = y

namespace Share

variable {sha : Bytes → Digest} {d : Digest}

/-! ## One call -/

/-- What a call has hashed is what it has read, and all of it has the digest. -/
def Hashed (sha : Bytes → Digest) (d : Digest) (call : PutCall) : Prop :=
  match call.state with
  | .copy n h reads => h.length = n ∧ h ++ reads.flatten = call.file.reads.flatten ∧ (n : Int) ≤ call.size ∧
      ((n : Int) = call.size → sha h = d)
  | .close => ∃ content, sha content = d ∧ call.Delivers content
  | _ => True

/-- The call has failed, or writes what has not the digest. -/
def Doomed (sha : Bytes → Digest) (d : Digest) (call : PutCall) : Prop :=
  (call.Writing ∧ ∀ content, sha content = d → ¬call.Delivers content) ∨ ∃ err, call.state = .returned (some err)

theorem next_hashed {call : PutCall} (hpos : 0 < call.size) (h : Hashed sha d call) {file file' : Option Bytes}
    {state : PutState} (hstep : call.next sha d file = some (file', state)) : Hashed sha d { call with state } := by
  obtain ⟨r, size, st⟩ := call
  dsimp only at hpos
  cases st with
  | stat =>
    obtain ⟨_, ⟨_, _, _, rfl⟩ | ⟨_, rfl⟩⟩ := PutsAux.next_stat rfl hstep <;> trivial
  | openFile trunc =>
    have hsize : ¬size = 0 := by omega
    simp only [PutCall.next, if_neg hsize, Option.some.injEq, Prod.mk.injEq] at hstep
    obtain ⟨_, rfl⟩ := hstep
    refine ⟨rfl, rfl, by simpa using hpos.le, fun hzero => ?_⟩
    dsimp only at hzero
    omega
  | copy n hashed reads =>
    obtain ⟨hn, hflat, hle, hsum⟩ := h
    cases reads with
    | nil =>
      simp only [PutCall.next, Option.some.injEq, Prod.mk.injEq] at hstep
      obtain ⟨_, rfl⟩ := hstep
      unfold PutCall.copied Hashed
      dsimp only at hle hsum hflat ⊢
      rw [List.flatten_nil, List.append_nil] at hflat
      by_cases hfails : r.fails
      · rw [if_pos hfails]
        trivial
      · rw [if_neg hfails]
        by_cases hlt : (n : Int) < size
        · rw [if_pos hlt]
          trivial
        · rw [if_neg hlt]
          have hfull : (n : Int) = size := by omega
          refine ⟨hashed, hsum hfull, hflat.symm, Bool.not_eq_true _ ▸ hfails, ?_⟩
          rw [← hn] at hfull
          exact hfull.symm
    | cons p reads =>
      simp only [PutCall.next] at hstep
      rw [List.flatten_cons] at hflat
      split at hstep
      · rename_i hp
        obtain ⟨_, rfl⟩ := Prod.mk.inj (Option.some.inj hstep)
        rw [hp, List.nil_append] at hflat
        exact ⟨hn, hflat, hle, hsum⟩
      · rcases PutsAux.write_cases sha d size ⟨n, hashed, file.getD []⟩ p with ⟨_, _, hw⟩ | ⟨_, hw⟩ | ⟨hle', hsum', hw⟩
        · rw [hw] at hstep
          obtain ⟨_, rfl⟩ := Prod.mk.inj (Option.some.inj hstep)
          trivial
        · rw [hw] at hstep
          obtain ⟨_, rfl⟩ := Prod.mk.inj (Option.some.inj hstep)
          trivial
        · rw [hw] at hstep
          obtain ⟨_, rfl⟩ := Prod.mk.inj (Option.some.inj hstep)
          refine ⟨?_, ?_, ?_, ?_⟩
          · rw [List.length_append, hn]
          · rw [List.append_assoc]
            exact hflat
          · push_cast
            exact hle'
          · push_cast
            exact hsum'
  | truncate err =>
    simp only [PutCall.next, Option.some.injEq, Prod.mk.injEq] at hstep
    obtain ⟨_, rfl⟩ := hstep
    trivial
  | close =>
    simp only [PutCall.next, Option.some.injEq, Prod.mk.injEq] at hstep
    obtain ⟨_, rfl⟩ := hstep
    trivial
  | returned err => cases hstep

/-- A call that writes goes on writing, or returns an error, or has delivered a content with the digest. -/
theorem next_writing {call : PutCall} (hpos : 0 < call.size) (h : Hashed sha d call) (hw : call.Writing)
    {file file' : Option Bytes} {state : PutState} (hstep : call.next sha d file = some (file', state)) :
    PutCall.Writing { call with state } ∨ (∃ err, state = .returned (some err)) ∨ ∃ content, sha content = d ∧
      call.Delivers content := by
  obtain ⟨r, size, st⟩ := call
  dsimp only at hpos
  cases st with
  | stat => exact hw.elim
  | returned err => exact hw.elim
  | openFile trunc =>
    have hsize : ¬size = 0 := by omega
    simp only [PutCall.next, if_neg hsize, Option.some.injEq, Prod.mk.injEq] at hstep
    obtain ⟨_, rfl⟩ := hstep
    exact .inl trivial
  | copy n hashed reads =>
    cases reads with
    | nil =>
      simp only [PutCall.next, Option.some.injEq, Prod.mk.injEq] at hstep
      obtain ⟨_, rfl⟩ := hstep
      left
      unfold PutCall.copied
      dsimp only
      by_cases hfails : r.fails
      · rw [if_pos hfails]
        trivial
      · rw [if_neg hfails]
        by_cases hlt : (n : Int) < size
        · rw [if_pos hlt]
          trivial
        · rw [if_neg hlt]
          trivial
    | cons p reads =>
      simp only [PutCall.next] at hstep
      split at hstep
      · obtain ⟨_, rfl⟩ := Prod.mk.inj (Option.some.inj hstep)
        exact .inl trivial
      · rcases hwrite : CheckWriter.write sha d size ⟨n, hashed, file.getD []⟩ p with ⟨w, _ |
          err⟩ <;> rw [hwrite] at hstep <;>
          obtain ⟨_, rfl⟩ := Prod.mk.inj (Option.some.inj hstep) <;> exact .inl trivial
  | truncate err =>
    simp only [PutCall.next, Option.some.injEq, Prod.mk.injEq] at hstep
    obtain ⟨_, rfl⟩ := hstep
    exact .inr (.inl ⟨err, rfl⟩)
  | close => exact .inr (.inr h)

theorem next_doomed {call : PutCall} (hpos : 0 < call.size) (h : Hashed sha d call) (hd : Doomed sha d call)
    {file file' : Option Bytes} {state : PutState} (hstep : call.next sha d file = some (file', state)) :
    Doomed sha d { call with state } := by
  rcases hd with ⟨hw, hno⟩ | ⟨err, hret⟩
  · rcases next_writing hpos h hw hstep with hw' | ⟨err, rfl⟩ | ⟨content, hdigest, hdelivers⟩
    · refine .inl ⟨hw', fun content hdigest hdelivers => hno content hdigest ?_⟩
      exact ⟨hdelivers.reads, hdelivers.fails, hdelivers.size⟩
    · exact .inr ⟨err, rfl⟩
    · exact absurd hdelivers (hno content hdigest)
  · unfold PutCall.next at hstep
    rw [hret] at hstep
    nomatch hstep

/-- A step leaves no file only where there was none. -/
theorem next_none {call : PutCall} {file : Option Bytes} {state : PutState}
    (hstep : call.next sha d file = some (none, state)) :
    file = none := by
  obtain ⟨r, size, st⟩ := call
  cases st with
  | stat => exact (PutsAux.next_stat rfl hstep).1.symm
  | copy n hashed reads =>
    cases reads with
    | nil =>
      simp only [PutCall.next, Option.some.injEq, Prod.mk.injEq] at hstep
      exact hstep.1
    | cons p reads =>
      simp only [PutCall.next] at hstep
      split at hstep
      · exact (Prod.mk.inj (Option.some.inj hstep)).1
      · rcases hwrite : CheckWriter.write sha d size ⟨n, hashed, file.getD []⟩ p with ⟨w, _ |
          err⟩ <;> rw [hwrite] at hstep
        · cases hstep
        · exact (Prod.mk.inj (Option.some.inj hstep)).1
  | close =>
    simp only [PutCall.next, Option.some.injEq, Prod.mk.injEq] at hstep
    exact hstep.1
  | openFile trunc => cases hstep
  | truncate err => cases hstep
  | returned err => cases hstep

end Share

/-! ## The calls for one digest -/

/-- The calls of `Put` for a digest, whether its file was found without one, and the file. -/
structure Share where
  calls : Set PutCall
  found : Prop
  file : Option Bytes

namespace Share

variable {sha : Bytes → Digest} {d : Digest} {size : Int}

/-- What can happen to them: the file is found with its size, a call begins, or a call takes its next file step. -/
inductive Step (sha : Bytes → Digest) (d : Digest) (size : Int) (s : Share) : Share → Prop
  | find {f : Bytes} (hfile : s.file = some f) (hlen : (f.length : Int) = size) (hne : f ≠ []) :
      Step sha d size s { s with found := True }
  | put (r : Reader) : Step sha d size s { s with calls := insert ⟨r, size, .stat⟩ s.calls }
  | next {call : PutCall} {file : Option Bytes} {state : PutState} {calls : Set PutCall} (hmem : call ∈ s.calls)
      (hnext : call.next sha d s.file = some (file, state)) (hafter : ∀ other ∈ calls, other ∈ s.calls ∨
        other = { call with state })
      (hbefore : ∀ other ∈ s.calls, other ∈ calls ∨ other = call) (hself : { call with state } ∈ calls) :
      Step sha d size s { s with calls, file }

/-- The calls that write deliver the content, and the file has a part of it. -/
structure Grouped (s : Share) (content : Bytes) : Prop where
  delivers : ∀ call ∈ s.calls, call.Writing → call.Delivers content
  at_ : ∀ call ∈ s.calls, PutsAux.With content s.file call.state
  file : ∀ f, s.file = some f → f <+: content
  found : s.found → s.file = some content

/-- No content of the size has the digest, and no call has found or written a file of that size. -/
structure Missing (sha : Bytes → Digest) (d : Digest) (size : Int) (s : Share) : Prop where
  none : ∀ content, sha content = d → (content.length : Int) ≠ size
  at_ : ∀ call ∈ s.calls, call.state = .stat
  file : ∀ f, s.file = some f → (f.length : Int) ≠ size
  found : ¬s.found

/-- What the calls and the file are like where the size is not zero. -/
structure Written (sha : Bytes → Digest) (d : Digest) (size : Int) (s : Share) : Prop where
  sizes : ∀ call ∈ s.calls, call.size = size
  hashed : ∀ call ∈ s.calls, Hashed sha d call
  file : (∃ call ∈ s.calls, Doomed sha d call) ∨
    (∃ content, sha content = d ∧ (content.length : Int) = size ∧ Grouped s content) ∨ Missing sha d size s

/-- What the calls and the file are like where the size is zero. -/
structure Blank (s : Share) : Prop where
  sizes : ∀ call ∈ s.calls, call.size = 0
  at_ : ∀ call ∈ s.calls, call.state = .stat ∨ (∃ trunc, call.state = .openFile trunc) ∨
    (call.state = .returned none ∧ s.file = some [])
  file : s.file = none ∨ s.file = some []
  found : ¬s.found

/-- What the calls and the file are like. -/
def Kept (sha : Bytes → Digest) (d : Digest) (size : Int) (s : Share) : Prop :=
  (0 < size ∧ Written sha d size s) ∨ (size = 0 ∧ sha [] = d ∧ Blank s)

theorem Written.find {s : Share} (h : Written sha d size s) {f : Bytes} (hfile : s.file = some f)
    (hlen : (f.length : Int) = size) :
    Written sha d size { s with found := True } := by
  refine ⟨h.sizes, h.hashed, ?_⟩
  rcases h.file with hdoomed | ⟨content, hdigest, hsize, hgroup⟩ | hmissing
  · exact .inl hdoomed
  · refine .inr (.inl ⟨content, hdigest, hsize, hgroup.delivers, hgroup.at_, hgroup.file, fun _ => ?_⟩)
    have hfull : f = content := (hgroup.file f hfile).eq_of_length_le (by omega)
    exact hfull ▸ hfile
  · exact absurd hlen (hmissing.file f hfile)

theorem Written.put {s : Share} (h : Written sha d size s) (r : Reader) :
    Written sha d size { s with calls := insert ⟨r, size, .stat⟩ s.calls } := by
  refine ⟨?_, ?_, ?_⟩
  · rintro call (rfl | hmem)
    · rfl
    · exact h.sizes call hmem
  · rintro call (rfl | hmem)
    · trivial
    · exact h.hashed call hmem
  · rcases h.file with ⟨call, hmem, hdoomed⟩ | ⟨content, hdigest, hsize, hgroup⟩ | hmissing
    · exact .inl ⟨call, .inr hmem, hdoomed⟩
    · refine .inr (.inl ⟨content, hdigest, hsize, ?_, ?_, hgroup.file, hgroup.found⟩)
      · rintro call (rfl | hmem) hw
        · exact hw.elim
        · exact hgroup.delivers call hmem hw
      · rintro call (rfl | hmem)
        · trivial
        · exact hgroup.at_ call hmem
    · refine .inr (.inr ⟨hmissing.none, ?_, hmissing.file, hmissing.found⟩)
      rintro call (rfl | hmem)
      · rfl
      · exact hmissing.at_ call hmem

/-- The size check of a call, where those that write deliver a content. -/
theorem Grouped.stat {s : Share} (hcol : NoCollision sha d) {content : Bytes} (hdigest : sha content = d)
    (hsize : (content.length : Int) = size) (h : Grouped s content) {call : PutCall} (hstat : call.state = .stat)
    (hcall : call.size = size) {file : Option Bytes} {state : PutState}
    (hnext : call.next sha d s.file = some (file, state)) :
    file = s.file ∧ (Doomed sha d { call with state } ∨
      (PutCall.Writing { call with state } → call.Delivers content) ∧ PutsAux.With content s.file state) := by
  obtain ⟨rfl, ⟨f, hf, hlen, rfl⟩ | ⟨_, rfl⟩⟩ := PutsAux.next_stat hstat hnext
  · refine ⟨rfl, .inr ⟨fun hw => hw.elim, ?_⟩⟩
    have hfull : f = content := (h.file f hf).eq_of_length_le (by omega)
    exact hfull ▸ hf
  · refine ⟨rfl, ?_⟩
    by_cases hdelivers : call.Delivers content
    · refine .inr ⟨fun _ => hdelivers, decide_eq_false ?_⟩
      rintro ⟨f, hf, hlong⟩
      have := (h.file f hf).length_le
      omega
    · refine .inl (.inl ⟨trivial, fun other hother hno => hdelivers ?_⟩)
      rw [← hcol other content hother hdigest]
      exact ⟨hno.reads, hno.fails, hno.size⟩

theorem Written.next (hpos : 0 < size) (hcol : NoCollision sha d) {s : Share} (h : Written sha d size s)
    {call : PutCall} (hmem : call ∈ s.calls) {file : Option Bytes} {state : PutState}
    (hnext : call.next sha d s.file = some (file, state)) {calls : Set PutCall}
    (hafter : ∀ other ∈ calls, other ∈ s.calls ∨ other = { call with state })
    (hbefore : ∀ other ∈ s.calls, other ∈ calls ∨ other = call) (hself : { call with state } ∈ calls) :
    Written sha d size { s with calls, file } := by
  have hcall := h.sizes call hmem
  have hcallPos : 0 < call.size := hcall ▸ hpos
  have hhashed := h.hashed call hmem
  refine ⟨?_, ?_, ?_⟩
  · intro other hother
    rcases hafter other hother with hold | rfl
    · exact h.sizes other hold
    · exact hcall
  · intro other hother
    rcases hafter other hother with hold | rfl
    · exact h.hashed other hold
    · exact next_hashed hcallPos hhashed hnext
  rcases h.file with ⟨other, hother, hdoomed⟩ | ⟨content, hdigest, hsize, hgroup⟩ | hmissing
  · rcases hbefore other hother with hstill | rfl
    · exact .inl ⟨other, hstill, hdoomed⟩
    · exact .inl ⟨_, hself, next_doomed hcallPos hhashed hdoomed hnext⟩
  · by_cases hw : call.Writing
    · obtain ⟨hwith, hfile, hmono, _⟩ :=
        PutsAux.next_group hdigest hgroup.file (hgroup.at_ call hmem) hw (hgroup.delivers call hmem hw) hnext
      refine .inr (.inl ⟨content, hdigest, hsize, ?_, ?_, hfile, fun hfound => hmono .close (hgroup.found hfound)⟩)
      · intro other hother hw'
        rcases hafter other hother with hold | rfl
        · exact hgroup.delivers other hold hw'
        · have := hgroup.delivers call hmem hw
          exact ⟨this.reads, this.fails, this.size⟩
      · intro other hother
        rcases hafter other hother with hold | rfl
        · exact hmono other.state (hgroup.at_ other hold)
        · exact hwith
    · obtain ⟨rfl, hdoomed | ⟨hdelivers, hwith⟩⟩ :=
        hgroup.stat hcol hdigest hsize (PutsAux.stat_of_next hw hnext) hcall hnext
      · exact .inl ⟨_, hself, hdoomed⟩
      · refine .inr (.inl ⟨content, hdigest, hsize, ?_, ?_, hgroup.file, hgroup.found⟩)
        · intro other hother hw'
          rcases hafter other hother with hold | rfl
          · exact hgroup.delivers other hold hw'
          · have := hdelivers hw'
            exact ⟨this.reads, this.fails, this.size⟩
        · intro other hother
          rcases hafter other hother with hold | rfl
          · exact hgroup.at_ other hold
          · exact hwith
  · -- no content of the size has the digest: whoever writes is doomed
    obtain ⟨rfl, ⟨f, hf, hlen, _⟩ | ⟨_, rfl⟩⟩ := PutsAux.next_stat (hmissing.at_ call hmem) hnext
    · exact absurd (hlen.trans hcall) (hmissing.file f hf)
    · refine .inl ⟨_, hself, .inl ⟨trivial, fun content hdigest hdelivers => hmissing.none content hdigest ?_⟩⟩
      exact hdelivers.size.symm.trans hcall

theorem Blank.next {s : Share} (h : Blank s) {call : PutCall} (hmem : call ∈ s.calls) {file : Option Bytes}
    {state : PutState} (hnext : call.next sha d s.file = some (file, state)) {calls : Set PutCall}
    (hafter : ∀ other ∈ calls, other ∈ s.calls ∨ other = { call with state }) : Blank { s with calls, file } := by
  have hcall := h.sizes call hmem
  -- the file stays without content, and is there once the call has returned
  have hstep : (file = s.file ∨ file = some []) ∧ (state = .stat ∨ (∃ trunc, state = .openFile trunc) ∨
      (state = .returned none ∧ file = some [])) := by
    rcases h.at_ call hmem with hstat | ⟨trunc, hopen⟩ | ⟨hret, _⟩
    · obtain ⟨rfl, ⟨f, hf, hlen, rfl⟩ | ⟨_, rfl⟩⟩ := PutsAux.next_stat hstat hnext
      · have hnil : f = [] := List.eq_nil_of_length_eq_zero (by omega)
        exact ⟨.inl rfl, .inr (.inr ⟨rfl, hnil ▸ hf⟩)⟩
      · exact ⟨.inl rfl, .inr (.inl ⟨_, rfl⟩)⟩
    · unfold PutCall.next at hnext
      rw [hopen, hcall] at hnext
      obtain ⟨hfile, rfl⟩ := Prod.mk.inj (Option.some.inj hnext)
      have hnil : file = some [] := by
        rw [← hfile]
        rcases h.file with hold | hold <;> rw [hold] <;> cases trunc <;> rfl
      exact ⟨.inr hnil, .inr (.inr ⟨rfl, hnil⟩)⟩
    · unfold PutCall.next at hnext
      rw [hret] at hnext
      nomatch hnext
  refine ⟨?_, ?_, ?_, h.found⟩
  · intro other hother
    rcases hafter other hother with hold | rfl
    · exact h.sizes other hold
    · exact hcall
  · intro other hother
    rcases hafter other hother with hold | rfl
    · rcases h.at_ other hold with hstat | hopen | ⟨hret, hfile⟩
      · exact .inl hstat
      · exact .inr (.inl hopen)
      · refine .inr (.inr ⟨hret, ?_⟩)
        rcases hstep.1 with rfl | hnil
        · exact hfile
        · exact hnil
    · exact hstep.2
  · rcases hstep.1 with rfl | hnil
    · exact h.file
    · exact .inr hnil

/-- Every step keeps what the calls and the file are like. -/
theorem Kept.step (hcol : NoCollision sha d) {s s' : Share} (h : Kept sha d size s) (hstep : Step sha d size s s') :
    Kept sha d size s' := by
  rcases h with ⟨hpos, h⟩ | ⟨rfl, hdigest, h⟩
  · refine .inl ⟨hpos, ?_⟩
    cases hstep with
    | find hfile hlen _ => exact h.find hfile hlen
    | put r => exact h.put r
    | next hmem hnext hafter hbefore hself => exact h.next hpos hcol hmem hnext hafter hbefore hself
  · refine .inr ⟨rfl, hdigest, ?_⟩
    cases hstep with
    | find hfile _ hne =>
      rcases h.file with hnone | hnil
      · rw [hnone] at hfile
        nomatch hfile
      · rw [hnil] at hfile
        exact absurd (Option.some.inj hfile).symm hne
    | put r =>
      refine ⟨?_, ?_, h.file, h.found⟩
      · rintro call (rfl | hmem)
        · rfl
        · exact h.sizes call hmem
      · rintro call (rfl | hmem)
        · exact .inl rfl
        · exact h.at_ call hmem
    | next hmem hnext hafter _ _ => exact h.next hmem hnext hafter

/-- Once a call has returned an error, the file may be anything. -/
theorem Kept.spoiled {s : Share} (h : Kept sha d size s) {call : PutCall} (hmem : call ∈ s.calls) {err : Err}
    (hret : call.state = .returned (some err)) (file : Option Bytes) : Kept sha d size { s with file } := by
  rcases h with ⟨hpos, h⟩ | ⟨_, _, h⟩
  · exact .inl ⟨hpos, h.sizes, h.hashed, .inl ⟨call, hmem, .inr ⟨err, hret⟩⟩⟩
  · rcases h.at_ call hmem with hst | ⟨_, hst⟩ | ⟨hst, _⟩ <;> rw [hst] at hret <;> nomatch hret

/-- What the file is like before there is a call. -/
theorem Kept.begin (hcol : NoCollision sha d) (hsized : 0 < size ∨ size = 0 ∧ sha [] = d) {file : Option Bytes}
    (hfile : ∀ f, file = some f → f = [] ∨ sha f = d) : Kept sha d size ⟨∅, False, file⟩ := by
  rcases hsized with hpos | ⟨rfl, hdigest⟩
  · refine .inl ⟨hpos, nofun, nofun, .inr ?_⟩
    by_cases hex : ∃ content, sha content = d ∧ (content.length : Int) = size
    · obtain ⟨content, hdigest, hsize⟩ := hex
      refine .inl ⟨content, hdigest, hsize, nofun, nofun, fun f hf => ?_, fun hfound => hfound.elim⟩
      rcases hfile f hf with rfl | hsum
      · exact List.nil_prefix
      · rw [hcol f content hsum hdigest]
    · refine .inr ⟨fun content hdigest hsize => hex ⟨content, hdigest, hsize⟩, nofun, fun f hf hlen => ?_, id⟩
      rcases hfile f hf with rfl | hsum
      · rw [List.length_nil] at hlen
        omega
      · exact hex ⟨f, hsum, hlen⟩
  · refine .inr ⟨rfl, hdigest, nofun, nofun, ?_, id⟩
    cases file with
    | none => exact .inl rfl
    | some f =>
      right
      rcases hfile f rfl with rfl | hsum
      · rfl
      · rw [hcol f [] hsum hdigest]

/-- Once all calls have returned nil, the file has the size and the digest. -/
theorem Kept.stored {s : Share} (h : Kept sha d size s) (hall : ∀ call ∈ s.calls, call.state = .returned none)
    (hsome : s.found ∨ ∃ call, call ∈ s.calls) :
    ∃ content, s.file = some content ∧ (content.length : Int) = size ∧ sha content = d := by
  rcases h with ⟨_, h⟩ | ⟨rfl, hdigest, h⟩
  · rcases h.file with ⟨call, hmem, hdoomed⟩ | ⟨content, hdigest, hsize, hgroup⟩ | hmissing
    · have hret := hall call hmem
      rcases hdoomed with ⟨hw, _⟩ | ⟨err, herr⟩
      · unfold PutCall.Writing at hw
        rw [hret] at hw
        exact hw.elim
      · rw [hret] at herr
        nomatch herr
    · refine ⟨content, ?_, hsize, hdigest⟩
      rcases hsome with hfound | ⟨call, hmem⟩
      · exact hgroup.found hfound
      · have hwith := hgroup.at_ call hmem
        rw [hall call hmem] at hwith
        exact hwith
    · rcases hsome with hfound | ⟨call, hmem⟩
      · exact absurd hfound hmissing.found
      · have hstat := hmissing.at_ call hmem
        rw [hall call hmem] at hstat
        nomatch hstat
  · rcases hsome with hfound | ⟨call, hmem⟩
    · exact absurd hfound h.found
    · rcases h.at_ call hmem with hst | ⟨_, hst⟩ | ⟨_, hfile⟩
      · rw [hall call hmem] at hst
        nomatch hst
      · rw [hall call hmem] at hst
        nomatch hst
      · exact ⟨[], hfile, rfl, hdigest⟩

end Share

end Ollama.Blob
