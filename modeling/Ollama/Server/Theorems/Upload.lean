import Ollama.Server.Upload

/-!
# Calls that share an upload

A call that finds an upload waits for it, whichever repository the upload is for, and returns nil when it is done.
Where every call finds only uploads for its own repository, a call that returns nil has delivered the blob there
(`uploads_deliver`).
-/

namespace Ollama.Server

open Lib

namespace Uploads

/-- A call loads an upload only if it is for its own repository. -/
def SameRepository (s : Uploads) : UploadAct → Prop
  | .step i _ => ∀ call ∈ s.calls[i]?, call.state = .loadOrStore →
      ∀ o ∈ s.manager, (s.uploads o).repository = call.repository
  | _ => True

/-- A call that has returned nil has delivered the blob to its repository. -/
def Delivers (s : Uploads) : Prop := ∀ call ∈ s.calls, call.state = .returned none → call.repository ∈ s.delivered

end Uploads

/-- The upload that a call is about. -/
def UploadState.upload : UploadState → Option Nat
  | .prepare o | .delete o _ | .go o | .acquire o | .wait o | .release o _ | .cancel o _ => some o
  | .head | .loadOrStore | .returned _ | .panicked => none

/-- The call returns nil, or is going to. -/
def UploadState.succeeds : UploadState → Bool
  | .release _ none | .cancel _ none | .returned none => true
  | _ => false

namespace UploadAux

/-- An upload that is done without an error, or is going to be, was delivered. -/
structure Truthful (b : Upload) (delivered : List Bytes) : Prop where
  done : b.done = true → b.err = none → b.repository ∈ delivered
  setErr : b.worker = some (.setErr none) → b.repository ∈ delivered
  setDone : b.worker = some .setDone → b.err = none → b.repository ∈ delivered

/-- What holds of the uploads. -/
structure Shared (s : Uploads) : Prop where
  manager : ∀ o ∈ s.manager, o < s.made
  uploads : ∀ o, Truthful (s.uploads o) s.delivered

/-- What holds of a call: its upload is for its repository, and when it returns nil, the blob was delivered. -/
structure Own (s : Uploads) (repository : Bytes) (st : UploadState) : Prop where
  upload : ∀ o ∈ st.upload, o < s.made ∧ (s.uploads o).repository = repository
  told : st.succeeds = true → repository ∈ s.delivered

/-- The uploads stay for their repositories, and what was delivered stays so. -/
structure Frame (s s' : Uploads) : Prop where
  made : s.made ≤ s'.made
  repository : ∀ o < s.made, (s'.uploads o).repository = (s.uploads o).repository
  delivered : s.delivered ⊆ s'.delivered
  calls : s'.calls = s.calls

/-- A call is not disturbed by what happens to the uploads. -/
theorem Own.frame {s s' : Uploads} {repository : Bytes} {st : UploadState} (h : Own s repository st)
    (hframe : Frame s s') :
    Own s' repository st := by
  refine ⟨?_, fun hsucceeds => hframe.delivered (h.told hsucceeds)⟩
  intro o ho
  obtain ⟨hlt, hrepo⟩ := h.upload o ho
  exact ⟨Nat.lt_of_lt_of_le hlt hframe.made, (hframe.repository o hlt).trans hrepo⟩

theorem Truthful.mono {b : Upload} {delivered delivered' : List Bytes} (h : Truthful b delivered)
    (hsub : delivered ⊆ delivered') :
    Truthful b delivered' :=
  ⟨fun hdone herr => hsub (h.done hdone herr), fun hw => hsub (h.setErr hw), fun hw herr => hsub (h.setDone hw herr)⟩

/-- An upload is changed, and stays for its repository. -/
theorem frame_update (s : Uploads) (o : Nat) {f : Upload → Upload} (hf : ∀ b, (f b).repository = b.repository) :
    Frame s (s.update o f) := by
  refine ⟨le_rfl, ?_, fun _ h => h, rfl⟩
  intro o' _
  by_cases ho : o' = o
  · simp [Uploads.update, ho, hf]
  · simp [Uploads.update, ho]

/-- A repository is noted. -/
theorem frame_deliver (s : Uploads) (repository : Bytes) : Frame s (s.deliver repository) :=
  ⟨le_rfl, fun _ _ => rfl, fun _ h => List.mem_cons_of_mem _ h, rfl⟩

theorem Frame.trans {s s' s'' : Uploads} (h : Frame s s') (h' : Frame s' s'') : Frame s s'' :=
  ⟨h.made.trans h'.made, fun o ho => (h'.repository o (Nat.lt_of_lt_of_le ho h.made)).trans (h.repository o ho),
    fun _ hd => h'.delivered (h.delivered hd), h'.calls.trans h.calls⟩

theorem Frame.refl (s : Uploads) : Frame s s := ⟨le_rfl, fun _ _ => rfl, fun _ h => h, rfl⟩

/-- The entry of the manager is deleted. -/
theorem frame_delete (s : Uploads) : Frame s { s with manager := none } := ⟨le_rfl, fun _ _ => rfl, fun _ h => h, rfl⟩

theorem Shared.delete {s : Uploads} (h : Shared s) : Shared { s with manager := none } := ⟨by simp, h.uploads⟩

/-- A repository is noted. -/
theorem Shared.deliver {s : Uploads} (h : Shared s) (repository : Bytes) : Shared (s.deliver repository) :=
  ⟨h.manager, fun o => (h.uploads o).mono (frame_deliver s repository).delivered⟩

/-- An upload is changed. -/
theorem Shared.update {s : Uploads} (h : Shared s) {o : Nat} {f : Upload → Upload}
    (hf : Truthful (f (s.uploads o)) s.delivered) :
    Shared (s.update o f) := by
  refine ⟨h.manager, ?_⟩
  intro o'
  by_cases ho : o' = o
  · subst ho
    simpa [Uploads.update] using hf
  · simpa [Uploads.update, ho] using h.uploads o'

/-- The goroutine goes on, and is not going to say that the upload is done. -/
theorem Shared.advance {s : Uploads} (h : Shared s) (o : Nat) {w : UploadWorker} (hsetErr : w ≠ .setErr none)
    (hsetDone : w ≠ .setDone) :
    Shared (s.update o (fun b => { b with worker := some w })) ∧
      Frame s (s.update o (fun b => { b with worker := some w })) := by
  refine ⟨h.update ⟨(h.uploads o).done, ?_, ?_⟩, frame_update s o (fun _ => rfl)⟩
  · intro hw
    exact absurd (Option.some.inj hw) hsetErr
  · intro hw
    exact absurd (Option.some.inj hw) hsetDone

/-- A step of the goroutine of an upload. -/
theorem work_shared {s s' : Uploads} {o : Nat} {e : Reply} (h : Shared s) (hwork : s.work o e = some s') :
    Shared s' ∧ Frame s s' := by
  have ho := h.uploads o
  unfold Uploads.work at hwork
  simp only at hwork
  split at hwork
  · simp at hwork
  · obtain rfl := Option.some.inj hwork
    refine ⟨h.update ⟨ho.done, by simp, by simp⟩, frame_update s o (fun _ => rfl)⟩
  · split at hwork
    · obtain rfl := Option.some.inj hwork
      exact h.advance o (by simp) (by simp)
    · split at hwork
      · obtain rfl := Option.some.inj hwork
        exact h.advance o (by simp) (by simp)
      · simp at hwork
    all_goals simp at hwork
  · split at hwork
    · obtain rfl := Option.some.inj hwork
      exact h.advance o (by simp) (by simp)
    · split at hwork
      · obtain rfl := Option.some.inj hwork
        exact h.advance o (by simp) (by simp)
      · simp at hwork
    all_goals simp at hwork
  · split at hwork
    · obtain rfl := Option.some.inj hwork
      exact h.advance o (by simp) (by simp)
    · simp at hwork
  · split at hwork
    · obtain rfl := Option.some.inj hwork
      refine ⟨(h.deliver _).update ⟨?_, ?_, by simp⟩, (frame_deliver s _).trans (frame_update _ o (fun _ => rfl))⟩
      · intro _ _
        exact List.mem_cons_self ..
      · intro _
        exact List.mem_cons_self ..
    · split at hwork
      · obtain rfl := Option.some.inj hwork
        exact h.advance o (by simp) (by simp)
      · simp at hwork
    all_goals simp at hwork
  · rename_i err hw
    obtain rfl := Option.some.inj hwork
    have hsetErr : err = none → (s.uploads o).repository ∈ s.delivered := by
      rintro rfl
      exact ho.setErr hw
    exact ⟨h.update ⟨fun _ herr => hsetErr herr, by simp, fun _ herr => hsetErr herr⟩, frame_update s o (fun _ => rfl)⟩
  · rename_i hw
    obtain rfl := Option.some.inj hwork
    exact ⟨h.update ⟨fun _ herr => ho.setDone hw herr, by simp, by simp⟩, frame_update s o (fun _ => rfl)⟩
  · obtain rfl := Option.some.inj hwork
    exact ⟨h.update ⟨by simp, by simp, by simp⟩, frame_update s o (fun _ => rfl)⟩
  · obtain rfl := Option.some.inj hwork
    obtain ⟨hshared, hframe⟩ := h.delete.advance o (w := .over) (by simp) (by simp)
    exact ⟨hshared, (frame_delete s).trans hframe⟩
  · simp at hwork

/-- A new upload. -/
theorem Shared.store {s : Uploads} (h : Shared s) (repository : Bytes) :
    Shared { s with
      manager := some s.made, uploads := Function.update s.uploads s.made { repository }, made := s.made + 1 } ∧
      Frame s { s with
        manager := some s.made, uploads := Function.update s.uploads s.made { repository }, made := s.made + 1 } := by
  refine ⟨⟨by simp, ?_⟩, ⟨by simp, ?_, fun _ h => h, rfl⟩⟩
  · intro o
    by_cases ho : o = s.made
    · subst ho
      exact ⟨by simp, by simp, by simp⟩
    · simpa [ho] using h.uploads o
  · intro o ho
    simp [Nat.ne_of_lt ho]

/-- A call that goes on with its upload. -/
theorem Own.keep {s s' : Uploads} {repository : Bytes} {st st' : UploadState} (h : Own s repository st)
    (hframe : Frame s s') (hupload : ∀ o ∈ st'.upload, o ∈ st.upload)
    (htold : st'.succeeds = true → st.succeeds = true ∨ repository ∈ s'.delivered) :
    Own s' repository st' := by
  have hmoved := h.frame hframe
  refine ⟨fun o ho => hmoved.upload o (hupload o ho), ?_⟩
  intro hsucceeds
  rcases htold hsucceeds with hold | hnew
  · exact hmoved.told hold
  · exact hnew

/-- A step of a call. -/
theorem next_shared {s s' : Uploads} {call : UploadCall} {e : Reply} {st : UploadState} (h : Shared s)
    (hown : Own s call.repository call.state)
    (hsame : call.state = .loadOrStore → ∀ o ∈ s.manager, (s.uploads o).repository = call.repository)
    (hnext : s.next call e = some (s', st)) : Shared s' ∧ Frame s s' ∧ Own s' call.repository st := by
  obtain ⟨repository, state, cancelled⟩ := call
  cases state with
  | head =>
    simp only [Uploads.next] at hnext
    split at hnext
    · obtain ⟨rfl, rfl⟩ := Prod.mk.inj (Option.some.inj hnext)
      exact ⟨h.deliver _, frame_deliver s _, by simp [UploadState.upload], fun _ => List.mem_cons_self ..⟩
    · obtain ⟨rfl, rfl⟩ := Prod.mk.inj (Option.some.inj hnext)
      exact ⟨h, Frame.refl s, by simp [UploadState.upload], by simp [UploadState.succeeds]⟩
    · split at hnext
      · obtain ⟨rfl, rfl⟩ := Prod.mk.inj (Option.some.inj hnext)
        exact ⟨h, Frame.refl s, by simp [UploadState.upload], by simp [UploadState.succeeds]⟩
      · simp at hnext
    · simp at hnext
  | loadOrStore =>
    simp only [Uploads.next] at hnext
    split at hnext
    · rename_i o ho
      obtain ⟨rfl, rfl⟩ := Prod.mk.inj (Option.some.inj hnext)
      refine ⟨h, Frame.refl s, ?_, by simp [UploadState.succeeds]⟩
      intro o' ho'
      obtain rfl : o = o' := by simpa [UploadState.upload] using ho'
      exact ⟨h.manager o ho, hsame rfl o ho⟩
    · obtain ⟨rfl, rfl⟩ := Prod.mk.inj (Option.some.inj hnext)
      obtain ⟨hshared, hframe⟩ := h.store repository
      refine ⟨hshared, hframe, ?_, by simp [UploadState.succeeds]⟩
      intro o ho
      obtain rfl : s.made = o := by simpa [UploadState.upload] using ho
      exact ⟨by simp, by simp⟩
  | prepare o =>
    simp only [Uploads.next] at hnext
    split at hnext
    · obtain ⟨rfl, rfl⟩ := Prod.mk.inj (Option.some.inj hnext)
      have hrepo : (s.uploads o).repository = repository := (hown.upload o rfl).2
      have hframe := (frame_deliver s repository).trans
        (frame_update (s.deliver repository) o (f := fun b => { b with done := true }) (fun _ => rfl))
      have hmounted : (s.uploads o).repository ∈ (s.deliver repository).delivered := by
        rw [hrepo]
        exact List.mem_cons_self ..
      exact ⟨(h.deliver repository).update ⟨fun _ _ => hmounted, fun _ => hmounted, fun _ _ => hmounted⟩, hframe,
        hown.keep hframe (fun _ ho => ho) (by simp [UploadState.succeeds])⟩
    · obtain ⟨rfl, rfl⟩ := Prod.mk.inj (Option.some.inj hnext)
      have ho := h.uploads o
      have hframe := frame_update s o (f := fun b => { b with nextURL := true }) (fun _ => rfl)
      exact ⟨h.update ⟨ho.done, ho.setErr, ho.setDone⟩, hframe,
        hown.keep hframe (fun _ ho => ho) (by simp [UploadState.succeeds])⟩
    · split at hnext
      · obtain ⟨rfl, rfl⟩ := Prod.mk.inj (Option.some.inj hnext)
        exact ⟨h, Frame.refl s, hown.keep (Frame.refl s) (fun _ ho => ho) (by simp [UploadState.succeeds])⟩
      · simp at hnext
    · simp at hnext
  | delete o err =>
    obtain ⟨rfl, rfl⟩ := Prod.mk.inj (Option.some.inj hnext)
    exact ⟨h.delete, frame_delete s, by simp [UploadState.upload], by simp [UploadState.succeeds]⟩
  | go o =>
    obtain ⟨rfl, rfl⟩ := Prod.mk.inj (Option.some.inj hnext)
    obtain ⟨hshared, hframe⟩ := h.advance o (w := .start) (by simp) (by simp)
    exact ⟨hshared, hframe, hown.keep hframe (fun _ ho => ho) (by simp [UploadState.succeeds])⟩
  | acquire o =>
    obtain ⟨rfl, rfl⟩ := Prod.mk.inj (Option.some.inj hnext)
    have ho := h.uploads o
    have hframe := frame_update s o (f := fun b => { b with references := b.references + 1 }) (fun _ => rfl)
    exact ⟨h.update ⟨ho.done, ho.setErr, ho.setDone⟩, hframe,
      hown.keep hframe (fun _ ho => ho) (by simp [UploadState.succeeds])⟩
  | wait o =>
    simp only [Uploads.next] at hnext
    split at hnext
    · split at hnext
      · rename_i hready
        obtain ⟨rfl, rfl⟩ := Prod.mk.inj (Option.some.inj hnext)
        refine ⟨h, Frame.refl s, hown.keep (Frame.refl s) (fun _ ho => ho) ?_⟩
        intro hsucceeds
        have herr : (s.uploads o).err = none := by
          cases herr : (s.uploads o).err with
          | none => rfl
          | some err => simp [herr, UploadState.succeeds] at hsucceeds
        have hdone : (s.uploads o).done = true := hready.resolve_right (by simp [herr])
        exact .inr ((hown.upload o rfl).2 ▸ (h.uploads o).done hdone herr)
      · simp at hnext
    · split at hnext
      · obtain ⟨rfl, rfl⟩ := Prod.mk.inj (Option.some.inj hnext)
        exact ⟨h, Frame.refl s, hown.keep (Frame.refl s) (fun _ ho => ho) (by simp [UploadState.succeeds])⟩
      · simp at hnext
    all_goals simp at hnext
  | release o err =>
    obtain ⟨rfl, rfl⟩ := Prod.mk.inj (Option.some.inj hnext)
    have ho := h.uploads o
    have hframe := frame_update s o (f := fun b => { b with references := b.references - 1 }) (fun _ => rfl)
    refine ⟨h.update ⟨ho.done, ho.setErr, ho.setDone⟩, hframe, hown.keep hframe ?_ ?_⟩
    · intro o' ho'
      split at ho'
      · exact ho'
      · simp [UploadState.upload] at ho'
    · intro hsucceeds
      refine .inl ?_
      cases err with
      | none => rfl
      | some err => split at hsucceeds <;> simp [UploadState.succeeds] at hsucceeds
  | cancel o err =>
    simp only [Uploads.next] at hnext
    split at hnext
    · obtain ⟨rfl, rfl⟩ := Prod.mk.inj (Option.some.inj hnext)
      have ho := h.uploads o
      have hframe := frame_update s o (f := fun b => { b with cancelled := true }) (fun _ => rfl)
      refine ⟨h.update ⟨ho.done, ho.setErr, ho.setDone⟩, hframe, hown.keep hframe (by simp [UploadState.upload]) ?_⟩
      intro hsucceeds
      refine .inl ?_
      cases err with
      | none => rfl
      | some err => simp [UploadState.succeeds] at hsucceeds
    · obtain ⟨rfl, rfl⟩ := Prod.mk.inj (Option.some.inj hnext)
      exact ⟨h, Frame.refl s, hown.keep (Frame.refl s) (by simp [UploadState.upload]) (by simp [UploadState.succeeds])⟩
  | returned err => simp [Uploads.next] at hnext
  | panicked => simp [Uploads.next] at hnext

/-- What holds of the uploads and of every call. -/
structure Inv (s : Uploads) : Prop where
  shared : Shared s
  own : ∀ call ∈ s.calls, Own s call.repository call.state

/-- An act keeps the invariant. -/
theorem Inv.act {s s' : Uploads} {a : UploadAct} (h : Inv s) (hsame : s.SameRepository a)
    (hact : s.act a = some s') : Inv s' := by
  cases a with
  | call repository =>
    obtain rfl := Option.some.inj hact
    refine ⟨⟨h.shared.manager, h.shared.uploads⟩, ?_⟩
    intro call hcall
    rcases List.mem_append.1 hcall with hcall | hcall
    · exact ⟨(h.own call hcall).upload, (h.own call hcall).told⟩
    · obtain rfl := List.mem_singleton.1 hcall
      exact ⟨by simp [UploadState.upload], by simp [UploadState.succeeds]⟩
  | cancel i =>
    obtain ⟨call, hcall, rfl⟩ := Option.map_eq_some_iff.1 hact
    refine ⟨⟨h.shared.manager, h.shared.uploads⟩, ?_⟩
    intro other hother
    rcases List.mem_or_eq_of_mem_set hother with hother | rfl
    · exact ⟨(h.own other hother).upload, (h.own other hother).told⟩
    · have hown := h.own call (List.mem_of_getElem? hcall)
      exact ⟨hown.upload, hown.told⟩
  | step i e =>
    obtain ⟨call, hcall, hout⟩ := Option.bind_eq_some_iff.1 hact
    obtain ⟨⟨s₁, st⟩, hnext, rfl⟩ := Option.map_eq_some_iff.1 hout
    obtain ⟨hshared, hframe, hown⟩ :=
      next_shared h.shared (h.own call (List.mem_of_getElem? hcall)) (hsame call hcall) hnext
    refine ⟨⟨hshared.manager, hshared.uploads⟩, ?_⟩
    intro other hother
    rcases List.mem_or_eq_of_mem_set hother with hother | rfl
    · have hkept := (h.own other hother).frame hframe
      exact ⟨hkept.upload, hkept.told⟩
    · exact ⟨hown.upload, hown.told⟩
  | work o e =>
    obtain ⟨hshared, hframe⟩ := work_shared h.shared hact
    refine ⟨hshared, ?_⟩
    intro call hcall
    rw [hframe.calls] at hcall
    exact (h.own call hcall).frame hframe

end UploadAux

open UploadAux in
/-- In every run in which a call finds only uploads for its own repository, a call that has returned nil has delivered
the blob there. -/
theorem uploads_deliver (s : Uploads) (h : (uploads.guarded Uploads.SameRepository).Reachable s) : s.Delivers := by
  have hinv : Inv s := by
    refine h.invariant ?_ ?_
    · rintro s rfl
      exact ⟨⟨by simp, fun o => ⟨by simp, by simp, by simp⟩⟩, by simp⟩
    · rintro s s' hinv ⟨a, hsame, hact⟩
      exact hinv.act hsame hact
  intro call hcall hreturned
  exact (hinv.own call hcall).told (by rw [hreturned]; rfl)

instance (s : Uploads) (a : UploadAct) : Decidable (s.SameRepository a) :=
  match a with
  | .step i _ => inferInstanceAs (Decidable (∀ call ∈ s.calls[i]?, call.state = .loadOrStore → ∀ o ∈ s.manager, _))
  | .call _ | .cancel _ | .work _ _ => inferInstanceAs (Decidable True)

/-- A call stores an upload and starts it, another loads it, the goroutine commits, and the other returns. -/
def pushTwo (repository repository' : Bytes) : List UploadAct :=
  [.call repository, .call repository', .step 0 .notExist, .step 1 .notExist, .step 0 .ok, .step 0 .ok, .step 0 .ok,
    .step 1 .ok,
    .step 0 .ok, .step 1 .ok, .work 0 .ok, .work 0 .ok, .work 0 .ok, .work 0 .ok, .work 0 .ok, .work 0 .ok,
      .work 0 .ok, .step 1 .ok,
    .step 1 .ok]

/-- Two calls for one repository share an upload: the one that has loaded it returns nil, and has delivered the blob. -/
theorem uploads_deliver_two : ∃ s : Uploads, s.Delivers ∧
    s.calls = [⟨[0x61], .wait 0, false⟩, ⟨[0x61], .returned none, false⟩] ∧ s.delivered = [[0x61]] := by
  have hrun : (uploads.runGuarded Uploads.SameRepository ⟨none, fun _ => { repository := [] }, 0, [],
    []⟩ (pushTwo [0x61] [0x61])).map
      (fun s => (s.calls, s.delivered)) =
        some ([⟨[0x61], .wait 0, false⟩, ⟨[0x61], .returned none, false⟩], [[0x61]]) := by
    decide
  obtain ⟨s, hs, hfacts⟩ := Option.map_eq_some_iff.1 hrun
  have hreach : (uploads.guarded Uploads.SameRepository).Reachable s := Machine.reachable_runGuarded (.init rfl) hs
  exact ⟨s, uploads_deliver s hreach, (Prod.mk.inj hfacts).1, (Prod.mk.inj hfacts).2⟩

/-- Two calls for two repositories share an upload: the one that has loaded it returns nil, and its repository has no
blob. -/
theorem upload_not_delivered : ∃ s, uploads.system.Reachable s ∧ ¬s.Delivers := by
  have hrun : (uploads.run ⟨none, fun _ => { repository := [] }, 0, [], []⟩ (pushTwo [0x61] [0x62])).map
      (fun s => (s.calls, s.delivered)) =
        some ([⟨[0x61], .wait 0, false⟩, ⟨[0x62], .returned none, false⟩], [[0x61]]) := by
    decide
  obtain ⟨s, hs, hfacts⟩ := Option.map_eq_some_iff.1 hrun
  obtain ⟨hcalls, hdelivered⟩ := Prod.mk.inj hfacts
  refine ⟨s, Machine.reachable_run (.init rfl) hs, ?_⟩
  intro hdelivers
  have hmem := hdelivers ⟨[0x62], .returned none, false⟩ (by simp [hcalls]) rfl
  simp [hdelivered] at hmem

end Ollama.Server
