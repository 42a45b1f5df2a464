import Mathlib.Tactic.Common

/-!
# Operations that fail

`Yields E P x` says of an operation that its value, if it has one, meets `P`, and that its failure meets `E`
otherwise. There is a rule for two operations in a row and one for operations over a list, which says what holds after
each entry.
-/

namespace Ollama.Lib

universe u

variable {ε γ : Type*} {α β : Type u}

/-- The value meets `P`, or the failure `E`. -/
def Yields (E : ε → Prop) (P : α → Prop) : Except ε α → Prop
  | .ok a => P a
  | .error e => E e

variable {E E' : ε → Prop} {P : α → Prop} {Q : β → Prop} {x : Except ε α}

theorem Yields.mono (h : Yields E P x) {P' : α → Prop} (hP : ∀ a, P a → P' a) (hE : ∀ e, E e → E' e) :
    Yields E' P' x := by
  cases x with
  | ok a => exact hP a h
  | error e => exact hE e h

/-- Besides, the value is that of the operation. -/
theorem Yields.and_eq (h : Yields E P x) : Yields E (fun a => x = .ok a ∧ P a) x := by
  cases x with
  | ok a => exact ⟨rfl, h⟩
  | error e => exact h

/-- Two operations in a row. -/
theorem Yields.bind (h : Yields E P x) {f : α → Except ε β} (hf : ∀ a, P a → Yields E Q (f a)) :
    Yields E Q (x >>= f) := by
  cases x with
  | ok a => exact hf a h
  | error e => exact h

/-- Operations over a list, of which `P` says what holds behind the entries before. -/
theorem yields_foldlM {f : β → γ → Except ε β} {P : List γ → β → Prop} {l : List γ} {b : β} (hb : P [] b)
    (hf : ∀ done a, a ∈ l → ∀ b, P done b → Yields E (P (done ++ [a])) (f b a)) : Yields E (P l) (l.foldlM f b) := by
  have hall : ∀ done, P done b → Yields E (P (done ++ l)) (l.foldlM f b) := by
    clear hb
    induction l generalizing b with
    | nil =>
      intro done hb
      rw [List.append_nil]
      exact hb
    | cons a l ih =>
      intro done hb
      rw [List.foldlM_cons]
      refine (hf done a List.mem_cons_self b hb).bind (fun b' hb' => ?_)
      have hrest := ih (fun done a ha => hf done a (List.mem_cons_of_mem _ ha)) (done ++ [a]) hb'
      rwa [List.append_assoc] at hrest
  exact hall [] hb

/-- A value, where there is one, meets what the operation yields. -/
theorem Yields.of_ok (h : Yields E P x) {a : α} (hx : x = .ok a) : P a := by
  rw [hx] at h
  exact h

theorem Yields.of_error (h : Yields E P x) {e : ε} (hx : x = .error e) : E e := by
  rw [hx] at h
  exact h

/-- Two operations in a row have a value if the first does, and the second does on it. -/
theorem except_bind_eq_ok {f : α → Except ε β} {b : β} : (x >>= f) = .ok b ↔ ∃ a, x = .ok a ∧ f a = .ok b := by
  cases x with
  | error e =>
    constructor
    · intro h
      nomatch h
    · rintro ⟨a, h, _⟩
      nomatch h
  | ok a =>
    constructor
    · exact fun h => ⟨a, rfl, h⟩
    · rintro ⟨a', h, hf⟩
      obtain rfl := Except.ok.inj h
      exact hf

/-- Operations over a list have a value only if each of them does. -/
theorem exists_ok_of_foldlM {f : β → γ → Except ε β} {l : List γ} {b b' : β} (h : l.foldlM f b = .ok b') {a : γ}
    (ha : a ∈ l) :
    ∃ c c', f c a = .ok c' := by
  induction l generalizing b with
  | nil => nomatch ha
  | cons a' l ih =>
    rw [List.foldlM_cons] at h
    obtain ⟨c, hc, h⟩ := except_bind_eq_ok.1 h
    rcases List.mem_cons.1 ha with rfl | ha
    · exact ⟨b, c, hc⟩
    · exact ih h ha

/-- Operations over a list keep their value where each of them does. -/
theorem foldlM_ok_mono {f g : β → γ → Except ε β} {l : List γ}
    (hfg : ∀ a ∈ l, ∀ b b', f b a = .ok b' → g b a = .ok b') {b b' : β} (h : l.foldlM f b = .ok b') :
    l.foldlM g b = .ok b' := by
  induction l generalizing b with
  | nil => exact h
  | cons a l ih =>
    obtain ⟨ha, hl⟩ := List.forall_mem_cons.1 hfg
    rw [List.foldlM_cons] at h ⊢
    obtain ⟨c, hc, h⟩ := except_bind_eq_ok.1 h
    exact except_bind_eq_ok.2 ⟨c, ha b c hc, ih hl h⟩

/-- Operations over a list have a value if each of them always does. -/
theorem exists_ok_foldlM {f : β → γ → Except ε β} {l : List γ} (h : ∀ a ∈ l, ∀ b, ∃ b', f b a = .ok b') {b : β} :
    ∃ b', l.foldlM f b = .ok b' := by
  induction l generalizing b with
  | nil => exact ⟨b, rfl⟩
  | cons a l ih =>
    obtain ⟨ha, hl⟩ := List.forall_mem_cons.1 h
    obtain ⟨c, hc⟩ := ha b
    obtain ⟨b', hb'⟩ := ih hl (b := c)
    exact ⟨b', by rw [List.foldlM_cons]; exact except_bind_eq_ok.2 ⟨c, hc, hb'⟩⟩

/-- What holds of each entry from some bound on holds of all of them from some bound on. -/
theorem exists_bound_forall {P : Nat → γ → Prop} {l : List γ} (h : ∀ a ∈ l, ∃ d, ∀ d' ≥ d, P d' a) :
    ∃ d, ∀ d' ≥ d, ∀ a ∈ l, P d' a := by
  induction l with
  | nil => exact ⟨0, fun _ _ _ ha => nomatch ha⟩
  | cons a l ih =>
    obtain ⟨ha, hl⟩ := List.forall_mem_cons.1 h
    obtain ⟨d, hd⟩ := ha
    obtain ⟨e, he⟩ := ih hl
    exact ⟨max d e, fun d' hd' => List.forall_mem_cons.2 ⟨hd d' (by omega), he d' (by omega)⟩⟩

end Ollama.Lib
