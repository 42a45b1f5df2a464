import Ollama.Lib.Utf8
import Mathlib.Tactic.Common

/-!
# Binary formats

Numbers as bytes in either order, and readers of a byte stream that may fail. `Reads` is the round trip of one field:
the reader takes exactly the given bytes, whatever follows them, and returns the value. It composes along the
structure of a format: fields one after the other (`Reads.bind`) and a counted number of elements (`reads_times`).
`Fails` is the other side: what makes a reader fail with an error of some kind, along the same structure. `Agree`
compares two readers: where both succeed they take the same bytes. A length that is read may be one that nothing can
be allocated for (`makes`).
-/

namespace Ollama.Lib

/-! ## Numbers -/

/-- The low `n` bytes of a number, the lowest first. -/
def le : Nat → Nat → Bytes
  | 0, _ => []
  | n + 1, x => UInt8.ofNat x :: le n (x / 256)

/-- The number of some bytes, the lowest first. -/
def ofLe : Bytes → Nat
  | [] => 0
  | b :: bs => b.toNat + 256 * ofLe bs

/-- A number of so many bytes is so long. -/
@[simp] theorem length_le (n x : Nat) : (le n x).length = n := by
  induction n generalizing x with
  | zero => rfl
  | succ n ih => simp [le, ih]

/-- A number is read back, up to what its bytes hold. -/
theorem ofLe_le (n x : Nat) : ofLe (le n x) = x % 256 ^ n := by
  induction n generalizing x with
  | zero => simp [le, ofLe, Nat.mod_one]
  | succ n ih =>
    have hbyte : (UInt8.ofNat x).toNat = x % 256 := by simp
    rw [le, ofLe, ih, hbyte, Nat.pow_succ', Nat.mod_mul]

/-- The order of the bytes of a number. -/
inductive ByteOrder where
  | littleEndian
  | bigEndian
  deriving DecidableEq, Repr

/-- The number of some bytes in an order. -/
def ByteOrder.uint : ByteOrder → Bytes → Nat
  | littleEndian, b => ofLe b
  | bigEndian, b => ofLe b.reverse

/-! ## Allocating -/

/-- Whether a slice of so many elements of `width` bytes can be made: the number is not negative, and the bytes are no
more than can be allocated at once, if there is a limit. -/
def makes (maxAlloc : Option Nat) (width : Nat) (n : Int) : Bool := 0 ≤ n ∧ maxAlloc.all (fun max => n * width ≤ max)

/-- Without a limit any length is made. -/
theorem makes_none (width n : Nat) : makes none width n = true := by simp [makes]

/-- With a limit a length is made that is not negative, and takes no more bytes. -/
theorem makes_some {max width : Nat} {n : Int} : makes (some max) width n = true ↔ 0 ≤ n ∧ n * width ≤ max :=
  by simp [makes]

/-! ## Readers -/

/-- A reader of a byte stream. -/
abbrev Reader (ε α : Type) := StateT Bytes (Except ε) α

namespace Reader

variable {ε α β : Type}

/-- A reader that fails. -/
def fail (e : ε) : Reader ε α := fun _ => .error e

/-- The reader with another error. -/
def mapError (f : ε → ε) (p : Reader ε α) : Reader ε α := fun s => (p s).mapError f

/-- As many values as given, one after the other. -/
def times : Nat → Reader ε α → Reader ε (List α)
  | 0, _ => pure []
  | n + 1, p => do
    let x ← p
    let xs ← times n p
    pure (x :: xs)

/-- One reader after another returns what the second does after the first. -/
theorem bind_eq_ok {p : Reader ε α} {f : α → Reader ε β} {s s'' : Bytes} {y : β} :
    (p >>= f) s = .ok (y, s'') ↔ ∃ x s', p s = .ok (x, s') ∧ f x s' = .ok (y, s'') := by
  have hbind : (p >>= f) s = (p s).bind (fun out => f out.1 out.2) := rfl
  rw [hbind]
  rcases p s with e | ⟨x, s'⟩
  · constructor
    · intro h
      nomatch h
    · rintro ⟨x, s', hx, _⟩
      nomatch hx
  · constructor
    · intro h
      exact ⟨x, s', rfl, h⟩
    · rintro ⟨x', s₁, hx, h⟩
      rw [Except.ok.injEq, Prod.mk.injEq] at hx
      obtain ⟨rfl, rfl⟩ := hx
      exact h

/-- A reader that returns takes no bytes. -/
theorem pure_eq_ok {s s' : Bytes} {x y : α} : (pure x : Reader ε α) s = .ok (y, s') ↔ x = y ∧ s = s' := by
  show Except.ok (x, s) = .ok (y, s') ↔ _
  rw [Except.ok.injEq, Prod.mk.injEq]

/-- Wrapping errors changes no result. -/
theorem mapError_eq_ok {f : ε → ε} {p : Reader ε α} {s : Bytes} {out : α × Bytes} :
    p.mapError f s = .ok out ↔ p s = .ok out := by
  unfold mapError
  rcases p s with e | out'
  · exact iff_of_false nofun nofun
  · exact Iff.rfl

/-- The reader takes exactly the bytes and returns the value. -/
def Reads (p : Reader ε α) (bytes : Bytes) (x : α) : Prop := ∀ rest, p (bytes ++ rest) = .ok (x, rest)

/-- A reader that returns takes exactly no bytes. -/
theorem reads_pure (x : α) : Reads (pure x : Reader ε α) [] x := fun _ => rfl

/-- One field after another. -/
theorem Reads.bind {p : Reader ε α} {f : α → Reader ε β} {a b : Bytes} {x : α} {y : β} (hp : Reads p a x)
    (hf : Reads (f x) b y) : Reads (p >>= f) (a ++ b) y := by
  intro rest
  rw [List.append_assoc]
  show (p (a ++ (b ++ rest))).bind (fun out => f out.1 out.2) = _
  rw [hp]
  exact hf rest

/-- The last field, and what is made of it. -/
theorem Reads.map {p : Reader ε α} {f : α → β} {a : Bytes} {x : α} (hp : Reads p a x) :
    Reads (p >>= fun x => pure (f x)) a (f x) := by
  have := hp.bind (f := fun x => (pure (f x) : Reader ε β)) (reads_pure (f x))
  rwa [List.append_nil] at this

/-- A reader takes exactly the same bytes when its errors are wrapped. -/
theorem Reads.mapError {f : ε → ε} {p : Reader ε α} {a : Bytes} {x : α} (hp : Reads p a x) :
    Reads (p.mapError f) a x := by
  intro rest
  unfold Reader.mapError
  rw [hp]
  rfl

/-- A counted number of elements. -/
theorem reads_times {γ : Type} {p : Reader ε α} {enc : γ → Bytes} {val : γ → α} {xs : List γ}
    (h : ∀ x ∈ xs, Reads p (enc x) (val x)) : Reads (p.times xs.length) (xs.flatMap enc) (xs.map val) := by
  induction xs with
  | nil => exact reads_pure []
  | cons x xs ih =>
    have hx := h x (List.mem_cons_self ..)
    have hxs := ih (fun y hy => h y (List.mem_cons_of_mem x hy))
    exact hx.bind hxs.map

/-- The reader fails with an error of the kind. -/
def Fails (P : ε → Prop) (p : Reader ε α) (s : Bytes) : Prop := ∃ e, p s = .error e ∧ P e

variable {P : ε → Prop} {s : Bytes}

/-- A reader that returns does not fail. -/
theorem not_fails_pure (x : α) : ¬Fails P (pure x : Reader ε α) s := by
  rintro ⟨e, he, _⟩
  nomatch he

/-- A reader that fails does so with its error. -/
theorem fails_fail (e : ε) : Fails P (fail e : Reader ε α) s ↔ P e := by
  constructor
  · rintro ⟨e', he, h⟩
    rwa [← Except.error.inj he] at h
  · intro h
    exact ⟨e, rfl, h⟩

/-- One reader after another fails in the first or in the second. -/
theorem fails_bind {p : Reader ε α} {f : α → Reader ε β} :
    Fails P (p >>= f) s ↔ Fails P p s ∨ ∃ x s', p s = .ok (x, s') ∧ Fails P (f x) s' := by
  have hbind : (p >>= f) s = (p s).bind (fun out => f out.1 out.2) := rfl
  unfold Fails
  rw [hbind]
  rcases p s with e | ⟨x, s'⟩
  · constructor
    · rintro ⟨e', he, h⟩
      rw [← Except.error.inj he] at h
      exact .inl ⟨e, rfl, h⟩
    · rintro (⟨e', he, h⟩ | ⟨x, s', hx, _⟩)
      · rw [← Except.error.inj he] at h
        exact ⟨e, rfl, h⟩
      · nomatch hx
  · constructor
    · intro h
      exact .inr ⟨x, s', rfl, h⟩
    · rintro (⟨e', he, _⟩ | ⟨x', s'', hx, h⟩)
      · nomatch he
      · rw [Except.ok.injEq, Prod.mk.injEq] at hx
        obtain ⟨rfl, rfl⟩ := hx
        exact h

/-- What is made of a value does not fail. -/
theorem fails_map {p : Reader ε α} {f : α → β} : Fails P (p >>= fun x => pure (f x)) s ↔ Fails P p s := by
  rw [fails_bind]
  constructor
  · rintro (h | ⟨x, s', _, h⟩)
    · exact h
    · exact absurd h (not_fails_pure _)
  · exact .inl

/-- Wrapped, the error has to be of the kind. -/
theorem fails_mapError {f : ε → ε} {p : Reader ε α} : Fails P (p.mapError f) s ↔ Fails (fun e => P (f e)) p s := by
  unfold Fails mapError
  rcases p s with e | out
  · constructor
    · rintro ⟨e', he, h⟩
      rw [← Except.error.inj he] at h
      exact ⟨e, rfl, h⟩
    · rintro ⟨e', he, h⟩
      rw [← Except.error.inj he] at h
      exact ⟨f e, rfl, h⟩
  · constructor
    · rintro ⟨e', he, _⟩
      nomatch he
    · rintro ⟨e', he, _⟩
      nomatch he

/-- A counted number of elements fails at one of them. -/
theorem fails_times {p : Reader ε α} {n : Nat} :
    Fails P (p.times n) s ↔ ∃ i < n, ∃ xs s', p.times i s = .ok (xs, s') ∧ Fails P p s' := by
  induction n generalizing s with
  | zero =>
    constructor
    · intro h
      exact absurd h (not_fails_pure [])
    · rintro ⟨i, hi, _⟩
      exact absurd hi (Nat.not_lt_zero i)
  | succ n ih =>
    have htimes : Fails P (p.times (n + 1)) s ↔ Fails P p s ∨ ∃ x s', p s = .ok (x, s') ∧ Fails P (p.times n) s' := by
      refine fails_bind.trans (or_congr_right ?_)
      exact exists_congr fun x => exists_congr fun s' => and_congr_right fun _ => fails_map
    rw [htimes]
    constructor
    · rintro (h | ⟨x, s', hx, h⟩)
      · exact ⟨0, Nat.succ_pos n, [], s, rfl, h⟩
      · obtain ⟨i, hi, xs, s'', hxs, h⟩ := ih.1 h
        refine ⟨i + 1, Nat.succ_lt_succ hi, x :: xs, s'', bind_eq_ok.2 ⟨x, s', hx, ?_⟩, h⟩
        exact bind_eq_ok.2 ⟨xs, s'', hxs, rfl⟩
    · rintro ⟨i, hi, xs, s'', hxs, h⟩
      cases i with
      | zero =>
        obtain ⟨-, rfl⟩ := pure_eq_ok.1 hxs
        exact .inl h
      | succ i =>
        obtain ⟨x, s', hx, hrest⟩ := bind_eq_ok.1 hxs
        obtain ⟨ys, s₃, hys, hpure⟩ := bind_eq_ok.1 hrest
        obtain ⟨-, rfl⟩ := pure_eq_ok.1 hpure
        exact .inr ⟨x, s', hx, ih.2 ⟨i, Nat.lt_of_succ_lt_succ hi, ys, s₃, hys, h⟩⟩

/-! ## Two readers -/

/-- The reader does what another does, or it fails with an error of the kind. -/
def Refines (P : ε → Prop) (p q : Reader ε α) : Prop := ∀ s, Fails P p s ∨ p s = q s

/-- A reader refines itself. -/
theorem refines_self (p : Reader ε α) : Refines P p p := fun _ => .inr rfl

/-- Readers refine one after the other. -/
theorem Refines.bind {p q : Reader ε α} {f g : α → Reader ε β} (hp : Refines P p q) (hf : ∀ x, Refines P (f x) (g x)) :
    Refines P (p >>= f) (q >>= g) := by
  intro s
  rcases hp s with hfails | heq
  · exact .inl (fails_bind.2 (.inl hfails))
  · have hbind : ∀ (r : Reader ε α) (h : α → Reader ε β), (r >>= h) s = (r s).bind (fun out => h out.1 out.2) :=
      fun _ _ => rfl
    rcases hs : p s with e | ⟨x, s'⟩
    · rw [hbind, hbind, ← heq, hs]
      exact .inr rfl
    · rcases hf x s' with hfails | hrest
      · exact .inl (fails_bind.2 (.inr ⟨x, s', hs, hfails⟩))
      · rw [hbind, hbind, ← heq, hs]
        exact .inr hrest

/-- Many times a reader refines as many times the other. -/
theorem Refines.times {p q : Reader ε α} (h : Refines P p q) (n : Nat) : Refines P (p.times n) (q.times n) := by
  induction n with
  | zero => exact refines_self _
  | succ n ih => exact h.bind (fun x => ih.bind (fun xs => refines_self _))

/-- A reader refines another when the errors of both are wrapped. -/
theorem Refines.mapError {f : ε → ε} {p q : Reader ε α} (h : Refines P p q) (hf : ∀ e, P e → P (f e)) :
    Refines P (p.mapError f) (q.mapError f) := by
  intro s
  rcases h s with ⟨e, he, hP⟩ | heq
  · exact .inl (fails_mapError.2 ⟨e, he, hf e hP⟩)
  · exact .inr (congrArg (Except.mapError f) heq)

/-- Where both readers succeed, they take the same bytes and return values that are related. -/
def Agree (R : α → β → Prop) (p : Reader ε α) (q : Reader ε β) : Prop :=
  ∀ (s : Bytes) (x : α) (s' : Bytes) (y : β) (s'' : Bytes), p s = .ok (x, s') → q s = .ok (y, s'') → R x y ∧ s' = s''

/-- Readers that agree on more agree on less. -/
theorem Agree.mono {R R' : α → β → Prop} {p : Reader ε α} {q : Reader ε β} (h : Agree R p q)
    (hR : ∀ x y, R x y → R' x y) :
    Agree R' p q := by
  intro s x s' y s'' hx hy
  obtain ⟨hxy, hs⟩ := h s x s' y s'' hx hy
  exact ⟨hR x y hxy, hs⟩

/-- A reader agrees with itself. -/
theorem agree_self (p : Reader ε α) : Agree Eq p p := by
  intro s x s' y s'' hx hy
  rw [hx, Except.ok.injEq, Prod.mk.injEq] at hy
  exact hy

/-- Two readers that return agree on what they return. -/
theorem agree_pure {R : α → β → Prop} {x : α} {y : β} (h : R x y) : Agree R (pure x : Reader ε α) (pure y) := by
  intro s x' s' y' s'' hx hy
  obtain ⟨rfl, rfl⟩ := pure_eq_ok.1 hx
  obtain ⟨rfl, rfl⟩ := pure_eq_ok.1 hy
  exact ⟨h, rfl⟩

/-- A reader that fails agrees with all. -/
theorem agree_fail_left {R : α → β → Prop} (e : ε) (q : Reader ε β) : Agree R (fail e : Reader ε α) q :=
  fun _ _ _ _ _ h => nomatch h

/-- Readers one after another agree when the first ones do, and the second ones after values that are related. -/
theorem Agree.bind {γ δ : Type} {R : α → β → Prop} {S : γ → δ → Prop} {p : Reader ε α} {q : Reader ε β}
    {f : α → Reader ε γ} {g : β → Reader ε δ} (hp : Agree R p q) (hf : ∀ x y, R x y → Agree S (f x) (g y)) :
    Agree S (p >>= f) (q >>= g) := by
  intro s x s' y s'' hx hy
  obtain ⟨x₁, s₁, hp₁, hx⟩ := bind_eq_ok.1 hx
  obtain ⟨y₁, s₂, hq₁, hy⟩ := bind_eq_ok.1 hy
  obtain ⟨hxy, rfl⟩ := hp s x₁ s₁ y₁ s₂ hp₁ hq₁
  exact hf x₁ y₁ hxy s₁ x s' y s'' hx hy

/-- What follows the same reader. -/
theorem agree_bind_self {γ δ : Type} {S : γ → δ → Prop} {p : Reader ε α} {f : α → Reader ε γ} {g : α → Reader ε δ}
    (hf : ∀ x, Agree S (f x) (g x)) : Agree S (p >>= f) (p >>= g) :=
  (agree_self p).bind (fun x _ h => h ▸ hf x)

/-- Many times two readers agree position by position. -/
theorem Agree.times {R : α → β → Prop} {p : Reader ε α} {q : Reader ε β} (h : Agree R p q) (n : Nat) :
    Agree (List.Forall₂ R) (p.times n) (q.times n) := by
  induction n with
  | zero => exact agree_pure .nil
  | succ n ih => exact h.bind (fun x y hxy => ih.bind (fun xs ys hxs => agree_pure (.cons hxy hxs)))

end Reader

end Ollama.Lib
