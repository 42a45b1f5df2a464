import Mathlib.Data.List.Perm.Subperm
import Mathlib.Data.List.Nodup
import Mathlib.Data.List.Range

/-!
# Allocations

Places that each hold a key or nothing, beside a table that says which keys are in use. They match when the keys in
use are those that some place holds, and no two places hold the same one. Claiming a free key for an empty place and
releasing the key of a place keep this; and as long as a place is empty, a key is free, if there are as many keys as
places.
-/

namespace Ollama.Lib

/-- How a count over a list changes when one entry is replaced: the count loses the old one and gets the new one. -/
theorem countP_replace {α : Type*} {l : List α} {i : Nat} {x : α} (h : l[i]? = some x) (p : α → Bool) (y : α) :
    (l.set i y).countP p + (if p x then 1 else 0) = l.countP p + if p y then 1 else 0 := by
  obtain ⟨hlt, hget⟩ := List.getElem?_eq_some_iff.1 h
  rw [List.countP_set hlt, hget]
  split
  · rename_i hx
    have hpos : 0 < l.countP p := List.countP_pos_iff.2 ⟨x, List.mem_of_getElem? h, hx⟩
    omega
  · omega

/-- Places with keys, and which keys are in use. -/
structure Allocation where
  places : List (Option Nat)
  used : List Bool

namespace Allocation

variable {a : Allocation}

/-- How many places hold a key. -/
def live (a : Allocation) : Nat := a.places.countP Option.isSome

/-- A place is given a key. -/
def claim (a : Allocation) (i key : Nat) : Allocation := ⟨a.places.set i (some key), a.used.set key true⟩

/-- A place gives up its key. -/
def release (a : Allocation) (i key : Nat) : Allocation := ⟨a.places.set i none, a.used.set key false⟩

/-- The keys in use are those that the places hold, each held by one place. -/
structure Matched (a : Allocation) : Prop where
  used_iff : ∀ key, a.used[key]? = some true ↔ some key ∈ a.places
  distinct : ∀ i j key : Nat, a.places[i]? = some (some key) → a.places[j]? = some (some key) → i = j

/-- No place holds a key at first. -/
theorem matched_empty (n : Nat) : Matched ⟨List.replicate n none, List.replicate n false⟩ := by
  refine ⟨fun key => ⟨fun h => ?_, fun h => ?_⟩, fun i j key h => ?_⟩
  · exact absurd (List.eq_of_mem_replicate (List.mem_of_getElem? h)) nofun
  · exact absurd (List.eq_of_mem_replicate h) nofun
  · exact absurd (List.eq_of_mem_replicate (List.mem_of_getElem? h)) nofun

/-- What a place holds after another has been set. -/
theorem getElem?_set_cases {α : Type*} {l : List α} {i j : Nat} {x y : α} (h : (l.set i x)[j]? = some y) :
    (j = i ∧ y = x) ∨ (j ≠ i ∧ l[j]? = some y) := by
  by_cases hj : j = i
  · subst hj
    have hlt : j < l.length := (List.length_set ▸ (List.getElem?_eq_some_iff.1 h).1 :)
    rw [List.getElem?_set_self hlt] at h
    exact .inl ⟨rfl, (Option.some.inj h).symm⟩
  · rw [List.getElem?_set_ne (Ne.symm hj)] at h
    exact .inr ⟨hj, h⟩

theorem Matched.claim (h : a.Matched) {i key : Nat} (hi : a.places[i]? = some none) (hkey : a.used[key]? = some false) :
    (a.claim i key).Matched := by
  have hilt := (List.getElem?_eq_some_iff.1 hi).1
  have hklt := (List.getElem?_eq_some_iff.1 hkey).1
  have hfree : some key ∉ a.places := by
    rw [← h.used_iff, hkey]
    nofun
  constructor
  · intro k
    by_cases hk : k = key
    · subst hk
      show (a.used.set k true)[k]? = some true ↔ some k ∈ a.places.set i (some k)
      rw [List.getElem?_set_self hklt]
      exact ⟨fun _ => List.mem_set hilt _, fun _ => rfl⟩
    · show (a.used.set key true)[k]? = some true ↔ some k ∈ a.places.set i (some key)
      rw [List.getElem?_set_ne (Ne.symm hk), h.used_iff]
      constructor
      · intro hmem
        obtain ⟨j, hj⟩ := List.mem_iff_getElem?.1 hmem
        have hne : j ≠ i := by
          rintro rfl
          rw [hi] at hj
          nomatch hj
        exact List.mem_of_getElem? ((List.getElem?_set_ne (Ne.symm hne)).trans hj)
      · intro hmem
        rcases List.mem_or_eq_of_mem_set hmem with hold | heq
        · exact hold
        · exact absurd (Option.some.inj heq) hk
  · intro j j' k hj hj'
    rcases getElem?_set_cases hj with ⟨rfl, hk⟩ | ⟨_, hold⟩ <;> rcases getElem?_set_cases hj' with ⟨rfl, hk'⟩ |
      ⟨_, hold'⟩
    · rfl
    · rw [hk] at hold'
      exact absurd (List.mem_of_getElem? hold') hfree
    · rw [hk'] at hold
      exact absurd (List.mem_of_getElem? hold) hfree
    · exact h.distinct j j' k hold hold'

theorem Matched.release (h : a.Matched) {i key : Nat} (hi : a.places[i]? = some (some key)) :
    (a.release i key).Matched := by
  constructor
  · intro k
    by_cases hk : k = key
    · subst hk
      show (a.used.set k false)[k]? = some true ↔ some k ∈ a.places.set i none
      constructor
      · intro hused
        rcases getElem?_set_cases hused with ⟨_, htrue⟩ | ⟨hne, _⟩
        · nomatch htrue
        · exact absurd rfl hne
      · intro hmem
        obtain ⟨j, hj⟩ := List.mem_iff_getElem?.1 hmem
        rcases getElem?_set_cases hj with ⟨_, heq⟩ | ⟨hne, hold⟩
        · nomatch heq
        · exact absurd (h.distinct j i k hold hi) hne
    · show (a.used.set key false)[k]? = some true ↔ some k ∈ a.places.set i none
      rw [List.getElem?_set_ne (Ne.symm hk), h.used_iff]
      constructor
      · intro hmem
        obtain ⟨j, hj⟩ := List.mem_iff_getElem?.1 hmem
        have hne : j ≠ i := by
          rintro rfl
          rw [hi] at hj
          exact hk (Option.some.inj (Option.some.inj hj)).symm
        exact List.mem_of_getElem? ((List.getElem?_set_ne (Ne.symm hne)).trans hj)
      · intro hmem
        rcases List.mem_or_eq_of_mem_set hmem with hold | heq
        · exact hold
        · nomatch heq
  · intro j j' k hj hj'
    rcases getElem?_set_cases hj with ⟨_, hk⟩ | ⟨_, hold⟩
    · nomatch hk
    · rcases getElem?_set_cases hj' with ⟨_, hk'⟩ | ⟨_, hold'⟩
      · nomatch hk'
      · exact h.distinct j j' k hold hold'

theorem live_claim {i key : Nat} (hi : a.places[i]? = some none) : (a.claim i key).live = a.live + 1 :=
  countP_replace hi Option.isSome (some key)

theorem live_release {i key : Nat} (hi : a.places[i]? = some (some key)) : (a.release i key).live + 1 = a.live :=
  countP_replace hi Option.isSome none

theorem length_claim (a : Allocation) (i key : Nat) :
    (a.claim i key).places.length = a.places.length ∧ (a.claim i key).used.length = a.used.length :=
  ⟨List.length_set, List.length_set⟩

theorem length_release (a : Allocation) (i key : Nat) :
    (a.release i key).places.length = a.places.length ∧ (a.release i key).used.length = a.used.length :=
  ⟨List.length_set, List.length_set⟩

/-- A place is empty when fewer places hold a key than there are. -/
theorem exists_empty (h : a.live < a.places.length) : none ∈ a.places := by
  by_contra hnone
  refine absurd (List.countP_eq_length.2 fun o ho => ?_) (Nat.ne_of_lt h)
  cases o with
  | none => exact absurd ho hnone
  | some _ => rfl

/-- A key is free when a place is empty. -/
theorem Matched.exists_free (h : a.Matched) (hlen : a.used.length = a.places.length)
    (hempty : a.live < a.places.length) :
    ∃ key : Nat, a.used[key]? = some false := by
  by_contra hall
  have hheld : (List.range a.used.length).map some ⊆ a.places.filter Option.isSome := by
    intro o ho
    obtain ⟨key, hkey, rfl⟩ := List.mem_map.1 ho
    have hlt := List.mem_range.1 hkey
    refine List.mem_filter.2 ⟨(h.used_iff key).1 ?_, rfl⟩
    cases hb : a.used[key] with
    | true => rw [List.getElem?_eq_getElem hlt, hb]
    | false => exact absurd ⟨key, (List.getElem?_eq_getElem hlt).trans (congrArg some hb)⟩ hall
  have hnodup : ((List.range a.used.length).map some).Nodup := List.nodup_range.map (fun _ _ h => Option.some.inj h)
  have hle := (List.subperm_of_subset hnodup hheld).length_le
  rw [List.length_map, List.length_range, ← List.countP_eq_length_filter] at hle
  exact absurd hempty (by rw [← hlen]; exact Nat.not_lt.2 hle)

end Allocation

end Ollama.Lib
