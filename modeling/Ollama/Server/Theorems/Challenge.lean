import Ollama.Server.Lemmas.Challenge

/-!
# The values of a challenge

`getValue` looks for a key in the whole text of a challenge, so that it finds the key at the end of the name of
another parameter and in the value of another one too, and reads on from there. The text `key=` at its end is sliced
out of range. `parseRegistryChallenge` gives the values of the parameters exactly when what is read at the first place
of each key is the value of that key (`challenge_parsed_iff`).
-/

namespace Ollama.Server

open Lib

/-- The keys that are looked for in a challenge. -/
def challengeKeys : List Bytes := [ascii "realm", ascii "service", ascii "scope"]

/-- The text of a challenge in which the keys are looked for. -/
def trimBearer (challenge : Bytes) : Bytes :=
  if (ascii "Bearer ").isPrefixOf challenge then challenge.drop 7 else challenge

/-- The text of parameters, without `Bearer`. -/
def renderParams : List (Bytes × Bytes) → Bytes
  | [] => []
  | (name, value) :: rest =>
    name ++ ascii "=" ++ 0x22 :: (value ++ 0x22 :: (if rest.isEmpty then [] else 0x2c :: renderParams rest))

/-- The value of a parameter, and nothing without it. -/
def valueOf (key : Bytes) (params : List (Bytes × Bytes)) : Bytes :=
  ((params.find? (fun p => p.1 = key)).map Prod.snd).getD []

/-- A value is what is read from the quote behind another value on: nothing at the end, and the comma with the next
name if the quote behind it is before a comma. -/
def ReadsBehind (val : Bytes) : List (Bytes × Bytes) → Prop
  | [] => val = []
  | (name, value) :: _ => value.head? = some 0x2c ∧ 0x2c :: (name ++ ascii "=") = val

/-- A value is what is read of parameters for a key. The first place of the key is at the end of a name, before the
value that is read. Or it is within a name: then the rest of the name is read without its first byte, if the quote
behind it is before a comma. Or it is in a value: then the rest of this value is read without its first byte, or what
is behind the value. -/
def ReadsAs (key val : Bytes) : List (Bytes × Bytes) → Prop
  | [] => val = []
  | (name, value) :: rest =>
    match index (key ++ ascii "=") (name ++ ascii "="), index (key ++ ascii "=") value with
    | some i, _ =>
      if i + key.length = name.length then value = val
      else value.head? = some 0x2c ∧ (name ++ ascii "=").drop (i + key.length + 2) = val
    | none, some i => if i + key.length + 1 < value.length then value.drop (i + key.length + 2) = val
        else ReadsBehind val rest
    | none, none => ReadsAs key val rest

namespace ChallengeAux

variable {key val name value : Bytes} {rest params : List (Bytes × Bytes)}

/-- What follows a parameter. -/
theorem head_rest (rest : List (Bytes × Bytes)) :
    ((if rest.isEmpty then [] else 0x2c :: renderParams rest) : Bytes).head?.getD 0x2c = 0x2c := by
  cases rest <;> rfl

theorem head_value {s : Bytes} : (value ++ 0x22 :: s).head?.getD 0x2c = 0x2c ↔ value.head? = some 0x2c := by
  cases value <;> simp

/-- A value that ends a text or is before a comma is read. -/
theorem quoted_value {s : Bytes} (hvalue : (0x22 : UInt8) ∉ value) (hs : s.head?.getD 0x2c = 0x2c) :
    quoted (value ++ 0x22 :: s) = value := by
  rw [quoted_append hvalue, quoted_quote, if_pos hs, List.append_nil]

/-- What is read as a text without quotes does not go past one. -/
theorem quoted_eq_iff {v s : Bytes} (hv : (0x22 : UInt8) ∉ v) (hval : (0x22 : UInt8) ∉ val) :
    quoted (v ++ 0x22 :: (value ++ 0x22 :: s)) = val ↔ value.head? = some 0x2c ∧ v = val := by
  rw [quoted_append hv, quoted_quote]
  split
  · rename_i hhead
    rw [List.append_nil]
    exact ⟨fun h => ⟨head_value.1 hhead, h⟩, And.right⟩
  · rename_i hhead
    refine ⟨fun h => (hval ?_).elim, fun h => (hhead (head_value.2 h.1)).elim⟩
    rw [← h]
    simp

/-- What is read from a place in a name. -/
theorem getValue_name {i : Nat} {s : Bytes} (hkey : (0x22 : UInt8) ∉ key ++ ascii "=") (hname : (0x22 : UInt8) ∉ name)
    (hvalue : (0x22 : UInt8) ∉ value) (hval : (0x22 : UInt8) ∉ val) (hs : s.head?.getD 0x2c = 0x2c)
    (h : index (key ++ ascii "=") (name ++ ascii "=") = some i) :
    getValue (name ++ ascii "=" ++ 0x22 :: (value ++ 0x22 :: s)) key = some val ↔
      if i + key.length = name.length then value = val
      else value.head? = some 0x2c ∧ (name ++ ascii "=").drop (i + key.length + 2) = val := by
  have hone : (ascii "=").length = 1 := rfl
  have hlen := (index_eq_some_iff.1 h).2.1.length_le
  rw [List.length_append, List.length_drop, List.length_append, hone] at hlen
  rw [getValue_found hkey h, Option.some.injEq]
  split
  · rename_i hend
    rw [List.drop_of_length_le (by rw [List.length_append, hone]; omega), List.nil_append, List.tail_cons,
      quoted_value hvalue hs]
  · have hin : i + key.length + 1 < (name ++ ascii "=").length := by
      rw [List.length_append, hone]
      omega
    have hquote : (0x22 : UInt8) ∉ (name ++ ascii "=").drop (i + key.length + 2) := by
      intro hmem
      rcases List.mem_append.1 (List.mem_of_mem_drop hmem) with hmem | hmem
      · exact hname hmem
      · exact absurd hmem (by decide)
    rw [List.drop_eq_getElem_cons hin, List.cons_append, List.tail_cons, quoted_eq_iff hquote hval]

/-- What is read from a place in a value. -/
theorem getValue_value {i : Nat} (hkey : (0x22 : UInt8) ∉ key ++ ascii "=") (hvalue : (0x22 : UInt8) ∉ value)
    (hval : (0x22 : UInt8) ∉ val) (hrest : ∀ p ∈ rest, (0x22 : UInt8) ∉ p.1)
    (h : index (key ++ ascii "=") value = some i) :
    getValue (value ++ 0x22 :: (if rest.isEmpty then [] else 0x2c :: renderParams rest)) key = some val ↔
      if i + key.length + 1 < value.length then value.drop (i + key.length + 2) = val else ReadsBehind val rest := by
  rw [getValue_found hkey h, Option.some.injEq]
  by_cases hin : i + key.length + 1 < value.length
  · rw [if_pos hin]
    have hquote : (0x22 : UInt8) ∉ value.drop (i + key.length + 2) := fun hmem => hvalue (List.mem_of_mem_drop hmem)
    rw [List.drop_eq_getElem_cons hin, List.cons_append, List.tail_cons, quoted_value hquote (head_rest rest)]
  · rw [if_neg hin, List.drop_of_length_le (by omega), List.nil_append, List.tail_cons]
    cases rest with
    | nil => exact eq_comm
    | cons p rest =>
      obtain ⟨name', value'⟩ := p
      have hquote : (0x22 : UInt8) ∉ 0x2c :: (name' ++ ascii "=") := by
        intro hmem
        rcases List.mem_cons.1 hmem with hmem | hmem
        · exact absurd hmem (by decide)
        · rcases List.mem_append.1 hmem with hmem | hmem
          · exact hrest _ (List.mem_cons_self ..) hmem
          · exact absurd hmem (by decide)
      exact quoted_eq_iff hquote hval

theorem getValue_nil (key : Bytes) : getValue [] key = some [] := by
  rw [getValue_eq, index, if_neg key_ne_nil]
  rfl

/-- What `getValue` gives of parameters. -/
theorem getValue_render (hquote : (0x22 : UInt8) ∉ key ++ ascii "=") (hcomma : (0x2c : UInt8) ∉ key ++ ascii "=")
    (hval : (0x22 : UInt8) ∉ val) (hparams : ∀ p ∈ params, (0x22 : UInt8) ∉ p.1 ∧ (0x22 : UInt8) ∉ p.2) :
    getValue (renderParams params) key = some val ↔ ReadsAs key val params := by
  induction params with
  | nil =>
    rw [renderParams, getValue_nil, Option.some.injEq, ReadsAs]
    exact eq_comm
  | cons p rest ih =>
    obtain ⟨name, value⟩ := p
    obtain ⟨⟨hname, hvalue⟩, hrest⟩ := List.forall_mem_cons.1 hparams
    rw [renderParams, ReadsAs.eq_def]
    dsimp only
    cases hn : index (key ++ ascii "=") (name ++ ascii "=") with
    | some i => exact getValue_name hquote hname hvalue hval (head_rest rest) hn
    | none =>
      rw [getValue_skip hquote hn]
      cases hv : index (key ++ ascii "=") value with
      | some i => exact getValue_value hquote hvalue hval (fun p hp => (hrest p hp).1) hv
      | none =>
        rw [getValue_skip hquote hv]
        cases rest with
        | nil => exact ih hrest
        | cons q rest =>
          have hskip := getValue_skip (s := []) (t := renderParams (q :: rest)) hcomma
            (by rw [index, if_neg key_ne_nil])
          exact (iff_of_eq (congrArg (· = some val) hskip)).trans (ih hrest)

theorem valueOf_notMem (hparams : ∀ p ∈ params, (0x22 : UInt8) ∉ p.1 ∧ (0x22 : UInt8) ∉ p.2) (key : Bytes) :
    (0x22 : UInt8) ∉ valueOf key params := by
  unfold valueOf
  cases hfind : params.find? (fun p => p.1 = key) with
  | none => exact List.not_mem_nil
  | some p => exact (hparams p (List.mem_of_find?_eq_some hfind)).2

theorem parseRegistryChallenge_eq_some {challenge : Bytes} {c : RegistryChallenge} :
    parseRegistryChallenge challenge = some c ↔
    getValue (trimBearer challenge) (ascii "realm") = some c.realm ∧
      getValue (trimBearer challenge) (ascii "service") = some c.service ∧
      getValue (trimBearer challenge) (ascii "scope") = some c.scope := by
  obtain ⟨realm, service, scope⟩ := c
  unfold parseRegistryChallenge
  change (getValue (trimBearer challenge) (ascii "realm")).bind _ = _ ↔ _
  simp only [Option.bind_eq_some_iff, Option.map_eq_some_iff, RegistryChallenge.mk.injEq]
  constructor
  · rintro ⟨_, h1, _, h2, _, h3, rfl, rfl, rfl⟩
    exact ⟨h1, h2, h3⟩
  · rintro ⟨h1, h2, h3⟩
    exact ⟨_, h1, _, h2, _, h3, rfl, rfl, rfl⟩

theorem trimBearer_append (s : Bytes) : trimBearer (ascii "Bearer " ++ s) = s := by
  rw [trimBearer, if_pos (List.isPrefixOf_iff_prefix.2 (List.prefix_append _ _))]
  rfl

end ChallengeAux

open ChallengeAux

/-- **A challenge is parsed without a panic exactly when the first place of no key is at its end, and the values of
parameters are found exactly when each is what is read at the first place of its key.** -/
theorem challenge_parsed_iff (challenge : Bytes) (params : List (Bytes × Bytes))
    (hparams : ∀ p ∈ params, (0x22 : UInt8) ∉ p.1 ∧ (0x22 : UInt8) ∉ p.2) :
    (parseRegistryChallenge challenge ≠ none ↔ ∀ key ∈ challengeKeys, ∀ i,
      index (key ++ ascii "=") (trimBearer challenge) = some i →
      (trimBearer challenge).length ≠ i + key.length + 1) ∧
    (parseRegistryChallenge (ascii "Bearer " ++ renderParams params) =
        some ⟨valueOf (ascii "realm") params, valueOf (ascii "service") params, valueOf (ascii "scope") params⟩ ↔
      ∀ key ∈ challengeKeys, ReadsAs key (valueOf key params) params) := by
  constructor
  · rw [Ne, parseRegistryChallenge_eq_none_iff]
    constructor
    · intro h key hkey i hi hlen
      exact h ⟨_, key, i, rfl, hkey, hi, hlen⟩
    · rintro h ⟨_, key, i, rfl, hkey, hi, hlen⟩
      exact h key hkey i hi hlen
  · have hread : ∀ key, (0x22 : UInt8) ∉ key ++ ascii "=" → (0x2c : UInt8) ∉ key ++ ascii "=" →
        (getValue (renderParams params) key = some (valueOf key params) ↔ ReadsAs key (valueOf key params) params) :=
      fun key hquote hcomma => getValue_render hquote hcomma (valueOf_notMem hparams key) hparams
    rw [parseRegistryChallenge_eq_some, trimBearer_append, hread _ (by decide) (by decide),
      hread _ (by decide) (by decide), hread _ (by decide) (by decide)]
    simp only [challengeKeys, List.forall_mem_cons, List.not_mem_nil, false_imp_iff, implies_true, and_true]

/-- The challenge of a registry. -/
def registryParams : List (Bytes × Bytes) :=
  [(ascii "realm", ascii "https://ollama.com/token"), (ascii "service", ascii "ollama.com"),
    (ascii "scope", ascii "repository:a:pull,push")]

theorem challenge_parsed_registry : (∀ p ∈ registryParams, (0x22 : UInt8) ∉ p.1 ∧ (0x22 : UInt8) ∉ p.2) ∧
    parseRegistryChallenge (ascii "Bearer " ++ renderParams registryParams) =
      some ⟨ascii "https://ollama.com/token", ascii "ollama.com", ascii "repository:a:pull,push"⟩ := by
  have hparams : ∀ p ∈ registryParams, (0x22 : UInt8) ∉ p.1 ∧ (0x22 : UInt8) ∉ p.2 := by decide
  refine ⟨hparams, (challenge_parsed_iff [] registryParams hparams).2.2 ?_⟩
  simp only [challengeKeys, List.forall_mem_cons, List.not_mem_nil, false_imp_iff, implies_true, and_true]
  exact ⟨rfl, rfl, rfl⟩

/-- A challenge that ends with a key panics, and a key in the value of another parameter hides its own value. -/
theorem challenge_misread : ¬(∀ challenge, parseRegistryChallenge challenge ≠ none) ∧
    ¬(∀ params : List (Bytes × Bytes), (params.map Prod.fst).Nodup → (∀ p ∈ params, (0x22 : UInt8) ∉ p.2) →
      parseRegistryChallenge (ascii "Bearer " ++ renderParams params) =
        some ⟨valueOf (ascii "realm") params, valueOf (ascii "service") params, valueOf (ascii "scope") params⟩) := by
  refine ⟨fun h => h (ascii "Bearer realm=") (by decide), fun h => ?_⟩
  have hread := h [(ascii "error", ascii "no realm=x"), (ascii "realm", ascii "r")] (by decide) (by decide)
  exact absurd hread (by decide)

end Ollama.Server
