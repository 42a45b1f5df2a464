import Mathlib.Algebra.BigOperators.Group.List.Lemmas
import Mathlib.Algebra.FreeMonoid.Basic
import Ollama.Server.ToolCalls

/-!
# Tool calls and the order of maps

A range over a map may take its entries in any order, and in another one each time. So `parseToolCalls` may find the
key of the name and that of the arguments at any entry of the template object that has a text or a map, and the
objects in the members of an object in any order (`MayParse`). All these orders give the same tool calls exactly when
the keys that may be found give the same ones, and the tool calls of any two members of an object are the same in both
orders (`parseToolCalls_order_iff`). They do for a template object with one text and one map, where no object of the
response has tool calls in two of its members (`mayParse_iff_of_plain`).
-/

namespace Ollama.Server

open Lib Utf8 Json

/-! ## Ranges over maps -/

/-- What `collect` may return: the entries of each map are taken in some order. -/
inductive Collected : Any → List Obj → Prop where
  | object {fields : List (Bytes × Any)} {parts : List ((Bytes × Any) × List Obj)}
      (order : (parts.map Prod.fst).Perm fields)
      (members : ∀ p ∈ parts, Collected p.1.2 p.2) : Collected (.object fields) (fields :: parts.flatMap Prod.snd)
  | array {vs : List Any} {parts : List (Any × List Obj)} (order : parts.map Prod.fst = vs) (elements : ∀ p ∈ parts,
      Collected p.1 p.2) :
      Collected (.array vs) (parts.flatMap Prod.snd)
  | null : Collected .null []
  | bool (b : Bool) : Collected (.bool b) []
  | number (bits : UInt64) : Collected (.number bits) []
  | string (s : Bytes) : Collected (.string s) []

/-- What `parseToolCalls` returns with these keys and these objects. -/
def foundCalls (keys : Bytes × Bytes) (responseObjects objs : List Obj) : Option (List ToolCall) :=
  if keys.1 = [] ∨ keys.2 = [] then none
  else if responseObjects.isEmpty then none
  else if (objs.filterMap (toolCall? keys.1 keys.2)).isEmpty then none
  else some (objs.filterMap (toolCall? keys.1 keys.2))

/-- A map as `any`. -/
def Obj.any (obj : Obj) : Any := .object obj

/-- The objects of a response in turn. -/
def responses (objs : List Obj) : Any := .array (objs.map Obj.any)

/-- What `parseToolCalls` may return: the entries of the template object are taken in some order, and so are those of
the maps of the response. -/
def MayParse (u : Unmarshal Obj) (rendered : Option Bytes) (s : Bytes) (result : Option (List ToolCall)) : Prop :=
  match rendered with
  | none => result = none
  | some b =>
    match parseObjects u b with
    | [] => result = none
    | templateObject :: _ => ∃ (order : Obj) (objs : List Obj), List.Perm order templateObject ∧
        Collected (responses (parseObjects u s)) objs ∧ result = foundCalls (toolKeys order) (parseObjects u s) objs

/-! ## Where the order does not matter -/

/-- The key of a text. -/
def stringKey : Bytes × Any → Option Bytes
  | (k, .string _) => some k
  | _ => none

/-- The key of a map. -/
def objectKey : Bytes × Any → Option Bytes
  | (k, .object _) => some k
  | _ => none

/-- The keys that may be found: one of these, or none if there are none. -/
def candidates (key : Bytes × Any → Option Bytes) (obj : Obj) : List Bytes :=
  if List.filterMap key obj = [] then [[]] else List.filterMap key obj

/-- The tool calls in a value, as it is written. -/
def callsIn (name arguments : Bytes) (v : Any) : List ToolCall := (collect v).filterMap (toolCall? name arguments)

/-- The tool calls of any two members of an object are the same in both orders. -/
inductive Orderless (name arguments : Bytes) : Any → Prop where
  | object {fields : List (Bytes × Any)} (members : ∀ e ∈ fields, Orderless name arguments e.2)
      (exchange : fields.Pairwise (fun e e' => callsIn name arguments e.2 ++ callsIn name arguments e'.2 =
        callsIn name arguments e'.2 ++ callsIn name arguments e.2)) : Orderless name arguments (.object fields)
  | array {vs : List Any} (elements : ∀ v ∈ vs, Orderless name arguments v) : Orderless name arguments (.array vs)
  | null : Orderless name arguments .null
  | bool (b : Bool) : Orderless name arguments (.bool b)
  | number (bits : UInt64) : Orderless name arguments (.number bits)
  | string (s : Bytes) : Orderless name arguments (.string s)

/-- The tool calls with these keys, of which both are needed. -/
def callsFor (name arguments : Bytes) (v : Any) : List ToolCall :=
  if name = [] ∨ arguments = [] then [] else callsIn name arguments v

/-- No order of a map matters: that of the response for no keys that may be found, and all these keys give the same
tool calls. -/
def OrderFree (u : Unmarshal Obj) (rendered : Option Bytes) (s : Bytes) : Prop :=
  ∀ b ∈ rendered, ∀ templateObject ∈ (parseObjects u b).head?,
    ∀ name ∈ candidates stringKey templateObject, ∀ arguments ∈ candidates objectKey templateObject,
      (name ≠ [] → arguments ≠ [] → Orderless name arguments (responses (parseObjects u s))) ∧
      ∀ name' ∈ candidates stringKey templateObject, ∀ arguments' ∈ candidates objectKey templateObject,
        callsFor name arguments (responses (parseObjects u s)) =
        callsFor name' arguments' (responses (parseObjects u s))

/-- The template object has at most one text and at most one map, and of any two members of an object in the response
only one has tool calls. -/
def Plain (u : Unmarshal Obj) (rendered : Option Bytes) (s : Bytes) : Prop :=
  ∀ b ∈ rendered, ∀ templateObject ∈ (parseObjects u b).head?,
    (List.filterMap stringKey templateObject).length ≤ 1 ∧ (List.filterMap objectKey templateObject).length ≤ 1 ∧
      ∀ name arguments : Bytes, toolKeys templateObject = (name, arguments) →
      ∀ obj ∈ collect (responses (parseObjects u s)),
        List.Pairwise (fun e e' : Bytes × Any => callsIn name arguments e.2 = [] ∨ callsIn name arguments e'.2 = []) obj

namespace OrderAux

variable {name arguments : Bytes}

/-! ## Values -/

mutual

/-- What holds of a value if it holds of all its members or elements, holds of every value. -/
theorem any_induction {P : Any → Prop}
    (object : ∀ fields : List (Bytes × Any), (∀ e ∈ fields, P e.2) → P (.object fields))
    (array : ∀ vs : List Any, (∀ v ∈ vs, P v) → P (.array vs)) (null : P .null) (bool : ∀ b, P (.bool b))
    (number : ∀ bits, P (.number bits)) (string : ∀ s, P (.string s)) : ∀ v, P v
  | .object fields => object fields (entries_induction object array null bool number string fields)
  | .array vs => array vs (elements_induction object array null bool number string vs)
  | .null => null
  | .bool b => bool b
  | .number bits => number bits
  | .string s => string s

theorem entries_induction {P : Any → Prop}
    (object : ∀ fields : List (Bytes × Any), (∀ e ∈ fields, P e.2) → P (.object fields))
    (array : ∀ vs : List Any, (∀ v ∈ vs, P v) → P (.array vs)) (null : P .null) (bool : ∀ b, P (.bool b))
    (number : ∀ bits, P (.number bits)) (string : ∀ s, P (.string s)) :
    ∀ fields : List (Bytes × Any), ∀ e ∈ fields, P e.2
  | [] => List.forall_mem_nil _
  | (_, v) :: fields => List.forall_mem_cons.2 ⟨any_induction object array null bool number string v,
      entries_induction object array null bool number string fields⟩

theorem elements_induction {P : Any → Prop}
    (object : ∀ fields : List (Bytes × Any), (∀ e ∈ fields, P e.2) → P (.object fields))
    (array : ∀ vs : List Any, (∀ v ∈ vs, P v) → P (.array vs)) (null : P .null) (bool : ∀ b, P (.bool b))
    (number : ∀ bits, P (.number bits)) (string : ∀ s, P (.string s)) : ∀ vs : List Any, ∀ v ∈ vs, P v
  | [] => List.forall_mem_nil _
  | v :: vs => List.forall_mem_cons.2 ⟨any_induction object array null bool number string v,
      elements_induction object array null bool number string vs⟩

end

/-- The members of an object are collected in turn. -/
theorem collectFields_eq (fields : List (Bytes × Any)) :
    collectFields fields = fields.flatMap (fun e => collect e.2) := by
  induction fields with
  | nil => rfl
  | cons e fields ih =>
    obtain ⟨k, v⟩ := e
    rw [collectFields, ih, List.flatMap_cons]

/-- The elements of an array are collected in turn. -/
theorem collectAll_eq (vs : List Any) : collectAll vs = vs.flatMap collect := by
  induction vs with
  | nil => rfl
  | cons v vs ih => rw [collectAll, ih, List.flatMap_cons]

/-- The order in which a map is written is one of those in which it may be taken. -/
theorem collected_collect (v : Any) : Collected v (collect v) := by
  induction v using any_induction with
  | object fields ih =>
    have hparts : (fields.map (fun e => (e, collect e.2))).flatMap Prod.snd = collectFields fields := by
      rw [collectFields_eq, List.flatMap_map]
    rw [collect, ← hparts]
    refine .object ?_ fun p hp => ?_
    · rw [List.map_map]
      exact List.Perm.of_eq (List.map_id fields)
    · obtain ⟨e, he, rfl⟩ := List.mem_map.1 hp
      exact ih e he
  | array vs ih =>
    have hparts : (vs.map (fun v => (v, collect v))).flatMap Prod.snd = collectAll vs := by
      rw [collectAll_eq, List.flatMap_map]
    rw [collect, ← hparts]
    refine .array ?_ fun p hp => ?_
    · rw [List.map_map]
      exact List.map_id vs
    · obtain ⟨v, hv, rfl⟩ := List.mem_map.1 hp
      exact ih v hv
  | null => exact .null
  | bool b => exact .bool b
  | number bits => exact .number bits
  | string s => exact .string s

/-! ## Objects in other orders -/

/-- An object is a tool call or not, and the others follow. -/
theorem filterMap_cons (obj : Obj) (objs : List Obj) : (obj :: objs).filterMap (toolCall? name arguments) =
    (toolCall? name arguments obj).toList ++ objs.filterMap (toolCall? name arguments) := by
  rw [List.filterMap_cons]
  cases toolCall? name arguments obj <;> rfl

/-- The tool calls in an object: itself, if it is one, and those in its members. -/
theorem callsIn_object (fields : List (Bytes × Any)) : callsIn name arguments (.object fields) =
    (toolCall? name arguments fields).toList ++ fields.flatMap (fun e => callsIn name arguments e.2) := by
  refine (filterMap_cons fields (collectFields fields)).trans ?_
  rw [collectFields_eq, List.filterMap_flatMap]
  rfl

/-- The tool calls in an array are those in its elements. -/
theorem callsIn_array (vs : List Any) : callsIn name arguments (.array vs) = vs.flatMap (callsIn name arguments) := by
  rw [callsIn, collect, collectAll_eq, List.filterMap_flatMap]
  rfl

/-- Lists that can be exchanged make up one list in any order. -/
theorem flatMap_perm {α β : Type} {f : α → List β} {l l' : List α} (h : l.Perm l')
    (hl : l.Pairwise (fun x y => f x ++ f y = f y ++ f x)) :
    l.flatMap f = l'.flatMap f := by
  have hprod := List.Perm.prod_eq' (h.map (fun x => FreeMonoid.ofList (f x))) (List.pairwise_map.2 hl)
  have hflat : ∀ m : List α, (m.map (fun x => FreeMonoid.ofList (f x))).prod = FreeMonoid.ofList (m.flatMap f) := by
    intro m
    rw [List.flatMap_def, FreeMonoid.ofList_flatten, List.map_map]
    rfl
  rw [hflat, hflat] at hprod
  exact FreeMonoid.ofList.injective hprod

/-- Where the members can be exchanged, every order gives the same tool calls. -/
theorem Orderless.calls_eq {v : Any} {objs : List Obj} (hv : Orderless name arguments v) (h : Collected v objs) :
    objs.filterMap (toolCall? name arguments) = callsIn name arguments v := by
  induction h with
  | @object fields parts order _ ih =>
    cases hv with
    | object members exchange =>
      have hparts : ∀ p ∈ parts, p.2.filterMap (toolCall? name arguments) = callsIn name arguments p.1.2 :=
        fun p hp => ih p hp (members p.1 (order.mem_iff.1 (List.mem_map_of_mem hp)))
      refine (filterMap_cons fields (parts.flatMap Prod.snd)).trans ?_
      rw [callsIn_object, List.filterMap_flatMap, List.flatMap_congr hparts, flatMap_perm order.symm exchange,
        List.flatMap_map]
  | @array vs parts order _ ih =>
    cases hv with
    | array elements =>
      have hparts : ∀ p ∈ parts, p.2.filterMap (toolCall? name arguments) = callsIn name arguments p.1 :=
        fun p hp => ih p hp (elements p.1 (order ▸ List.mem_map_of_mem hp))
      rw [List.filterMap_flatMap, callsIn_array, List.flatMap_congr hparts, ← order, List.flatMap_map]
  | null => rfl
  | bool b => rfl
  | number bits => rfl
  | string s => rfl

/-- Every order gives the same tool calls. -/
def Settled (name arguments : Bytes) (v : Any) : Prop :=
  ∀ objs, Collected v objs → objs.filterMap (toolCall? name arguments) = callsIn name arguments v

/-- A member that is taken first, in any order of what is in it. -/
theorem collected_first {fields rest : List (Bytes × Any)} {e : Bytes × Any} {objs : List Obj}
    (h : (e :: rest).Perm fields) (he : Collected e.2 objs) :
    Collected (.object fields) (fields :: (objs ++ rest.flatMap (fun e => collect e.2))) := by
  have hparts : ((e, objs) :: rest.map (fun e => (e, collect e.2))).flatMap Prod.snd =
    objs ++ rest.flatMap (fun e => collect e.2) := by
    rw [List.flatMap_cons, List.flatMap_map]
  rw [← hparts]
  refine .object ?_ fun p hp => ?_
  · rw [List.map_cons, List.map_map]
    exact (List.Perm.of_eq (congrArg (e :: ·) (List.map_id rest))).trans h
  · rcases List.mem_cons.1 hp with rfl | hp
    · exact he
    · obtain ⟨e', _, rfl⟩ := List.mem_map.1 hp
      exact collected_collect e'.2

/-- The tool calls where a member is taken first. -/
theorem Settled.first {fields rest : List (Bytes × Any)} {e : Bytes × Any} {objs : List Obj}
    (hv : Settled name arguments (.object fields)) (h : (e :: rest).Perm fields) (he : Collected e.2 objs) :
    objs.filterMap (toolCall? name arguments) ++
      rest.flatMap (fun e => callsIn name arguments e.2) = fields.flatMap (fun e => callsIn name arguments e.2) := by
  have hcalls := hv _ (collected_first h he)
  have hown : (fields :: (objs ++ rest.flatMap (fun e => collect e.2)) : List Obj).filterMap
    (toolCall? name arguments) = _ := filterMap_cons fields (objs ++ rest.flatMap (fun e => collect e.2))
  rw [callsIn_object] at hcalls
  have heq := List.append_cancel_left (hown.symm.trans hcalls)
  rwa [List.filterMap_append, List.filterMap_flatMap] at heq

/-- What is collected of an element in place of what is written there. -/
theorem Settled.element {vs : List Any} {v : Any} (h : Settled name arguments (.array vs)) (hv : v ∈ vs) :
    Settled name arguments v := by
  intro objs hobjs
  obtain ⟨before, after, rfl⟩ := List.append_of_mem hv
  have hparts : (before.map (fun v => (v, collect v)) ++ (v, objs) :: after.map (fun v => (v, collect v))).flatMap
    Prod.snd = before.flatMap collect ++ (objs ++ after.flatMap collect) := by
    rw [List.flatMap_append, List.flatMap_cons, List.flatMap_map, List.flatMap_map]
  have hcollected : Collected (.array (before ++ v :: after))
    (before.flatMap collect ++ (objs ++ after.flatMap collect)) := by
    rw [← hparts]
    refine .array ?_ fun p hp => ?_
    · rw [List.map_append, List.map_cons, List.map_map, List.map_map]
      exact congrArg₂ (fun l r => l ++ v :: r) (List.map_id before) (List.map_id after)
    · rcases List.mem_append.1 hp with hp | hp
      · obtain ⟨w, _, rfl⟩ := List.mem_map.1 hp
        exact collected_collect w
      · rcases List.mem_cons.1 hp with rfl | hp
        · exact hobjs
        · obtain ⟨w, _, rfl⟩ := List.mem_map.1 hp
          exact collected_collect w
  have hcalls := h _ hcollected
  rw [callsIn_array, List.filterMap_append, List.filterMap_append, List.filterMap_flatMap, List.filterMap_flatMap,
    List.flatMap_append, List.flatMap_cons] at hcalls
  exact List.append_cancel_right (List.append_cancel_left hcalls)

/-- Where every order gives the same tool calls, the members can be exchanged. -/
theorem orderless_of_settled (v : Any) : Settled name arguments v → Orderless name arguments v := by
  induction v using any_induction with
  | object fields ih =>
    intro h
    refine .object (fun e he => ih e he fun objs hobjs => ?_) (List.pairwise_iff_forall_sublist.2 fun {e e'} hsub => ?_)
    · obtain ⟨before, after, rfl⟩ := List.append_of_mem he
      have hother := h.first List.perm_middle.symm hobjs
      have hwritten := h.first List.perm_middle.symm (collected_collect e.2)
      exact List.append_cancel_right (hother.trans hwritten.symm)
    · obtain ⟨rest, hperm⟩ := hsub.exists_perm_append
      rw [List.cons_append, List.cons_append, List.nil_append] at hperm
      have hperm' : (e' :: e :: rest).Perm fields := (List.Perm.swap e e' rest).trans hperm.symm
      have hone := h.first hperm.symm (collected_collect e.2)
      have htwo := h.first hperm' (collected_collect e'.2)
      rw [List.flatMap_cons, ← List.append_assoc] at hone htwo
      exact List.append_cancel_right (hone.trans htwo.symm)
  | array vs ih =>
    intro h
    exact .array fun v hv => ih v hv (h.element hv)
  | null => exact fun _ => .null
  | bool b => exact fun _ => .bool b
  | number bits => exact fun _ => .number bits
  | string s => exact fun _ => .string s

/-- Members of which only one has tool calls can be exchanged. -/
theorem orderless_of_collect (v : Any) : (∀ obj ∈ collect v,
    List.Pairwise (fun e e' : Bytes × Any => callsIn name arguments e.2 = [] ∨ callsIn name arguments e'.2 = []) obj) →
      Orderless name arguments v := by
  induction v using any_induction with
  | object fields ih =>
    intro h
    rw [collect, collectFields_eq] at h
    refine .object (fun e he => ih e he fun obj hobj => ?_) ?_
    · exact h obj (List.mem_cons_of_mem fields (List.mem_flatMap.2 ⟨e, he, hobj⟩))
    · refine List.Pairwise.imp (fun {e e'} hone => ?_) (h fields List.mem_cons_self)
      rcases hone with hnil | hnil <;> rw [hnil, List.nil_append, List.append_nil]
  | array vs ih =>
    intro h
    rw [collect, collectAll_eq] at h
    exact .array fun v hv => ih v hv fun obj hobj => h obj (List.mem_flatMap.2 ⟨v, hv, hobj⟩)
  | null => exact fun _ => .null
  | bool b => exact fun _ => .bool b
  | number bits => exact fun _ => .number bits
  | string s => exact fun _ => .string s

/-! ## Keys -/

/-- The keys that are found are the last ones. -/
theorem toolKeys_eq (obj : List (Bytes × Any)) :
    toolKeys obj = ((obj.filterMap stringKey).getLastD [], (obj.filterMap objectKey).getLastD []) := by
  induction obj using List.reverseRecOn with
  | nil => rfl
  | append_singleton obj e ih =>
    unfold toolKeys at ih ⊢
    rw [List.foldl_append, ih, List.filterMap_append, List.filterMap_append]
    obtain ⟨k, v⟩ := e
    cases v <;> simp [stringKey, objectKey]

/-- The key that is found is one that may be found. -/
theorem getLastD_mem_candidates (key : Bytes × Any → Option Bytes) (obj : List (Bytes × Any)) :
    (obj.filterMap key).getLastD [] ∈ candidates key obj := by
  unfold candidates
  generalize List.filterMap key obj = keys
  cases keys using List.reverseRecOn with
  | nil => simp
  | append_singleton keys k => simp

/-- The keys that may be found are those of any order. -/
theorem mem_candidates_perm {key : Bytes × Any → Option Bytes} {obj obj' : List (Bytes × Any)} (h : obj.Perm obj')
    {k : Bytes} :
    k ∈ candidates key obj ↔ k ∈ candidates key obj' := by
  have hkeys : (obj.filterMap key).Perm (obj'.filterMap key) := h.filterMap key
  have hnil : List.filterMap key obj = [] ↔ List.filterMap key obj' = [] :=
    ⟨fun hn => List.Perm.nil_eq (hn ▸ hkeys) |>.symm, fun hn => List.Perm.eq_nil (hn ▸ hkeys)⟩
  unfold candidates
  by_cases hn : List.filterMap key obj = []
  · rw [if_pos hn, if_pos (hnil.1 hn)]
  · rw [if_neg hn, if_neg (mt hnil.2 hn)]
    exact hkeys.mem_iff

/-- Of one key only this one may be found. -/
theorem candidates_single {key : Bytes × Any → Option Bytes} {obj : List (Bytes × Any)}
    (h : (obj.filterMap key).length ≤ 1) {k : Bytes} (hk : k ∈ candidates key obj) :
    k = (obj.filterMap key).getLastD [] := by
  unfold candidates at hk
  split at hk
  · rename_i hnil
    rw [show List.filterMap key obj = [] from hnil]
    exact List.mem_singleton.1 hk
  · obtain ⟨k', hk'⟩ := List.length_eq_one_iff.1 (Nat.le_antisymm h (List.length_pos_of_mem hk))
    rw [hk'] at hk ⊢
    exact List.mem_singleton.1 hk

/-- An entry of one kind can be taken last, and the order of those of another kind stays. -/
theorem exists_last {key : Bytes × Any → Option Bytes} (other : Bytes × Any → Option Bytes)
    (hother : ∀ e, key e ≠ none → other e = none) {obj : List (Bytes × Any)} {k : Bytes} (hk : k ∈ candidates key obj) :
    ∃ order : List (Bytes × Any), order.Perm obj ∧ (order.filterMap key).getLastD [] = k ∧
      order.filterMap other = obj.filterMap other := by
  unfold candidates at hk
  split at hk
  · rename_i hnil
    exact ⟨obj, List.Perm.refl _,
      by rw [show List.filterMap key obj = [] from hnil]; exact (List.mem_singleton.1 hk).symm, rfl⟩
  · obtain ⟨e, he, hkey⟩ := List.mem_filterMap.1 hk
    obtain ⟨before, after, rfl⟩ := List.append_of_mem he
    have hnone := hother e (by rw [hkey]; exact Option.some_ne_none k)
    refine ⟨before ++ after ++ [e], (List.perm_append_singleton e _).trans List.perm_middle.symm, ?_, ?_⟩
    · simp [List.filterMap_append, hkey]
    · simp [List.filterMap_append, hnone]

/-- The keys that may be found. -/
theorem exists_toolKeys {templateObject : List (Bytes × Any)} :
    (∃ order : List (Bytes × Any), order.Perm templateObject ∧ toolKeys order = (name, arguments)) ↔
      name ∈ candidates stringKey templateObject ∧ arguments ∈ candidates objectKey templateObject := by
  constructor
  · rintro ⟨order, horder, hkeys⟩
    rw [toolKeys_eq, Prod.mk.injEq] at hkeys
    rw [← hkeys.1, ← hkeys.2]
    exact ⟨(mem_candidates_perm horder).1 (getLastD_mem_candidates stringKey order),
      (mem_candidates_perm horder).1 (getLastD_mem_candidates objectKey order)⟩
  · rintro ⟨hname, harguments⟩
    obtain ⟨order, horder, hlast, _⟩ := exists_last objectKey (fun e he => by
      obtain ⟨k, v⟩ := e
      cases v <;> first | rfl | exact absurd rfl he) hname
    obtain ⟨order', horder', hlast', hsame⟩ := exists_last stringKey (fun e he => by
      obtain ⟨k, v⟩ := e
      cases v <;> first | rfl | exact absurd rfl he) ((mem_candidates_perm horder).2 harguments)
    exact ⟨order', horder'.trans horder, by rw [toolKeys_eq, hsame, hlast, hlast']⟩

/-! ## Results -/

/-- The tool calls that are returned, if there are any. -/
def returned (calls : List ToolCall) : Option (List ToolCall) := if calls.isEmpty then none else some calls

/-- What is returned says which tool calls there are. -/
theorem returned_injective {calls calls' : List ToolCall} (h : returned calls = returned calls') : calls = calls' := by
  cases calls <;> cases calls' <;> simp_all [returned]

/-- What is returned for keys and objects. -/
theorem foundCalls_eq {objs responseObjects : List Obj} (h : Collected (responses responseObjects) objs) :
    foundCalls (name, arguments) responseObjects objs =
      returned (if name = [] ∨ arguments = [] then [] else objs.filterMap (toolCall? name arguments)) := by
  unfold foundCalls
  by_cases hkeys : name = [] ∨ arguments = []
  · rw [if_pos hkeys, if_pos hkeys]
    rfl
  · rw [if_neg hkeys, if_neg hkeys]
    cases responseObjects with
    | nil =>
      rw [responses, List.map_nil] at h
      cases h with
      | array order _ =>
        rw [List.map_eq_nil_iff.1 order]
        rfl
    | cons obj responseObjects => rfl

/-- What may be returned for a template object: with keys that may be found, and objects in some order. -/
theorem mayParse_iff {u : Unmarshal Obj} {b s : Bytes} {templateObject : Obj} {rest : List Obj}
    {result : Option (List ToolCall)} (hb : parseObjects u b = templateObject :: rest) : MayParse u (some b) s result ↔
      ∃ name ∈ candidates stringKey templateObject, ∃ arguments ∈ candidates objectKey templateObject, ∃ objs,
        Collected (responses (parseObjects u s)) objs ∧
          result = returned (if name = [] ∨ arguments = [] then [] else objs.filterMap (toolCall? name arguments)) := by
  unfold MayParse
  dsimp only
  rw [hb]
  dsimp only
  constructor
  · rintro ⟨order, objs, horder, hobjs, rfl⟩
    obtain ⟨hname, harguments⟩ := exists_toolKeys.1 ⟨order, horder, rfl⟩
    exact ⟨_, hname, _, harguments, objs, hobjs, foundCalls_eq hobjs⟩
  · rintro ⟨name, hname, arguments, harguments, objs, hobjs, rfl⟩
    obtain ⟨order, horder, hkeys⟩ := exists_toolKeys.2 ⟨hname, harguments⟩
    exact ⟨order, objs, horder, hobjs, by rw [hkeys, foundCalls_eq hobjs]⟩

/-- The order in which the maps are written is one of those in which they may be taken. -/
theorem mayParse_parseToolCalls (u : Unmarshal Obj) (rendered : Option Bytes) (s : Bytes) :
    MayParse u rendered s (parseToolCalls u rendered s) := by
  unfold MayParse parseToolCalls
  cases rendered with
  | none => rfl
  | some b =>
    dsimp only
    cases parseObjects u b with
    | nil => rfl
    | cons templateObject rest =>
      have hobjs : collect (responses (parseObjects u s)) =
        (parseObjects u s).flatMap (fun obj => collect (.object obj)) := by
        rw [responses, collect, collectAll_eq, List.flatMap_map]
        rfl
      refine ⟨templateObject, _, List.Perm.refl _, collected_collect _, ?_⟩
      rw [hobjs]
      rfl

end OrderAux

open OrderAux

variable {u : Unmarshal Obj} {rendered : Option Bytes} {s : Bytes}

/-- Where no order matters, keys that may be found and objects in any order give the tool calls of these keys. -/
theorem OrderFree.calls_eq {b : Bytes} {templateObject : Obj} {rest : List Obj} (h : OrderFree u (some b) s)
    (hb : parseObjects u b = templateObject :: rest) {name arguments : Bytes}
    (hname : name ∈ candidates stringKey templateObject)
    (harguments : arguments ∈ candidates objectKey templateObject) {objs : List Obj}
    (hobjs : Collected (responses (parseObjects u s)) objs) :
    (if name = [] ∨ arguments = [] then [] else objs.filterMap (toolCall? name arguments)) =
      callsFor name arguments (responses (parseObjects u s)) := by
  have hone := (h b rfl templateObject (by rw [hb]; rfl) name hname arguments harguments).1
  unfold callsFor
  split
  · rfl
  · rename_i hkeys
    rw [not_or] at hkeys
    exact Orderless.calls_eq (hone hkeys.1 hkeys.2) hobjs

/-- Where no order matters, all results are the same. -/
theorem OrderFree.eq (h : OrderFree u rendered s) {result result' : Option (List ToolCall)}
    (hresult : MayParse u rendered s result) (hresult' : MayParse u rendered s result') : result = result' := by
  cases rendered with
  | none => exact Eq.trans (show result = none from hresult) (Eq.symm (show result' = none from hresult'))
  | some b =>
    cases hb : parseObjects u b with
    | nil =>
      rw [MayParse, hb] at hresult hresult'
      exact Eq.trans (show result = none from hresult) (Eq.symm (show result' = none from hresult'))
    | cons templateObject rest =>
      obtain ⟨name, hname, arguments, harguments, objs, hobjs, rfl⟩ := (mayParse_iff hb).1 hresult
      obtain ⟨name', hname', arguments', harguments', objs', hobjs', rfl⟩ := (mayParse_iff hb).1 hresult'
      rw [h.calls_eq hb hname harguments hobjs, h.calls_eq hb hname' harguments' hobjs',
        (h b rfl templateObject (by rw [hb]; rfl) name hname arguments harguments).2 name' hname' arguments'
        harguments']

/-- One key of each kind, and tool calls in one member of each object only: no order matters. -/
theorem Plain.orderFree (h : Plain u rendered s) : OrderFree u rendered s := by
  intro b hb templateObject ht name hname arguments harguments
  obtain ⟨hstring, hobject, hone⟩ := h b hb templateObject ht
  have hkeys : toolKeys templateObject = (name, arguments) := by
    rw [candidates_single hstring hname, candidates_single hobject harguments]
    exact toolKeys_eq templateObject
  refine ⟨fun _ _ => orderless_of_collect _ (hone name arguments hkeys), fun name' hname' arguments' harguments' => ?_⟩
  rw [candidates_single hstring hname, candidates_single hobject harguments, candidates_single hstring hname',
    candidates_single hobject harguments']

/-- With one key of each kind, and tool calls in one member of each object only, every order gives what
`parseToolCalls` returns. -/
theorem mayParse_iff_of_plain (h : Plain u rendered s) (result : Option (List ToolCall)) :
    MayParse u rendered s result ↔ result = parseToolCalls u rendered s := by
  constructor
  · exact fun hresult => h.orderFree.eq hresult (mayParse_parseToolCalls u rendered s)
  · rintro rfl
    exact mayParse_parseToolCalls u rendered s

/-- **All orders of the maps, of which the written one is one, give the same tool calls exactly when all keys that may
be found do, and the tool calls of any two members of an object in the response are the same in both orders.** -/
theorem parseToolCalls_order_iff (u : Unmarshal Obj) (rendered : Option Bytes) (s : Bytes) :
    MayParse u rendered s (parseToolCalls u rendered s) ∧
      ((∀ result result', MayParse u rendered s result → MayParse u rendered s result' → result = result') ↔
        OrderFree u rendered s) := by
  refine ⟨mayParse_parseToolCalls u rendered s, fun h => ?_,
    fun h result result' hresult hresult' => h.eq hresult hresult'⟩
  cases rendered with
  | none => exact fun b hb => absurd hb (Option.not_mem_none b)
  | some b =>
    intro b' hb' T hT name hname arguments harguments
    obtain rfl := Option.some.inj hb'
    cases hb : parseObjects u b with
    | nil =>
      rw [hb] at hT
      exact absurd hT (Option.not_mem_none T)
    | cons templateObject rest =>
      rw [hb] at hT
      obtain rfl := Option.some.inj hT
      have hwritten := collected_collect (responses (parseObjects u s))
      refine ⟨fun hn ha => orderless_of_settled _ fun objs hobjs => ?_, fun name' hname' arguments' harguments' => ?_⟩
      · have hone := (mayParse_iff hb).2 ⟨name, hname, arguments, harguments, objs, hobjs, rfl⟩
        have htwo := (mayParse_iff hb).2 ⟨name, hname, arguments, harguments, _, hwritten, rfl⟩
        have heq := returned_injective (h _ _ hone htwo)
        rwa [if_neg (not_or.2 ⟨hn, ha⟩), if_neg (not_or.2 ⟨hn, ha⟩)] at heq
      · have hone := (mayParse_iff hb).2 ⟨name, hname, arguments, harguments, _, hwritten, rfl⟩
        have htwo := (mayParse_iff hb).2 ⟨name', hname', arguments', harguments', _, hwritten, rfl⟩
        exact returned_injective (h _ _ hone htwo)

/-! ## Two keys with a text -/

/-- What a template renders that writes the type of a tool call too. -/
def renderedTyped : Bytes :=
  ascii "\x7b\"type\":\"function\",\"name\":\"@@name@@\",\"arguments\":\x7b\"@@argument@@\":1\x7d\x7d"

/-- A tool call in this form. -/
def typedText : Bytes := ascii "\x7b\"type\":\"function\",\"name\":\"f\",\"arguments\":\x7b\x7d\x7d"

/-- The conversion of these objects. All other values are of another type. -/
def unmarshalTyped : Unmarshal Obj := Unmarshal.ofValue (fun value =>
  List.lookup value
    [([], []),
      (renderedTyped, [(ascii "type", .string (ascii "function")), (ascii "name", .string (ascii "@@name@@")),
        (ascii "arguments", .object [(ascii "@@argument@@", .number 0x3ff0000000000000)])]),
      (typedText, [(ascii "type", .string (ascii "function")), (ascii "name", .string (ascii "f")),
        (ascii "arguments", .object [])])]) rfl

/-- The tool call has the name `f` or `function`, as the key of the name is the last with a text or the first. -/
theorem parseToolCalls_order_typed :
    ¬∀ (u : Unmarshal Obj) (rendered : Option Bytes) (s : Bytes) (result result' : Option (List ToolCall)),
    MayParse u rendered s result → MayParse u rendered s result' → result = result' := by
  intro h
  have hkeys : (parseObjects unmarshalTyped renderedTyped).head?.map
    (fun obj => (candidates stringKey obj, candidates objectKey obj)) =
      some ([ascii "type", ascii "name"], [ascii "arguments"]) := by decide +kernel
  cases hb : parseObjects unmarshalTyped renderedTyped with
  | nil =>
    rw [hb] at hkeys
    nomatch hkeys
  | cons templateObject rest =>
    rw [hb, List.head?_cons, Option.map_some, Option.some.injEq, Prod.mk.injEq] at hkeys
    have hwritten := collected_collect (responses (parseObjects unmarshalTyped typedText))
    have htype := (mayParse_iff hb).2 ⟨ascii "type",
      by rw [hkeys.1]; decide, ascii "arguments", by rw [hkeys.2]; decide, _, hwritten, rfl⟩
    have hname := (mayParse_iff hb).2 ⟨ascii "name",
      by rw [hkeys.1]; decide, ascii "arguments", by rw [hkeys.2]; decide, _, hwritten, rfl⟩
    have heq := congrArg (Option.map (List.map ToolCall.name)) (h unmarshalTyped _ typedText _ _ htype hname)
    exact absurd heq (by decide +kernel)

end Ollama.Server
