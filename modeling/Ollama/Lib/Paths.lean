import Ollama.Lib.Utf8

/-!
# Paths

Paths of Unix, as `path/filepath` joins and cleans them: a path is a text whose components stand between slashes.
`clean` goes over the components, drops those that name nothing, and lets `..` take away the one before it. A path of
plain components is clean (`joinPath_plain`).
-/

namespace Ollama.Lib

/-- The components of a path. -/
def components (path : Bytes) : List Bytes := path.splitOn 0x2f

/-- The path of some components. -/
def ofComponents (cs : List Bytes) : Bytes := [(0x2f : UInt8)].intercalate cs

/-- `filepath.Clean` at a component, with the ones it has kept, the last one first. -/
def cleanStep (rooted : Bool) (kept : List Bytes) (c : Bytes) : List Bytes :=
  if c = [] ∨ c = ascii "." then kept
  else if c = ascii ".." then
    match kept with
    | [] => if rooted then [] else [c]
    | d :: kept' => if d = ascii ".." then c :: kept else kept'
  else c :: kept

/-- `filepath.Clean`. -/
def clean (path : Bytes) : Bytes :=
  let rooted := path.head? = some 0x2f
  let cleaned := ofComponents ((components path).foldl (cleanStep rooted) []).reverse
  if rooted then 0x2f :: cleaned else if cleaned = [] then ascii "." else cleaned

/-- `filepath.Join`. -/
def joinPath (elems : List Bytes) : Bytes :=
  match elems.dropWhile (· = []) with
  | [] => []
  | es => clean (ofComponents es)

/-- A component that names something in the directory before it. -/
def Plain (c : Bytes) : Prop := c ≠ [] ∧ 0x2f ∉ c ∧ c ≠ ascii "." ∧ c ≠ ascii ".."

theorem components_ofComponents {cs : List Bytes} (h : ∀ c ∈ cs, 0x2f ∉ c) (hcs : cs ≠ []) :
    components (ofComponents cs) = cs :=
  List.splitOn_intercalate 0x2f h hcs

/-- A path of one component. -/
theorem components_of_not_mem {c : Bytes} (h : 0x2f ∉ c) : components c = [c] := List.splitOn_eq_singleton h

/-- The first component of a path. -/
theorem components_append {c : Bytes} (h : 0x2f ∉ c) (path : Bytes) :
    components (c ++ 0x2f :: path) = c :: components path :=
  List.splitOn_append_cons_self_of_not_mem h path

theorem cleanStep_plain {rooted : Bool} {kept : List Bytes} {c : Bytes} (h : Plain c) :
    cleanStep rooted kept c = c :: kept := by
  obtain ⟨hne, _, hdot, hdots⟩ := h
  unfold cleanStep
  rw [if_neg (not_or.2 ⟨hne, hdot⟩), if_neg hdots]

theorem foldl_cleanStep_plain {rooted : Bool} {cs kept : List Bytes} (h : ∀ c ∈ cs, Plain c) :
    cs.foldl (cleanStep rooted) kept = cs.reverse ++ kept := by
  induction cs generalizing kept with
  | nil => rfl
  | cons c cs ih =>
    rw [List.foldl_cons, cleanStep_plain (h c List.mem_cons_self), ih fun d hd => h d (List.mem_cons_of_mem _ hd),
      List.reverse_cons, List.append_assoc]
    rfl

/-- Plain components are joined as they are. -/
theorem joinPath_plain {cs : List Bytes} (h : ∀ c ∈ cs, Plain c) (hcs : cs ≠ []) : joinPath cs = ofComponents cs := by
  obtain ⟨c, ds, rfl⟩ := List.exists_cons_of_ne_nil hcs
  obtain ⟨hne, hslash, _⟩ := h c List.mem_cons_self
  obtain ⟨b, c', rfl⟩ := List.exists_cons_of_ne_nil hne
  have hhead : ∀ cs : List Bytes, (ofComponents ((b :: c') :: cs)).head? = some b := by
    intro cs
    cases cs <;> rfl
  have hroot : ¬(ofComponents ((b :: c') :: ds)).head? = some 0x2f := by
    rw [hhead]
    intro hb
    exact hslash (Option.some.inj hb ▸ List.mem_cons_self)
  have hnil : ofComponents ((b :: c') :: ds) ≠ [] := by
    intro hz
    have hnone := hhead ds
    rw [hz] at hnone
    nomatch hnone
  have hdrop : ((b :: c') :: ds).dropWhile (· = []) = (b :: c') :: ds := by
    rw [List.dropWhile_cons]
    rfl
  unfold joinPath
  rw [hdrop]
  show clean (ofComponents ((b :: c') :: ds)) = _
  unfold clean
  dsimp only
  rw [if_neg hroot, components_ofComponents (fun d hd => (h d hd).2.1) hcs, foldl_cleanStep_plain h,
    List.append_nil, List.reverse_reverse, if_neg hnil]

end Ollama.Lib
