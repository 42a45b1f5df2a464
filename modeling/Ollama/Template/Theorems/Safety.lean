import Ollama.Template.Execute

/-!
# Templates that are cut

`deleteNode` cuts a tree behind the first field `.Response` that it comes to; conditions, the data of templates and
chains are not looked at. When this field is in the list of a branch that has an else list, the else list is deleted,
and the assertion that it is a `ListNode` panics. In every other tree what is left is well formed, and `Execute` does
not panic (`execute_safe_iff`).
-/

namespace Ollama.Template

open Lib Server

/-! ## Where the first response is -/

mutual

/-- Whether there is a field `.Response` in an argument. -/
def Arg.hasResponse : Arg → Bool
  | .field ident => ascii "Response" ∈ ident
  | .pipe _ _ cmds => cmdsHaveResponse cmds
  | _ => false

def argsHaveResponse : List Arg → Bool
  | [] => false
  | arg :: args => arg.hasResponse || argsHaveResponse args

def cmdsHaveResponse : List (List Arg) → Bool
  | [] => false
  | cmd :: cmds => argsHaveResponse cmd || cmdsHaveResponse cmds

end

mutual

/-- Whether there is a field `.Response` in a node that is not in a condition or in the data of a template. -/
def Node.hasResponse : Node → Bool
  | .action pipe => cmdsHaveResponse pipe.cmds
  | .branch _ _ list elseList => listHasResponse list || elseHasResponse elseList
  | _ => false

def listHasResponse : List Node → Bool
  | [] => false
  | n :: nodes => n.hasResponse || listHasResponse nodes

def elseHasResponse : Option (List Node) → Bool
  | none => false
  | some nodes => listHasResponse nodes

end

mutual

/-- Whether the first response of a node is in the list of a branch that has an else list. -/
def Node.stranded : Node → Bool
  | .branch _ _ list elseList => if listHasResponse list then elseList.isSome || listStranded list
      else elseStranded elseList
  | _ => false

/-- Whether the first response of a list of nodes is in the list of a branch that has an else list. -/
def listStranded : List Node → Bool
  | [] => false
  | n :: nodes => if n.hasResponse then n.stranded else listStranded nodes

def elseStranded : Option (List Node) → Bool
  | none => false
  | some nodes => listStranded nodes

end

namespace SafetyAux

variable {arg : Arg} {args : List Arg} {cmds : List (List Arg)} {n : Node} {nodes : List Node} {inRange cut : Bool}

/-! ## Pipelines -/

/-- What the walk does to an argument: it cuts where there is a response, and leaves what is well formed, and
everything where there is none. -/
structure ArgWalk (arg : Arg) : Prop where
  cut : ∀ cut, (walkArg arg cut).2 = (cut || arg.hasResponse)
  wellFormed : ∀ cut a, (walkArg arg cut).1 = some a → a.WellFormed
  same : arg.hasResponse = false → walkArg arg false = (some arg, false)

/-- The arguments are gone through one by one, and the cut is passed on. -/
theorem walkArgs_cons (arg : Arg) (args : List Arg) (cut : Bool) : walkArgs (arg :: args) cut =
    ((walkArg arg cut).1.toList ++ (walkArgs args (walkArg arg cut).2).1, (walkArgs args (walkArg arg cut).2).2) := by
  rw [walkArgs]

/-- The arguments of a command. -/
theorem walkArgs_spec (h : ∀ arg ∈ args, ArgWalk arg) (cut : Bool) :
    (walkArgs args cut).2 = (cut || argsHaveResponse args) ∧ (∀ a ∈ (walkArgs args cut).1, a.WellFormed) ∧
      (argsHaveResponse args = false → walkArgs args false = (args, false)) := by
  induction args generalizing cut with
  | nil => exact ⟨by rw [walkArgs, argsHaveResponse, Bool.or_false], by simp [walkArgs], fun _ => by rw [walkArgs]⟩
  | cons arg args ih =>
    obtain ⟨harg, hargs⟩ := List.forall_mem_cons.1 h
    obtain ⟨hcut, hwf, _⟩ := ih hargs (walkArg arg cut).2
    rw [walkArgs_cons, argsHaveResponse]
    refine ⟨?_, fun a ha => ?_, fun hnone => ?_⟩
    · rw [hcut, harg.cut, Bool.or_assoc]
    · rcases List.mem_append.1 ha with ha | ha
      · exact harg.wellFormed cut a (Option.mem_toList.1 ha)
      · exact hwf a ha
    · rw [Bool.or_eq_false_iff] at hnone
      rw [walkArgs_cons, harg.same hnone.1, (ih hargs false).2.2 hnone.2]
      rfl

/-- The commands of a pipeline: nothing is left only if the tree is cut. -/
theorem walkCmds_spec (hne : ∀ cmd ∈ cmds, cmd ≠ []) (h : ∀ cmd ∈ cmds, ∀ arg ∈ cmd, ArgWalk arg) (cut : Bool) :
    (walkCmds cmds cut).2 = (cut || cmdsHaveResponse cmds) ∧
      (∀ out, (walkCmds cmds cut).1 = some out → (∀ cmd ∈ out, cmd ≠ []) ∧ ∀ cmd ∈ out, ∀ arg ∈ cmd, arg.WellFormed) ∧
      (cmdsHaveResponse cmds = false → walkCmds cmds false = (some cmds, false)) := by
  induction cmds generalizing cut with
  | nil =>
    refine ⟨by rw [walkCmds, cmdsHaveResponse, Bool.or_false], fun out hout => ?_, fun _ => by rw [walkCmds]⟩
    rw [walkCmds] at hout
    rw [← Option.some.inj hout]
    exact ⟨List.forall_mem_nil _, List.forall_mem_nil _⟩
  | cons cmd cmds ih =>
    obtain ⟨hcmd, hcmds⟩ := List.forall_mem_cons.1 h
    obtain ⟨hcmdne, hcmdsne⟩ := List.forall_mem_cons.1 hne
    obtain ⟨hcut, hwf, _⟩ := walkArgs_spec hcmd cut
    have hsame := (walkArgs_spec hcmd false).2.2
    have hrest := ih hcmdsne hcmds
    have hkeep : cmdsHaveResponse (cmd :: cmds) = false →
      walkCmds (cmd :: cmds) false = (some (cmd :: cmds), false) := by
      intro hnone
      rw [cmdsHaveResponse, Bool.or_eq_false_iff] at hnone
      obtain ⟨arg, args, rfl⟩ := List.exists_cons_of_ne_nil hcmdne
      rw [walkCmds, hsame hnone.1]
      dsimp only
      rw [(hrest false).2.2 hnone.2]
      rfl
    rw [walkCmds, cmdsHaveResponse]
    rcases hout : walkArgs cmd cut with ⟨_ | ⟨arg, args⟩, cut'⟩
    · rw [hout] at hcut
      refine ⟨?_, fun out h => (by cases h), hkeep⟩
      have hor : (cut || argsHaveResponse cmd) = true := by
        by_contra hnot
        rw [Bool.not_eq_true, Bool.or_eq_false_iff] at hnot
        rw [hnot.1, hsame hnot.2] at hout
        exact hcmdne (Prod.mk.inj hout).1
      dsimp only at hcut ⊢
      rw [hcut, ← Bool.or_assoc, hor, Bool.true_or]
    · rw [hout] at hcut hwf
      obtain ⟨hcut', hwf', _⟩ := hrest cut'
      refine ⟨?_, fun out h => ?_, hkeep⟩
      · dsimp only at hcut ⊢
        rw [hcut', hcut, Bool.or_assoc]
      · obtain ⟨rest, hrest', rfl⟩ := Option.map_eq_some_iff.1 h
        obtain ⟨hne', hargs'⟩ := hwf' rest hrest'
        exact ⟨List.forall_mem_cons.2 ⟨List.cons_ne_nil _ _, hne'⟩, List.forall_mem_cons.2 ⟨hwf, hargs'⟩⟩

/-- An argument that is neither a field nor a pipeline is kept or deleted. -/
theorem argWalk_of_plain (h : arg.WellFormed)
    (hwalk : ∀ cut, walkArg arg cut = if cut then (none, cut) else (some arg, cut))
    (hnone : arg.hasResponse = false) : ArgWalk arg := by
  refine ⟨fun cut => ?_, fun cut a ha => ?_, fun _ => hwalk false⟩
  · rw [hwalk, hnone, Bool.or_false]
    split <;> rfl
  · rw [hwalk] at ha
    split at ha
    · cases ha
    · rw [← Option.some.inj ha]
      exact h

/-- A well-formed argument is gone through as it should. -/
theorem argWalk (h : arg.WellFormed) : ArgWalk arg := by
  induction h with
  | field ident =>
    refine ⟨fun cut => ?_, fun cut a ha => ?_, fun hnone => ?_⟩
    · rw [walkArg, Arg.hasResponse]
      by_cases hmem : ascii "Response" ∈ ident
      · rw [if_pos hmem, decide_eq_true hmem, Bool.or_true]
      · rw [if_neg hmem, decide_eq_false hmem, Bool.or_false]
        split <;> rfl
    · obtain rfl : Arg.field ident = a := by
        rw [walkArg] at ha
        split at ha
        · exact Option.some.inj ha
        · split at ha
          · cases ha
          · exact Option.some.inj ha
      exact .field ident
    · rw [Arg.hasResponse] at hnone
      rw [walkArg, if_neg (of_decide_eq_false hnone)]
      rfl
  | pipe isAssign decl hne hargs _ ih =>
    have hspec := walkCmds_spec hargs ih
    refine ⟨fun cut => ?_, fun cut a ha => ?_, fun hnone => ?_⟩
    · rw [walkArg, Arg.hasResponse]
      cases cut with
      | true => rfl
      | false =>
        have hcut := (hspec false).1
        rw [if_neg Bool.false_ne_true]
        split <;> rename_i heq <;> rw [heq] at hcut <;> exact hcut
    · rw [walkArg] at ha
      split at ha
      · cases ha
      · split at ha
        · cases ha
        · cases ha
        · rename_i heq
          obtain ⟨hne', hwf'⟩ := (hspec cut).2.1 _ (congrArg Prod.fst heq)
          rw [← Option.some.inj ha]
          exact .pipe isAssign decl (List.cons_ne_nil _ _) hne' hwf'
    · rw [Arg.hasResponse] at hnone
      rename_i cmds
      obtain ⟨cmd, cmds, rfl⟩ := List.exists_cons_of_ne_nil hne
      rw [walkArg, (hspec false).2.2 hnone]
      rfl
  | chain field h => exact argWalk_of_plain (.chain field h) (fun _ => rfl) rfl
  | «variable» ident => exact argWalk_of_plain (.variable ident) (fun _ => rfl) rfl
  | identifier ident => exact argWalk_of_plain (.identifier ident) (fun _ => rfl) rfl
  | dot => exact argWalk_of_plain .dot (fun _ => rfl) rfl
  | nil => exact argWalk_of_plain .nil (fun _ => rfl) rfl
  | bool b => exact argWalk_of_plain (.bool b) (fun _ => rfl) rfl
  | number text => exact argWalk_of_plain (.number text) (fun _ => rfl) rfl
  | string text => exact argWalk_of_plain (.string text) (fun _ => rfl) rfl

/-- A pipeline is cut if it has a response, and what is left of it is well formed. -/
theorem walkPipe_spec {pipe : Pipe} (h : CmdsWellFormed pipe.cmds) :
    (walkPipe pipe false).2 = cmdsHaveResponse pipe.cmds ∧ ∀ p, (walkPipe pipe false).1 = some p →
      CmdsWellFormed p.cmds := by
  obtain ⟨hcut, hwf, _⟩ := walkCmds_spec h.args_ne (fun cmd hcmd arg harg => argWalk (h.args cmd hcmd arg harg)) false
  rw [Bool.false_or] at hcut
  rw [walkPipe, if_neg Bool.false_ne_true]
  rcases hout : walkCmds pipe.cmds false with ⟨_ | (_ | ⟨cmd, cmds⟩), cut⟩
  · rw [hout] at hcut
    exact ⟨hcut, fun p hp => by cases hp⟩
  · rw [hout] at hcut
    exact ⟨hcut, fun p hp => by cases hp⟩
  · rw [hout] at hcut hwf
    refine ⟨hcut, fun p hp => ?_⟩
    obtain ⟨hne', hwf'⟩ := hwf _ rfl
    rw [← Option.some.inj hp]
    exact ⟨List.cons_ne_nil _ _, hne', hwf'⟩

/-! ## Nodes -/

/-- Everything is deleted behind the cut. -/
theorem walkNode_true (n : Node) : walkNode n true = some (none, true) := by cases n <;> rfl

/-- Behind the cut nothing is left. -/
theorem walkList_true (nodes : List Node) : walkList nodes true = some ([], true) := by
  induction nodes with
  | nil => rfl
  | cons n nodes ih =>
    rw [walkList, walkNode_true]
    dsimp only
    rw [ih]
    rfl

/-- What the walk does to a node before the cut: it panics where the first response is stranded, and else leaves what
is well formed. -/
structure NodeWalk (inRange : Bool) (n : Node) : Prop where
  response : n.stranded = true → n.hasResponse = true
  panics : n.stranded = true → walkNode n false = none
  walks : n.stranded = false → ∃ r, walkNode n false = some (r, n.hasResponse) ∧ ∀ m, r = some m → m.WellFormed inRange

/-- The nodes of a list. -/
theorem walkList_spec (h : ∀ n ∈ nodes, NodeWalk inRange n) :
    (listStranded nodes = true → listHasResponse nodes = true ∧ walkList nodes false = none) ∧
      (listStranded nodes = false → ∃ out, walkList nodes false = some (out, listHasResponse nodes) ∧
        ∀ m ∈ out, m.WellFormed inRange) := by
  induction nodes with
  | nil =>
    refine ⟨fun hs => ?_, fun _ => ⟨[], rfl, List.forall_mem_nil _⟩⟩
    rw [listStranded] at hs
    cases hs
  | cons n nodes ih =>
    obtain ⟨hn, hnodes⟩ := List.forall_mem_cons.1 h
    obtain ⟨hpanics, hwalks⟩ := ih hnodes
    rw [listStranded, listHasResponse]
    cases hresponse : n.hasResponse with
    | true =>
      rw [if_pos rfl, Bool.true_or]
      refine ⟨fun hs => ⟨rfl, by rw [walkList, hn.panics hs]⟩, fun hs => ?_⟩
      obtain ⟨r, hr, hwf⟩ := hn.walks hs
      rw [hresponse] at hr
      refine ⟨r.toList ++ [], ?_, fun m hm => ?_⟩
      · rw [walkList, hr]
        dsimp only
        rw [walkList_true]
      · rw [List.append_nil] at hm
        exact hwf m (Option.mem_toList.1 hm)
    | false =>
      rw [if_neg Bool.false_ne_true, Bool.false_or]
      have hnot : n.stranded = false :=
        Bool.eq_false_iff.2 (fun hs => by rw [hn.response hs] at hresponse; cases hresponse)
      obtain ⟨r, hr, hwf⟩ := hn.walks hnot
      rw [hresponse] at hr
      refine ⟨fun hs => ?_, fun hs => ?_⟩
      · obtain ⟨hrest, hnone⟩ := hpanics hs
        refine ⟨hrest, ?_⟩
        rw [walkList, hr]
        dsimp only
        rw [hnone]
      · obtain ⟨out, hout, hall⟩ := hwalks hs
        refine ⟨r.toList ++ out, ?_, fun m hm => ?_⟩
        · rw [walkList, hr]
          dsimp only
          rw [hout]
        · rcases List.mem_append.1 hm with hm | hm
          · exact hwf m (Option.mem_toList.1 hm)
          · exact hall m hm

/-- A node that is neither an action nor a branch is kept. -/
theorem nodeWalk_of_plain (h : n.WellFormed inRange) (hwalk : walkNode n false = some (some n, false))
    (hnone : n.hasResponse = false) (hs : n.stranded = false) : NodeWalk inRange n := by
  refine ⟨fun hs' => ?_, fun hs' => ?_, fun _ => ⟨some n, by rw [hwalk, hnone], fun m hm => ?_⟩⟩
  · rw [hs] at hs'
    cases hs'
  · rw [hs] at hs'
    cases hs'
  · rw [← Option.some.inj hm]
    exact h

/-- A branch, by what becomes of its lists. -/
theorem walkNode_branch {kind : BranchKind} {pipe : Pipe} {elseList elseList' : Option (List Node)}
    {nodes' : List Node} {cut' : Bool} (h : walkList nodes false = some (nodes', cut))
    (helse : walkElse elseList cut = some (elseList', cut')) :
    walkNode (.branch kind pipe nodes elseList) false = some (some (.branch kind pipe nodes' elseList'), cut') := by
  rw [walkNode, if_neg Bool.false_ne_true, h]
  dsimp only
  rw [helse]

/-- A branch with a list that panics panics. -/
theorem walkNode_branch_none {kind : BranchKind} {pipe : Pipe} {elseList : Option (List Node)}
    (h : walkList nodes false = none) :
    walkNode (.branch kind pipe nodes elseList) false = none := by
  rw [walkNode, if_neg Bool.false_ne_true, h]

/-- A branch with an `else` that panics panics. -/
theorem walkNode_branch_else {kind : BranchKind} {pipe : Pipe} {elseList : Option (List Node)} {nodes' : List Node}
    (h : walkList nodes false = some (nodes', cut)) (helse : walkElse elseList cut = none) :
    walkNode (.branch kind pipe nodes elseList) false = none := by
  rw [walkNode, if_neg Bool.false_ne_true, h]
  dsimp only
  rw [helse]

/-- A well-formed node is gone through as it should. -/
theorem nodeWalk (h : n.WellFormed inRange) : NodeWalk inRange n := by
  induction h with
  | text text => exact nodeWalk_of_plain (.text text) rfl rfl rfl
  | comment text => exact nodeWalk_of_plain (.comment text) rfl rfl rfl
  | template name h => exact nodeWalk_of_plain (.template name h) rfl rfl rfl
  | «break» => exact nodeWalk_of_plain .break rfl rfl rfl
  | «continue» => exact nodeWalk_of_plain .continue rfl rfl rfl
  | @action inRange pipe hpipe =>
    obtain ⟨hcut, hwf⟩ := walkPipe_spec hpipe
    have hs : (Node.action pipe).stranded ≠ true := Bool.false_ne_true
    refine ⟨fun hs' => (hs hs').elim, fun hs' => (hs hs').elim, fun _ => ?_⟩
    rw [walkNode, if_neg Bool.false_ne_true, Node.hasResponse]
    rcases hout : walkPipe pipe false with ⟨_ | p, cut⟩
    · rw [hout] at hcut
      exact ⟨none, by rw [← hcut], fun m hm => by cases hm⟩
    · rw [hout] at hcut hwf
      refine ⟨some (.action p), by rw [← hcut], fun m hm => ?_⟩
      rw [← Option.some.inj hm]
      exact .action (hwf p rfl)
  | @branch inRange kind pipe list elseList hpipe _ _ hlist helse =>
    obtain ⟨hpanics, hwalks⟩ := walkList_spec hlist
    have hstranded : (Node.branch kind pipe list elseList).stranded =
        if listHasResponse list then elseList.isSome || listStranded list else elseStranded elseList := by
          rw [Node.stranded]
    have hresponse : (Node.branch kind pipe list elseList).hasResponse =
      (listHasResponse list || elseHasResponse elseList) := by
      rw [Node.hasResponse]
    have hkeep : ∀ {list' : List Node} {elseList' : Option (List Node)},
      (∀ n ∈ list', n.WellFormed (inRange || kind = .range)) →
        (∀ nodes, elseList' = some nodes → ∀ n ∈ nodes, n.WellFormed inRange) →
        ∀ m, some (Node.branch kind pipe list' elseList') = some m → m.WellFormed inRange := by
      intro list' elseList' hl he m hm
      rw [← Option.some.inj hm]
      exact .branch hpipe hl he
    cases hlistStranded : listStranded list with
    | true =>
      obtain ⟨hhas, hnone⟩ := hpanics hlistStranded
      rw [hlistStranded, if_pos hhas, Bool.or_true] at hstranded
      refine ⟨fun _ => by rw [hresponse, hhas, Bool.true_or], fun _ => walkNode_branch_none hnone, fun hs => ?_⟩
      rw [hstranded] at hs
      cases hs
    | false =>
      obtain ⟨out, hout, hwf⟩ := hwalks hlistStranded
      rw [hlistStranded, Bool.or_false] at hstranded
      cases hhas : listHasResponse list with
      | true =>
        rw [hhas] at hout hresponse hstranded
        rw [if_pos rfl] at hstranded
        refine ⟨fun _ => by rw [hresponse, Bool.true_or], fun hs => ?_, fun hs => ?_⟩
        · obtain ⟨nodes, rfl⟩ := Option.isSome_iff_exists.1 (hstranded.symm.trans hs)
          exact walkNode_branch_else hout rfl
        · cases elseList with
          | some nodes => rw [hstranded] at hs; cases hs
          | none => exact ⟨_, by rw [hresponse]; exact walkNode_branch hout rfl, hkeep hwf (fun nodes h => by cases h)⟩
      | false =>
        rw [hhas] at hout hresponse hstranded
        rw [if_neg Bool.false_ne_true] at hstranded
        rw [Bool.false_or] at hresponse
        cases elseList with
        | none =>
          have hs : (Node.branch kind pipe list none).stranded ≠ true := by rw [hstranded]; exact Bool.false_ne_true
          exact ⟨fun h => (hs h).elim, fun h => (hs h).elim,
            fun _ => ⟨_, by rw [hresponse]; exact walkNode_branch hout rfl, hkeep hwf (fun nodes h => by cases h)⟩⟩
        | some nodes =>
          obtain ⟨hpanics', hwalks'⟩ := walkList_spec (helse nodes rfl)
          refine ⟨fun hs => ?_, fun hs => ?_, fun hs => ?_⟩
          · rw [hresponse]
            exact (hpanics' (hstranded.symm.trans hs)).1
          · exact walkNode_branch_else hout (by rw [walkElse, (hpanics' (hstranded.symm.trans hs)).2]; rfl)
          · obtain ⟨out', hout', hwf'⟩ := hwalks' (hstranded.symm.trans hs)
            have hwalk : walkElse (some nodes) false = some (some out', listHasResponse nodes) := by
              rw [walkElse, hout']; rfl
            refine ⟨some (.branch kind pipe out (some out')), ?_, hkeep hwf (fun nodes' h => ?_)⟩
            · rw [hresponse, elseHasResponse]
              exact walkNode_branch hout hwalk
            · rw [← Option.some.inj h]
              exact hwf'

/-! ## Templates that are accepted -/

variable {τ : Type} {P : Package τ} {t : Tmpl} {s : Turn} {v : Values τ} {write : Bytes → Option Bytes}

/-- The cut of a whole template. -/
theorem deleteNode_spec (h : ListWellFormed nodes) :
    (listStranded nodes = true → deleteNode nodes = none) ∧
      (listStranded nodes = false → ∃ out, deleteNode nodes = some out ∧ ListWellFormed out) := by
  obtain ⟨hpanics, hwalks⟩ := walkList_spec (fun n hn => nodeWalk (h n hn))
  rw [deleteNode]
  refine ⟨fun hs => by rw [(hpanics hs).2]; rfl, fun hs => ?_⟩
  obtain ⟨out, hout, hwf⟩ := hwalks hs
  exact ⟨out, by rw [hout]; rfl, hwf⟩

/-- A field is a well-formed pipeline. -/
theorem cmdsWellFormed_field (ident : List Bytes) : CmdsWellFormed [[.field ident]] := by
  refine ⟨List.cons_ne_nil _ _, fun cmd hcmd => ?_, fun cmd hcmd arg harg => ?_⟩
  · rw [List.mem_singleton.1 hcmd]
    exact List.cons_ne_nil _ _
  · rw [List.mem_singleton.1 hcmd] at harg
    rw [List.mem_singleton.1 harg]
    exact .field ident

/-- The identifiers with the response behind are those of the nodes, and `Response`. -/
theorem listIdentifiers_append {names : List Bytes} (h : listIdentifiers nodes = some names) :
    listIdentifiers (nodes ++ [response]) = some (names ++ [ascii "Response"]) := by
  induction nodes generalizing names with
  | nil =>
    rw [listIdentifiers] at h
    rw [← Option.some.inj h]
    rfl
  | cons n nodes ih =>
    rw [listIdentifiers] at h
    rw [List.cons_append, listIdentifiers]
    split at h
    · rename_i names' rest hn hrest
      rw [hn, ih hrest, ← Option.some.inj h, List.append_assoc]
    · cases h

/-- A template has its variables with the response behind it, too. -/
theorem vars_append {vars : List Bytes} (h : t.vars P = some vars) :
    ∃ vars', Tmpl.vars P { t with root := t.root ++ [response] } = some vars' := by
  obtain ⟨names, hnames, _⟩ := Option.map_eq_some_iff.1 h
  rw [Tmpl.identifiers] at hnames
  split at hnames
  · rename_i hroot hothers
    rw [Tmpl.vars, Tmpl.identifiers]
    dsimp only
    rw [listIdentifiers_append hroot, hothers]
    exact ⟨_, rfl⟩
  · cases hnames

/-- A template that is accepted has well-formed trees, and its names can be collected. -/
theorem accepted {text : Bytes} (h : Parse P text = some (.ok t)) : t.WellFormed ∧ ∃ vars, t.vars P = some vars := by
  rw [Parse] at h
  split at h
  · cases h
  · rename_i t' hparse
    have hwf := P.parse_wellFormed _ _ hparse
    split at h
    · cases h
    · rename_i vars hvars
      split at h
      · cases h
        refine ⟨⟨fun n hn => ?_, hwf.others⟩, vars_append hvars⟩
        rcases List.mem_append.1 hn with hn | hn
        · exact hwf.root n hn
        · rw [List.mem_singleton.1 hn]
          exact .action (cmdsWellFormed_field _)
      · cases h
        exact ⟨hwf, vars, hvars⟩

/-! ## Executing -/

/-- A well-formed template does not panic on its data. -/
theorem executeOn_ne_none (h : t.WellFormed) (write : Bytes → Option Bytes) (d : Data τ) :
    executeOn P t write d ≠ none := by
  have hexec := P.exec_wellFormed t d h
  rw [executeOn]
  split
  · rename_i hnone
    exact absurd hnone hexec
  · exact Option.some_ne_none _
  · exact Option.some_ne_none _

/-- Executing the template for a turn does not panic. -/
theorem turnExecute_ne_none (h : t.WellFormed) (s : Turn) : s.execute P t ≠ none := by
  have hexec := P.exec_wellFormed t (.legacy s.vars) h
  rw [Turn.execute]
  split
  · rename_i hnone
    exact absurd hnone hexec
  · exact Option.some_ne_none _
  · exact Option.some_ne_none _

/-- A message does not panic. -/
theorem message_ne_none (h : t.WellFormed) (s : Turn) (m : Message) : s.message P t m ≠ none := by
  have hflush : ∀ {p : Prop} [Decidable p]
    {f : Except (Bytes × List Rendering) Turn → Except (Bytes × List Rendering) Turn},
      (if p then s.execute P t else some (.ok s)).map f ≠ none := by
    intro p _ f hnone
    rw [Option.map_eq_none_iff] at hnone
    split at hnone
    · exact turnExecute_ne_none h s hnone
    · cases hnone
  rw [Turn.message]
  split
  · exact hflush
  · split
    · exact hflush
    · split <;> exact Option.some_ne_none _

/-- The loop over the messages does not panic. -/
theorem loop_ne_none (h : t.WellFormed) (s : Turn) (msgs : List Message) : s.loop P t msgs ≠ none := by
  induction msgs generalizing s with
  | nil => exact Option.some_ne_none _
  | cons m msgs ih =>
    rw [Turn.loop]
    split
    · rename_i hnone
      exact absurd hnone (message_ne_none h s m)
    · exact Option.some_ne_none _
    · exact ih _

/-- The end of `Execute` panics if and only if the first response is stranded. -/
theorem finish_eq_none_iff (h : ListWellFormed t.root) (s : Turn) :
    s.finish P t write = none ↔ listStranded t.root = true := by
  obtain ⟨hpanics, hcuts⟩ := deleteNode_spec h
  constructor
  · intro hnone
    by_contra hs
    obtain ⟨out, hout, hwf⟩ := hcuts (Bool.eq_false_iff.2 hs)
    have hexec := P.exec_wellFormed { root := out, funcs := false } (.legacy s.vars) ⟨hwf, List.forall_mem_nil _⟩
    rw [Turn.finish, hout] at hnone
    dsimp only at hnone
    split at hnone
    · rename_i h'
      exact hexec h'
    · cases hnone
    · cases hnone
  · intro hs
    rw [Turn.finish, hpanics hs]

/-- In the legacy case the template is not given the messages. -/
theorem hasMessages_of_legacy (h : t.Legacy P v) :
    (if v.forceLegacy then some false else (t.vars P).map (fun vars => decide (ascii "messages" ∈ vars))) =
      some false := by
  rcases h.2 with hforce | ⟨vars, hvars, hnot⟩
  · rw [if_pos hforce]
  · rw [hvars, Option.map_some, decide_eq_false hnot, ite_self]

/-- In the legacy case the execution is the loop over the messages, and what finishes it. -/
theorem execute_of_loop (h : t.Legacy P v) (hloop : Turn.loop P t {} (collate v.messages).2 = some (.ok s)) :
    t.execute P write v = s.finish P t write := by
  rw [Tmpl.execute]
  dsimp only
  rw [if_neg h.1, hasMessages_of_legacy h]
  dsimp only
  rw [hloop]

/-- In the legacy case an error of the loop is the error of the execution. -/
theorem execute_of_error {err : Bytes} {renderings : List Rendering} (h : t.Legacy P v)
    (hloop : Turn.loop P t {} (collate v.messages).2 = some (.error (err, renderings))) :
    t.execute P write v = some ⟨renderings.map .legacy, [], some err⟩ := by
  rw [Tmpl.execute]
  dsimp only
  rw [if_neg h.1, hasMessages_of_legacy h]
  dsimp only
  rw [hloop]

/-- In the other case the template is executed once, with the messages. -/
theorem execute_of_not_legacy {vars : List Bytes} (hvars : t.vars P = some vars) (h : ¬t.Legacy P v)
    (write : Bytes → Option Bytes) :
    ∃ d, t.execute P write v = executeOn P t write d := by
  rw [Tmpl.execute]
  dsimp only
  by_cases hsuffix : v.prompt ≠ [] ∧ v.suffix ≠ []
  · rw [if_pos hsuffix]
    exact ⟨_, rfl⟩
  · have hforce : ¬v.forceLegacy = true := fun hforce => h ⟨hsuffix, .inl hforce⟩
    have hmem : ascii "messages" ∈ vars := by
      by_contra hnot
      exact h ⟨hsuffix, .inr ⟨vars, hvars, hnot⟩⟩
    rw [if_neg hsuffix, if_neg hforce, hvars, Option.map_some, decide_eq_true hmem]
    exact ⟨_, rfl⟩

/-- `Execute` panics if and only if the first response is stranded, and every message is rendered without an error. -/
theorem execute_eq_none_iff (hwf : t.WellFormed) {vars : List Bytes} (hvars : t.vars P = some vars) :
    t.execute P write v = none ↔
      listStranded t.root = true ∧ t.Legacy P v ∧ ∃ s, Turn.loop P t {} (collate v.messages).2 = some (.ok s) := by
  by_cases hlegacy : t.Legacy P v
  · rcases hloop : Turn.loop P t {} (collate v.messages).2 with _ | (err | s)
    · exact absurd hloop (loop_ne_none hwf _ _)
    · rw [execute_of_error hlegacy hloop]
      refine ⟨fun h => (by cases h), fun h => ?_⟩
      obtain ⟨_, _, s, hs⟩ := h
      cases hs
    · rw [execute_of_loop hlegacy hloop, finish_eq_none_iff hwf.root]
      exact ⟨fun h => ⟨h, hlegacy, s, rfl⟩, fun h => h.1⟩
  · obtain ⟨d, hd⟩ := execute_of_not_legacy hvars hlegacy write
    rw [hd]
    exact ⟨fun h => absurd h (executeOn_ne_none hwf write d), fun h => absurd h.2.1 hlegacy⟩

end SafetyAux

open SafetyAux

/-- Of a template that is accepted the cut is well formed, and `Execute` returns for all values, if and only if the
first response is not stranded; of one whose first response is stranded `Execute` panics behind the last message, when
no message has failed. -/
theorem execute_safe_iff {τ : Type} (P : Package τ) {text : Bytes} {t : Tmpl} (h : Parse P text = some (.ok t)) :
    (((∃ nodes, deleteNode t.root = some nodes ∧ ListWellFormed nodes) ∧
        ∀ (write : Bytes → Option Bytes) (v : Values τ), t.execute P write v ≠ none) ↔ listStranded t.root = false) ∧
      ∀ (write : Bytes → Option Bytes) (v : Values τ), t.execute P write v = none ↔
        listStranded t.root = true ∧ t.Legacy P v ∧ ∃ s, Turn.loop P t {} (collate v.messages).2 = some (.ok s) := by
  obtain ⟨hwf, vars, hvars⟩ := accepted h
  obtain ⟨hpanics, hcuts⟩ := deleteNode_spec hwf.root
  refine ⟨⟨fun hsafe => ?_, fun hs => ⟨hcuts hs, fun write v hnone => ?_⟩⟩,
    fun write v => execute_eq_none_iff hwf hvars⟩
  · obtain ⟨nodes, hnodes, _⟩ := hsafe.1
    refine Bool.eq_false_iff.2 (fun hs => ?_)
    rw [hpanics hs] at hnodes
    cases hnodes
  · rw [((execute_eq_none_iff hwf hvars).1 hnone).1] at hs
    cases hs

/-! `{{ if .System }}{{ .Response }}{{ else }}x{{ end }}` is accepted, and panics. -/

namespace Stranded

def text : Bytes := ascii "{{ if .System }}{{ .Response }}{{ else }}x{{ end }}"

def field (name : String) : Pipe := { cmds := [[.field [ascii name]]] }

def tmpl : Tmpl := { root := [.branch .if (field "System") [.action (field "Response")] (some [.text (ascii "x")])] }

/-- The template is well formed. -/
theorem tmpl_wellFormed : tmpl.WellFormed := by
  refine ⟨fun n hn => ?_, List.forall_mem_nil _⟩
  rw [List.mem_singleton.1 hn]
  refine .branch (cmdsWellFormed_field _) (fun n hn => ?_) (fun nodes hnodes n hn => ?_)
  · rw [List.mem_singleton.1 hn]
    exact .action (cmdsWellFormed_field _)
  · cases hnodes
    rw [List.mem_singleton.1 hn]
    exact .text _

def package : Package Unit := .small text tmpl tmpl_wellFormed

/-- The text is parsed to the template. -/
theorem parse_text : Parse package text = some (.ok tmpl) := rfl

end Stranded

open Stranded in
/-- The template is safe exactly if its response is not stranded. -/
theorem execute_safe_iff_stranded :
    (((∃ nodes, deleteNode tmpl.root = some nodes ∧ ListWellFormed nodes) ∧
        ∀ (write : Bytes → Option Bytes) (v : Values Unit), tmpl.execute package write v ≠ none) ↔
          listStranded tmpl.root = false) ∧
      ∀ (write : Bytes → Option Bytes) (v : Values Unit), tmpl.execute package write v = none ↔
        listStranded tmpl.root = true ∧ tmpl.Legacy package v ∧
          ∃ s, Turn.loop package tmpl {} (collate v.messages).2 = some (.ok s) :=
  execute_safe_iff package parse_text

open Stranded in
/-- The response of the template is stranded, and its execution panics. -/
theorem execute_stranded_panics :
    Parse package text = some (.ok tmpl) ∧ deleteNode tmpl.root = none ∧
      tmpl.execute package (fun _ => none) { tools := () } = none :=
  ⟨parse_text, rfl, rfl⟩

end Ollama.Template
