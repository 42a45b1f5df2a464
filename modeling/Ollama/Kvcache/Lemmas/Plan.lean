import Ollama.Kvcache.Causal

/-!
# What a defragmentation plans

The loop of `defrag` moves metadata, holds back the copy of a run, and computes its contexts when they are full.
`Plan` is the loop without the contexts: the cells, the pending run and the list of copies emitted so far. `turn_plan`
says a turn of the source's loop is a turn of the plan, whatever the bound on the moves of a context, and
`defragSt_layers` that the copies emitted, the last pending run included, are what the layers have undergone at the
end.
-/

namespace Ollama.Kvcache

open Lib

/-- The variables of `defrag` without its contexts: `run` is the pending run and `emitted` the copies handed to
`moveCells`. -/
structure Plan where
  cells : List CacheCell
  src : Nat
  origin : Nat → Nat
  run : Move
  emitted : List Move

namespace Plan

/-- Whether the move of `src` into `dst` extends the pending run. -/
def Merges (p : Plan) (dst src : Nat) : Prop :=
  0 < p.run.len ∧ src + p.run.len = p.run.src ∧ dst = p.run.dst + p.run.len

instance (p : Plan) (dst src : Nat) : Decidable (p.Merges dst src) :=
  inferInstanceAs (Decidable (_ ∧ _ ∧ _))

/-- The move of the cell `src` into the hole `dst`. -/
def moveCell (p : Plan) (dst src : Nat) : Plan where
  cells := (p.cells.set dst (cellAt p.cells src)).set src {}
  src := src
  origin := Function.update p.origin dst (p.origin src)
  run := if p.Merges dst src then ⟨src, p.run.dst, p.run.len + 1⟩ else ⟨src, dst, 1⟩
  emitted := if 0 < p.run.len ∧ ¬p.Merges dst src then p.emitted ++ [p.run] else p.emitted

/-- One turn of the loop. -/
def turn (p : Plan) (dst : Nat) : Plan :=
  if dst < p.src then
    if (cellAt p.cells dst).empty then
      if findSrc p.cells dst p.src > dst then
        p.moveCell dst (findSrc p.cells dst p.src)
      else
        { p with src := findSrc p.cells dst p.src }
    else
      p
  else
    p

/-- All copies planned so far: those emitted and the pending run. -/
def all (p : Plan) : List Move := p.emitted ++ if 0 < p.run.len then [p.run] else []

/-- The plan before the first turn. -/
def start (cells : List CacheCell) : Plan := ⟨cells, cells.length - 1, id, ⟨0, 0, 0⟩, []⟩

/-- The plan after the loop. -/
def final (cells : List CacheCell) : Plan := (List.range cells.length).foldl turn (start cells)

/-- A move that extends the pending run makes it one longer and emits nothing. -/
theorem all_moveCell_of_merges {p : Plan} {dst src : Nat} (h : p.Merges dst src) :
    (p.moveCell dst src).all = p.emitted ++ [⟨src, p.run.dst, p.run.len + 1⟩] := by
  simp [all, moveCell, h]

/-- A move that does not is one more copy of a single row. -/
theorem all_moveCell_of_not_merges {p : Plan} {dst src : Nat} (h : ¬p.Merges dst src) :
    (p.moveCell dst src).all = p.all ++ [⟨src, dst, 1⟩] := by
  by_cases hl : 0 < p.run.len <;> simp [all, moveCell, h, hl]

end Plan

namespace DefragAux

variable {κ ν : Type}

theorem compute_append (p q : List Move) (ls : Layers κ ν) : compute (p ++ q) ls = compute q (compute p ls) := by
  simp [compute, List.map_map, Function.comp_def, Option.map_map]

theorem compute_nil (ls : Layers κ ν) : compute [] ls = ls := by
  simp [compute]

/-- What a list of copies leaves in a layer: each row is the old row at the location `pull` names. -/
theorem foldl_move (q : List Move) (l : Layer κ ν) :
    q.foldl Layer.move l = ⟨l.key ∘ pull q, l.value ∘ pull q⟩ := by
  rw [← applyMoves_eq, ← applyMoves_eq]
  induction q generalizing l with
  | nil => rfl
  | cons m q ih =>
    rw [List.foldl_cons, ih]
    rfl

/-- The state of `defrag` follows a plan: same cells and run, and the copies the plan emitted are those already computed and
those the current context holds. -/
structure Follows (ls : Layers κ ν) (s : DefragSt κ ν) (p : Plan) : Prop where
  cells : s.cells = p.cells
  src : s.src = p.src
  origin : s.origin = p.origin
  run : (⟨s.pendingSrc, s.pendingDst, s.pendingLen⟩ : Move) = p.run
  moves : s.moves = s.queue.length
  emitted : ∃ done, s.layers = compute done ls ∧ p.emitted = done ++ s.queue

/-- `Compute` and a new context change nothing of the plan. -/
theorem Follows.compute {ls : Layers κ ν} {s : DefragSt κ ν} {p : Plan} (h : Follows ls s p) :
    Follows ls { s.compute with moves := 0 } p := by
  obtain ⟨hc, hs, ho, hr, hm, done, hl, he⟩ := h
  refine ⟨hc, hs, ho, hr, rfl, p.emitted, ?_, by simp [DefragSt.compute]⟩
  rw [he, compute_append, ← hl]
  rfl

/-- Moving one cell follows the plan's move. -/
theorem Follows.moveCell {ls : Layers κ ν} {s : DefragSt κ ν} {p : Plan} (h : Follows ls s p) (dst src : Nat) :
    Follows ls (s.moveCell dst src) (p.moveCell dst src) := by
  obtain ⟨hc, hs, ho, hr, hm, done, hl, he⟩ := h
  obtain ⟨cells, psrc, origin, run, emitted⟩ := p
  simp only at hc hs ho hr he
  subst hc ho hr
  by_cases hlen : s.pendingLen > 0
  · by_cases hx : src + s.pendingLen = s.pendingSrc ∧ dst = s.pendingDst + s.pendingLen
    · refine ⟨?_, ?_, ?_, ?_, ?_, done, ?_, ?_⟩ <;>
        simp [DefragSt.moveCell, Plan.moveCell, Plan.Merges, hlen, hx, hm, hl, he]
    · refine ⟨?_, ?_, ?_, ?_, ?_, done, ?_, ?_⟩ <;>
        simp [DefragSt.moveCell, DefragSt.moveCells, Plan.moveCell, Plan.Merges, hlen, hx, hm, hl, he]
  · refine ⟨?_, ?_, ?_, ?_, ?_, done, ?_, ?_⟩ <;>
      simp [DefragSt.moveCell, Plan.moveCell, Plan.Merges, hlen, hm, hl, he]

/-- A turn of the source's loop follows a turn of the plan. -/
theorem turn_plan {ls : Layers κ ν} {s : DefragSt κ ν} {p : Plan} (maxMoves : Nat) (h : Follows ls s p) (dst : Nat) :
    Follows ls (s.turn maxMoves dst) (p.turn dst) := by
  have step : ∀ {s' : DefragSt κ ν} {p' : Plan}, Follows ls s' p' →
      Follows ls (if s'.moves ≥ maxMoves then { s'.compute with moves := 0 } else s') p' := by
    intro s' p' h'
    split
    · exact h'.compute
    · exact h'
  have hc := h.cells
  have hs := h.src
  simp only [DefragSt.turn, Plan.turn, hc, hs]
  by_cases hd : dst < p.src
  · rw [if_pos hd, if_pos hd]
    apply step
    by_cases he : (cellAt p.cells dst).empty
    · rw [if_pos he, if_pos he]
      by_cases hf : findSrc p.cells dst p.src > dst
      · rw [if_pos hf, if_pos hf]
        exact h.moveCell dst _
      · rw [if_neg hf, if_neg hf]
        exact ⟨rfl, rfl, h.origin, h.run, h.moves, h.emitted⟩
    · rw [if_neg he, if_neg he]
      exact h
  · rw [if_neg hd, if_neg hd]
    exact h

theorem foldl_plan {ls : Layers κ ν} (maxMoves : Nat) (ds : List Nat) {s : DefragSt κ ν} {p : Plan}
    (h : Follows ls s p) : Follows ls (ds.foldl (DefragSt.turn maxMoves) s) (ds.foldl Plan.turn p) := by
  induction ds generalizing s p with
  | nil => exact h
  | cons d ds ih => exact ih (turn_plan maxMoves h d)

/-- The loop of `defrag` follows the plan of its cells. -/
theorem loop_follows (maxMoves : Nat) (c : Causal κ ν) :
    Follows c.layers ((List.range c.cells.length).foldl (DefragSt.turn maxMoves)
      { cells := c.cells, layers := c.layers, src := c.cells.length - 1 }) (Plan.final c.cells) := by
  apply foldl_plan
  exact ⟨rfl, rfl, rfl, rfl, rfl, [], (compute_nil _).symm, rfl⟩

/-- The end of `defrag` computes every copy the plan holds. -/
theorem Follows.finish {ls : Layers κ ν} {s : DefragSt κ ν} {p : Plan} (h : Follows ls s p) :
    s.finish.cells = p.cells ∧ s.finish.origin = p.origin ∧ s.finish.layers = Kvcache.compute p.all ls := by
  obtain ⟨hc, hs, ho, hr, hm, done, hl, he⟩ := h
  have hlen : p.run.len = s.pendingLen := by rw [← hr]
  by_cases hp : s.pendingLen > 0
  · refine ⟨?_, ?_, ?_⟩
    · simp [DefragSt.finish, DefragSt.moveCells, DefragSt.compute, hp, hc]
    · simp [DefragSt.finish, DefragSt.moveCells, DefragSt.compute, hp, ho]
    · simp [DefragSt.finish, DefragSt.moveCells, DefragSt.compute, hp, Plan.all, ← hr, he, hl, compute_append]
  · have hq : s.moves > 0 ∨ s.queue = [] := by
      rw [hm]
      cases s.queue <;> simp
    rcases hq with hq | hq
    · simp [DefragSt.finish, DefragSt.compute, hp, hq, Plan.all, hlen, he, hl, hc, ho, compute_append]
    · simp [DefragSt.finish, hp, hm, hq, Plan.all, hlen, he, hl, hc, ho]

/-- What `defrag` leaves: the cells of the plan, and in every layer the rows the plan's copies bring. -/
theorem defragSt_layers (maxMoves : Nat) (c : Causal κ ν) :
    (c.defragSt maxMoves).cells = (Plan.final c.cells).cells ∧
      (c.defragSt maxMoves).origin = (Plan.final c.cells).origin ∧
      (c.defragSt maxMoves).layers = Kvcache.compute (Plan.final c.cells).all c.layers :=
  (loop_follows maxMoves c).finish

end DefragAux

end Ollama.Kvcache
