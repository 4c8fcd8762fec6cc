import Quadcode.Flow.Loops
import Quadcode.Graph.Relink

/-!
# Edits that leave the edges alone

Two graphs have one shape when their blocks have the same labels, edges and order. Which blocks dominate
which, and which form loops, depends on nothing else.
-/

namespace Quadcode

open Array Dominators Loops

/-- Two blocks with one label that lead to the same blocks. -/
structure Block.SameEdges (x y : Block) : Prop where
  label : y.label = x.label
  preds : y.preds = x.preds
  succs : y.succs = x.succs
  successors : y.tail.successors = x.tail.successors

namespace Graph

variable {g h k : Graph} {b c : BlockId} {f : Block → Block}

/-! ## Changing one block -/

theorem modifyBlock_of_ne (other : b ≠ c) : (g.modifyBlock b f).block c = g.block c := by
  simp [modifyBlock, block, getD_eq_getD_getElem?, getElem?_modify, other]

/-- A block that is not there is not changed. -/
theorem modifyBlock_block_self :
    (g.modifyBlock b f).block b = f (g.block b) ∨ (g.modifyBlock b f).block b = g.block b := by
  simp only [modifyBlock, block, getD_eq_getD_getElem?, getElem?_modify, if_true]
  cases g.blocks[b]? with
  | none => exact .inr rfl
  | some x => exact .inl rfl

theorem modifyBlock_block (g : Graph) (b c : BlockId) (f : Block → Block) (inside : b < g.blocks.size) :
    (g.modifyBlock b f).block c = if b = c then f (g.block c) else g.block c := by
  by_cases same : b = c
  · subst same
    simp [modifyBlock, block, getD_eq_getD_getElem?, getElem?_modify, getElem?_eq_getElem inside]
  · rw [modifyBlock_of_ne same, if_neg same]

@[simp]
theorem modifyBlock_size : (g.modifyBlock b f).blocks.size = g.blocks.size := size_modify

/-- What a change of one block keeps there, it keeps everywhere. -/
theorem modifyBlock_keeps {β : Type} (field : Block → β) (kept : field (f (g.block b)) = field (g.block b))
    (c : BlockId) : field ((g.modifyBlock b f).block c) = field (g.block c) := by
  by_cases same : b = c
  · subst same
    rcases modifyBlock_block_self (g := g) (b := b) (f := f) with eq | eq
    · rw [eq, kept]
    · rw [eq]
  · rw [modifyBlock_of_ne same]

variable {body : List Quad}

theorem setBody_body (inside : b < g.blocks.size) (c : BlockId) :
    (g.setBody b body).body c = if b = c then body else g.body c := by
  rw [setBody, Graph.body, modifyBlock_block g b c _ inside]
  split <;> rfl

@[simp]
theorem setBody_tail (c : BlockId) : (g.setBody b body).tail c = g.tail c :=
  modifyBlock_keeps Block.tail (f := ({ · with body })) rfl c

theorem modifyBlock_eq_self (kept : f (g.block b) = g.block b) : g.modifyBlock b f = g := by
  have blocks : g.blocks.modify b f = g.blocks := by
    ext i bound bound'
    · exact size_modify
    · rw [getElem_modify]
      split
      next same =>
        subst same
        have here : g.block b = g.blocks[b] := by
          simp [block, getD_eq_getD_getElem?, getElem?_eq_getElem bound']
        rw [← here, kept]
      · rfl
  rw [modifyBlock, blocks]

/-! ## Graphs of one shape -/

/-- The same blocks with the same labels and edges in the same order. -/
structure SameShape (g h : Graph) : Prop where
  name : h.name = g.name
  size : h.blocks.size = g.blocks.size
  layout : h.layout = g.layout
  entry : h.entry = g.entry
  label : ∀ b, h.label b = g.label b
  preds : ∀ b, h.preds b = g.preds b
  edges : ∀ b, (h.block b).succs = (g.block b).succs
  successors : ∀ b, (h.tail b).successors = (g.tail b).successors

namespace SameShape

theorem refl (g : Graph) : g.SameShape g := ⟨rfl, rfl, rfl, rfl, fun _ => rfl, fun _ => rfl, fun _ => rfl, fun _ => rfl⟩

theorem trans (first : g.SameShape h) (second : h.SameShape k) : g.SameShape k where
  name := second.name.trans first.name
  size := second.size.trans first.size
  layout := second.layout.trans first.layout
  entry := second.entry.trans first.entry
  label b := (second.label b).trans (first.label b)
  preds b := (second.preds b).trans (first.preds b)
  edges b := (second.edges b).trans (first.edges b)
  successors b := (second.successors b).trans (first.successors b)

theorem modifyBlock (edges : (g.block b).SameEdges (f (g.block b))) : g.SameShape (g.modifyBlock b f) where
  name := rfl
  size := modifyBlock_size
  layout := rfl
  entry := rfl
  label := modifyBlock_keeps Block.label edges.label
  preds := modifyBlock_keeps Block.preds edges.preds
  edges := modifyBlock_keeps Block.succs edges.succs
  successors := modifyBlock_keeps (·.tail.successors) edges.successors

theorem setBody (g : Graph) (b : BlockId) (body : List Quad) : g.SameShape (g.setBody b body) :=
  modifyBlock ⟨rfl, rfl, rfl, rfl⟩

theorem redeclare (g : Graph) (vars : Array Variable) (params : List VarId) : g.SameShape { g with vars, params } :=
  ⟨rfl, rfl, rfl, rfl, fun _ => rfl, fun _ => rfl, fun _ => rfl, fun _ => rfl⟩

variable (shape : g.SameShape h)
include shape

theorem targets (b : BlockId) : h.targets b = g.targets b := by
  rw [Graph.targets, Graph.targets, Tail.targets, Tail.targets, shape.successors]

theorem succs (b : BlockId) : h.succs b = g.succs b := by
  rw [Graph.succs, Graph.succs, shape.edges]

theorem reversePostorder : h.reversePostorder = g.reversePostorder := by
  rw [Graph.reversePostorder, Graph.reversePostorder, shape.size, shape.entry, funext shape.targets]

/-! ### Dominators -/

theorem number (index : BlockMap Nat) (b : BlockId) : number h index b = number g index b := by
  unfold Dominators.number Dominators.fail
  rw [shape.label, shape.name]

theorem meetPreds (order : Array BlockId) (index : BlockMap Nat) (sets : Array Nat) (i : Nat) :
    meetPreds h order index sets i = meetPreds g order index sets i := by
  unfold Dominators.meetPreds
  simp only [shape.preds, shape.number]

theorem sweep (order : Array BlockId) (index : BlockMap Nat) (sets : Array Nat) :
    sweep h order index sets = sweep g order index sets := by
  unfold Dominators.sweep
  simp only [shape.meetPreds]

theorem iterate (order : Array BlockId) (index : BlockMap Nat) (rest done : Nat) (sets : Array Nat) :
    iterate h order index rest done sets = iterate g order index rest done sets := by
  induction rest generalizing done sets with
  | zero =>
    unfold Dominators.iterate Dominators.fail
    simp only [shape.sweep, shape.name]
  | succ rest ih =>
    unfold Dominators.iterate
    simp only [shape.sweep, ih]

theorem findFrontiers (order : Array BlockId) (idoms : BlockMap BlockId) :
    findFrontiers h order idoms = findFrontiers g order idoms := by
  unfold Dominators.findFrontiers
  simp only [shape.preds]

theorem dominators : h.dominators = g.dominators := by
  unfold Graph.dominators compute
  simp only [shape.reversePostorder, shape.layout, shape.number, shape.iterate, shape.findFrontiers]

/-! ### Loops -/

theorem naturalLoop (header latch : BlockId) : Loops.naturalLoop h header latch = Loops.naturalLoop g header latch := by
  rw [Loops.naturalLoop, Loops.naturalLoop, shape.size, funext shape.preds]

theorem detect (d : Dominators) : detect h d = detect g d := by
  unfold Loops.detect Loops.addEdge
  simp only [shape.succs, shape.naturalLoop]

end SameShape

/-! ## Edits that are counted -/

/-- An edit that keeps the shape of a graph, and the whole graph if it makes no change. -/
structure Edited (g h : Graph) (changes : Nat) : Prop where
  shape : g.SameShape h
  same : changes = 0 → h = g

namespace Edited

variable {n m : Nat}

theorem refl (g : Graph) : g.Edited g 0 := ⟨.refl g, fun _ => rfl⟩

theorem trans (first : g.Edited h n) (second : h.Edited k m) : g.Edited k (n + m) := by
  refine ⟨first.shape.trans second.shape, fun none => ?_⟩
  rw [second.same (by omega), first.same (by omega)]

theorem modifyBlock (edges : (g.block b).SameEdges (f (g.block b))) (same : n = 0 → f (g.block b) = g.block b) :
    g.Edited (g.modifyBlock b f) n :=
  ⟨.modifyBlock edges, fun none => modifyBlock_eq_self (same none)⟩

theorem setBody (same : n = 0 → body = g.body b) : g.Edited (g.setBody b body) n :=
  modifyBlock ⟨rfl, rfl, rfl, rfl⟩ fun none => by rw [same none]; rfl

end Edited

end Graph

end Quadcode
