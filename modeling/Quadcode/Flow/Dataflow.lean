import Quadcode.Failure
import Quadcode.Graph.Order
import Std.Data.ExtTreeMap

/-!
# Iterated dataflow

A problem assigns a value to the start and to the end of every block. On the near side, where
values flow in, a block's value is met from the far sides of its neighbours; its code then takes the
near value to the far one. The solver sweeps over the blocks until a sweep leaves every far side as
it was.
-/

namespace Quadcode

/-- Maps from blocks, equal when they have the same entries. -/
abbrev BlockMap (α : Type) := Std.ExtTreeMap BlockId α

inductive Direction where
  | forward
  | backward
  deriving DecidableEq, Repr

structure Problem (α : Type) where
  direction : Direction
  /-- The name under which the solver reports failure. -/
  stage : String
  /-- What flows into the entry, or out of a return. -/
  boundary : α
  /-- The starting value of every other block. -/
  initial : α
  meet : α → α → α
  quad : Quad → α → α
  tail : Tail → α → α

/-- How often the blocks are swept over before the solver gives up. -/
def sweepLimit : Nat := 1000

namespace Problem

variable {α : Type} (p : Problem α) (g : Graph)

/-- The stored neighbours whose far sides flow into a block. -/
def neighbours (b : BlockId) : List BlockId :=
  match p.direction with
  | .forward => g.preds b
  | .backward => g.succs b

def atBoundary (b : BlockId) : Bool :=
  match p.direction with
  | .forward => b == g.entry
  | .backward => (g.tail b).isReturn

/-- The near value of a block; a fault when a neighbour has no value. -/
def gather (far : BlockMap α) (b : BlockId) : Except Failure α :=
  (p.neighbours g b).foldlM (fun v s => do pure (p.meet v (← orFault far[s]?)))
    (if p.atBoundary g b then p.boundary else p.initial)

/-- Takes the near value of a block through its code. -/
def through (b : BlockId) (v : α) : α :=
  match p.direction with
  | .forward => p.tail (g.tail b) ((g.body b).foldl (fun v q => p.quad q v) v)
  | .backward => (g.body b).foldr p.quad (p.tail (g.tail b) v)

/-- The order of a sweep. -/
def order : List BlockId :=
  match p.direction with
  | .forward => g.reversePostorder
  | .backward => g.postorder

end Problem

/-- The values found so far, and whether the current sweep has changed a far side. -/
structure Sweep (α : Type) where
  near : BlockMap α
  far : BlockMap α
  changed : Bool

/-- Values that satisfy the equations of a problem. -/
structure Solution (α : Type) where
  direction : Direction
  near : BlockMap α
  far : BlockMap α
  /-- Sweeps made, the last one included, which changed nothing. -/
  sweeps : Nat

namespace Problem

variable {α : Type} [DecidableEq α] (p : Problem α) (g : Graph)

/-- Recomputes one block. -/
def visit (s : Sweep α) (b : BlockId) : Except Failure (Sweep α) := do
  let v ← p.gather g s.far b
  let out := p.through g b v
  if s.far[b]? = some out then pure { s with near := s.near.insert b v }
  else pure ⟨s.near.insert b v, s.far.insert b out, true⟩

def sweep (near far : BlockMap α) : Except Failure (Sweep α) :=
  (p.order g).foldlM (p.visit g) ⟨near, far, false⟩

/-- Sweeps until nothing changes; `rest` more sweeps may follow the next one. -/
def iterate : (rest done : Nat) → (near far : BlockMap α) → Except Failure (Solution α)
  | rest, done, near, far => do
    let s ← p.sweep g near far
    if s.changed then
      match rest with
      | 0 => .error (.diagnostic ⟨p.stage, g.name, .diverged (done + 1)⟩)
      | rest + 1 => iterate rest (done + 1) s.near s.far
    else pure ⟨p.direction, s.near, s.far, done + 1⟩

/-- Solves with at most `limit + 1` sweeps. -/
def solveWithin (limit : Nat) : Except Failure (Solution α) :=
  let start : BlockMap α := (p.order g).foldl (fun m b => m.insert b p.initial) ∅
  p.iterate g limit 0 start start

def solve : Except Failure (Solution α) := p.solveWithin g sweepLimit

end Problem

namespace Solution

variable {α : Type}

/-- The value at the start of a block. -/
def blockIn (s : Solution α) (b : BlockId) : Except Failure α :=
  match s.direction with
  | .forward => orFault s.near[b]?
  | .backward => orFault s.far[b]?

/-- The value at the end of a block. -/
def blockOut (s : Solution α) (b : BlockId) : Except Failure α :=
  match s.direction with
  | .forward => orFault s.far[b]?
  | .backward => orFault s.near[b]?

end Solution

namespace Problem

variable {α : Type} (p : Problem α)

/-- Values before each quadruple and before the tail, from the value `v` at the start. -/
def pointsBefore : List Quad → α → List α
  | [], v => [v]
  | q :: rest, v => v :: pointsBefore rest (p.quad q v)

/-- Values after each quadruple and after the tail, from the value `v` at the end; and the value
before all of them. -/
def pointsAfter (tail : Tail) (v : α) : List Quad → List α × α
  | [] => ([v], p.tail tail v)
  | q :: rest =>
    let (points, after) := pointsAfter tail v rest
    (after :: points, p.quad q after)

/-- Values at each point of a block: one for each quadruple and one for the tail. A forward problem
gives the value before the point, a backward one the value after it. -/
def points (g : Graph) (s : Solution α) (b : BlockId) : Except Failure (List α) := do
  match p.direction with
  | .forward => pure (p.pointsBefore (g.body b) (← orFault s.near[b]?))
  | .backward => pure (p.pointsAfter (g.tail b) (← orFault s.near[b]?) (g.body b)).1

end Problem

end Quadcode
