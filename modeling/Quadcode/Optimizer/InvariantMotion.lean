import Quadcode.Optimizer.LoopEdit

/-!
# Moving invariant code out of loops

A quadruple that computes the same value in every iteration is moved to the block in front of the
loop, innermost loops first.
-/

namespace Quadcode.InvariantMotion

/-- A quadruple by its block and its place there. -/
abbrev Spot := BlockId × Nat

/-- Whether a quadruple does nothing but compute a value, and never fails. -/
def isMovable (q : Quad) : Bool :=
  match q.op with
  | .assign _ | .binOp .. | .unOp .. | .cmp .. => !q.op.canTrap
  | _ => false

/-- What the search for invariant code in one loop needs to know. -/
structure Setting where
  graph : Graph
  loop : Loop
  dominators : Dominators
  live : Solution VarSet
  /-- Variables that live in memory. -/
  memory : VarSet
  blocks : List BlockId
  assigned : Std.ExtTreeMap VarId Nat
  exits : List (BlockId × BlockId)
  liveAtHeader : VarSet

/-- What has been found to be invariant: the variables, and the spots with the last one first. -/
structure Found where
  vars : VarSet := ∅
  spots : List Spot := []

/-- Whether each way out of the loop passes through `b` or leads to where `v` is not read. -/
def leavesUnseen (s : Setting) (b : BlockId) (v : VarId) :
    List (BlockId × BlockId) → Except Failure Bool
  | [] => pure true
  | (inside, outside) :: rest => do
    if s.dominators.dominates b inside then leavesUnseen s b v rest
    else if v ∈ (← s.live.blockIn outside) then pure false
    else leavesUnseen s b v rest

/-- Whether `v` is assigned once in the loop, by `q`, and only read after that. -/
def isSingle (s : Setting) (found : Found) (q : Quad) (v : VarId) : Bool :=
  v ∉ found.vars && isMovable q && v ∉ s.memory && s.assigned[v]? = some 1 && v ∉ s.liveAtHeader

/-- Whether a quadruple reads only what does not change in the loop. -/
def readsInvariant (s : Setting) (found : Found) (q : Quad) : Bool :=
  q.uses.all fun u => u ∉ s.memory && (s.assigned[u]?.isNone || u ∈ found.vars)

def examine (s : Setting) (b : BlockId) (found : Found) (q : Quad) (i : Nat) :
    Except Failure Found :=
  match q.result with
  | none => pure found
  | some v =>
    if isSingle s found q v then do
      let unseen ← leavesUnseen s b v s.exits
      if readsInvariant s found q && unseen then
        pure ⟨found.vars.insert v, (b, i) :: found.spots⟩
      else pure found
    else pure found

/-- One look at every quadruple of the loop. -/
def scan (s : Setting) (found : Found) : Except Failure Found :=
  s.blocks.foldlM (fun found b =>
    (s.graph.body b).zipIdx.foldlM (fun found (q, i) => examine s b found q i) found) found

/-- Looks again as long as something new is found. Each look but the last finds a variable. -/
def collect (s : Setting) : (fuel : Nat) → Found → Except Failure Found
  | fuel, found => do
    let more ← scan s found
    if more.spots.length = found.spots.length then pure found
    else
      match fuel with
      | 0 => .error .exhausted
      | fuel + 1 => collect s fuel more

/-- The invariant quadruples of a loop, operands before their users. -/
def invariants (g : Graph) (l : Loop) (d : Dominators) (live : Solution VarSet)
    (memory : VarSet) : Except Failure (List Spot) := do
  let blocks := l.blocksInLayout g
  let liveAtHeader ← live.blockIn l.header
  let s : Setting :=
    { graph := g, loop := l, dominators := d, live, memory, blocks
      assigned := g.assignments blocks, exits := l.exits g, liveAtHeader }
  let found ← collect s ((blocks.flatMap g.body).length + 1) {}
  pure found.spots.reverse

/-- Moves quadruples to the end of a block. -/
def move (g : Graph) (spots : List Spot) (pre : BlockId) : Graph :=
  let quads := spots.filterMap fun (b, i) => (g.body b)[i]?
  let blocks := (spots.map (·.1)).eraseDups
  let g := blocks.foldl (fun g b =>
    g.setBody b (((g.body b).zipIdx.filter fun (_, i) => (b, i) ∉ spots).map (·.1))) g
  g.setBody pre (g.body pre ++ quads)

/-- Empties one loop of invariant code and tells how much there was. -/
def hoist (memory : VarSet) (l : Loop) : PassM Nat := do
  let d ← PassM.dominators
  let live ← PassM.liveness
  let spots ← PassM.ofExcept (invariants (← PassM.graph) l d live memory)
  if spots.isEmpty then return 0
  let (pre, isNew) ← PassM.preheader l
  if isNew then
    PassM.modifyGraph Graph.relink
    PassM.invalidate .everything
  PassM.modifyGraph (move · spots pre)
  PassM.invalidate .quadsOnly
  return spots.length

/-- Treats the loops whose headers' labels have not been visited. -/
def visitLoops (memory : VarSet) : (fuel : Nat) → (visited : List Label) → (total : Nat) → PassM Nat
  | fuel, visited, total => do
    let loops ← PassM.loops
    let g ← PassM.graph
    match loops.innermostFirst.find? fun l => !visited.contains (g.label l.header) with
    | none => return total
    | some l =>
      match fuel with
      | 0 => throw .exhausted
      | fuel + 1 =>
        let n ← hoist memory l
        visitLoops memory fuel (g.label l.header :: visited) (total + n)

def pass : PassM Bool := do
  let g ← PassM.graph
  let total ← visitLoops g.memoryResident (2 * g.blocks.size + 2) [] 0
  PassM.count "licm.hoisted" total
  return total > 0

end Quadcode.InvariantMotion
