import Quadcode.Optimizer.Context

/-!
# Editing loops

What the passes on loops share: counting assignments, giving a loop a block in front of it, and
copying its blocks.
-/

namespace Quadcode

namespace Graph

/-- How often each variable is assigned in some blocks; the others have no entry. -/
def assignments (g : Graph) (blocks : List BlockId) : Std.ExtTreeMap VarId Nat :=
  (blocks.flatMap g.body).foldl (fun m q =>
    match q.result with
    | some v => m.insert v (m[v]?.getD 0 + 1)
    | none => m) ∅

/-- Sends every edge that enters a loop from outside to `b`, which is laid out before the header. -/
def enterThrough (g : Graph) (l : Loop) (b : BlockId) : Graph :=
  let place := (g.layout.idxOf? l.header).getD 0
  let g := (l.outsidePreds g).foldl (fun g p => g.setTail p ((g.tail p).retarget l.header b)) g
  { g with
    entry := if g.entry = l.header then b else g.entry
    layout := g.layout.insertIdx place b }

/-- Gives a loop a block that is the only way into its header from outside. The edges are stale
afterwards. -/
def insertPreheader (g : Graph) (l : Loop) (s : Supply) : BlockId × Graph × Supply :=
  let (b, s) := Block.fresh s
  let (pre, g) := g.addBlock { b with tail := .jump l.header }
  (pre, g.enterThrough l pre, s)

/-- Adds a copy of each block to the arena, with tails as they were. -/
def copyBodies : List BlockId → Graph → Supply → BlockMap BlockId →
    BlockMap BlockId × Graph × Supply
  | [], g, s, copies => (copies, g, s)
  | b :: rest, g, s, copies =>
    let (copy, s) := Block.fresh s
    let (c, g) := g.addBlock { copy with body := g.body b, tail := g.tail b }
    copyBodies rest g s (copies.insert b c)

/-- Copies blocks. Edges between them lead to the copies in the copies; the copies are laid out after
the last of the blocks. -/
def cloneBlocks (g : Graph) (blocks : List BlockId) (s : Supply) :
    BlockMap BlockId × Graph × Supply :=
  let (copies, g, s) := copyBodies blocks g s ∅
  let clones := blocks.filterMap (copies[·]?)
  let g := blocks.foldl (fun g b =>
    match copies[b]? with
    | some c => g.setTail c ((g.tail c).mapTargets fun t => copies[t]?.getD t)
    | none => g) g
  let behind := (g.layout.reverse.dropWhile fun b => copies[b]?.isNone).length
  let cut := if behind = 0 then g.layout.length else behind
  (copies, { g with layout := g.layout.take cut ++ clones ++ g.layout.drop cut }, s)

end Graph

/-- The size of a loop: its quadruples and tails. -/
def Loop.size (l : Loop) (g : Graph) : Nat :=
  l.blocks.toList.foldl (fun n b => n + (g.body b).length + 1) 0

namespace PassM

/-- An edit that may draw names. -/
def edit {α : Type} (f : Graph → Supply → α × Graph × Supply) : PassM α := do
  let w ← get
  let (a, g, s) := f w.graph w.supply
  set { w with graph := g, supply := s }
  return a

/-- The preheader of a loop, and whether it had to be made. -/
def preheader (l : Loop) : PassM (BlockId × Bool) := do
  match l.preheader? (← graph) with
  | some p => return (p, false)
  | none => return (← edit (·.insertPreheader l), true)

end PassM

end Quadcode
