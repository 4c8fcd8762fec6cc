import Quadcode.Graph.Basic

/-!
# Depth-first order

The blocks reachable from the entry, each after the blocks that were first reached through it.
-/

namespace Quadcode

/-- A depth-first walk: the blocks it has entered, and those it has left, the latest first. -/
structure Walk where
  entered : BlockSet := ∅
  left : List BlockId := []

namespace Walk

/-- Visits a block and what it leads to. A nested visit is to a block not entered before, so the
nesting is no deeper than there are blocks. -/
def visit (next : BlockId → List BlockId) : (depth : Nat) → BlockId → Walk → Walk
  | 0, _, w => w
  | depth + 1, b, w =>
    if b ∈ w.entered then w
    else
      let w := (next b).foldl (fun w s => visit next depth s w)
        { w with entered := w.entered.insert b }
      { w with left := b :: w.left }

/-- The same walk with a stack of the blocks being visited, each with how many of its edges were followed. -/
def run (next : BlockId → List BlockId) : (fuel : Nat) → (stack : List (BlockId × Nat)) → Walk → Walk
  | 0, _, w | _, [], w => w
  | fuel + 1, (b, i) :: stack, w =>
    match (next b)[i]? with
    | none => run next fuel stack { w with left := b :: w.left }
    | some s =>
      if s ∈ w.entered then run next fuel ((b, i + 1) :: stack) w
      else run next fuel ((s, 0) :: (b, i + 1) :: stack) { w with entered := w.entered.insert s }

end Walk

namespace Graph

/-- A block is entered once, has at most two edges to follow, and is left once. -/
def reversePostorder (g : Graph) : List BlockId :=
  (Walk.run g.targets (3 * g.blocks.size) [(g.entry, 0)] { entered := (∅ : BlockSet).insert g.entry }).left

def postorder (g : Graph) : List BlockId := g.reversePostorder.reverse

def reachable (g : Graph) : BlockSet := .ofList g.reversePostorder

end Graph

end Quadcode
