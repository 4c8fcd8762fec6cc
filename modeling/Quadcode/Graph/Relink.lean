import Quadcode.Graph.Order

/-!
# Refreshing the edges

`relink` drops unreachable blocks from the layout, lays out reachable ones that were not, and
recomputes the stored edges from the tails.
-/

namespace Quadcode.Graph

/-- The reachable blocks: those laid out already keep their order, the others follow. -/
def liveLayout (g : Graph) : List BlockId :=
  let order := g.reversePostorder
  let reachable : BlockSet := .ofList order
  let placed := g.layout.filter (· ∈ reachable)
  let placedSet : BlockSet := .ofList placed
  placed ++ order.filter (· ∉ placedSet)

/-- The laid-out blocks store the edges of their tails and no predecessors. -/
def cleared (g : Graph) : Graph :=
  { g with blocks := g.layout.foldl (fun blocks b => blocks.modify b fun block =>
      { block with preds := [], succs := block.tail.successors }) g.blocks }

/-- The stored edges of the laid-out blocks. -/
def edges (g : Graph) : List (BlockId × BlockId) := g.layout.flatMap fun b => (g.succs b).map (b, ·)

/-- Appends a block that is not listed yet. -/
def addOnce (preds : List BlockId) (b : BlockId) : List BlockId :=
  if preds.contains b then preds else preds ++ [b]

/-- The source of each stored edge becomes a predecessor of its target. -/
def refilled (g : Graph) : Graph :=
  { g with blocks := g.edges.foldl (fun blocks (b, s) => blocks.modify s fun block =>
      { block with preds := addOnce block.preds b }) g.blocks }

def relink (g : Graph) : Graph := { g with layout := g.liveLayout }.cleared.refilled

end Quadcode.Graph
