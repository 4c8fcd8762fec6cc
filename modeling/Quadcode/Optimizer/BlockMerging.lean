import Quadcode.Optimizer.Context

/-!
# Merging blocks

A block with one predecessor, which leads nowhere else, is appended to it.
-/

namespace Quadcode.BlockMerging

/-- The block that can be appended to `b`. -/
def appendable? (g : Graph) (b : BlockId) : Option BlockId :=
  (g.tail b).only?.filter fun s => s ≠ b && s ≠ g.entry && g.preds s = [b]

/-- The first two blocks that can be merged. -/
def find? (g : Graph) : Option (BlockId × BlockId) :=
  g.layout.findSome? fun b => (appendable? g b).map (b, ·)

def merge (g : Graph) (b s : BlockId) : Graph :=
  let body := g.body s
  let tail := g.tail s
  ((g.setBody s []).modifyBlock b fun block =>
    { block with body := block.body ++ body, tail }).relink

/-- Merges while there is something to merge. Each merge leaves one block less in the layout. -/
def mergeAll : (fuel : Nat) → Graph → Nat → Except Failure (Graph × Nat)
  | fuel, g, n =>
    match find? g, fuel with
    | none, _ => pure (g, n)
    | some _, 0 => .error .exhausted
    | some (b, s), fuel + 1 => mergeAll fuel (merge g b s) (n + 1)

def graph (g : Graph) : Except Failure (Graph × Nat) := mergeAll (g.blocks.size + 1) g 0

def pass : PassM Bool := do
  let (g, n) ← PassM.ofExcept (graph (← PassM.graph))
  PassM.setGraph g
  PassM.count "merge_blocks.merged" n
  return n > 0

end Quadcode.BlockMerging
