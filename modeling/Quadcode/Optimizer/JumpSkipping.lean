import Quadcode.Optimizer.Context

/-!
# Jumps to empty blocks

A jump into a block without code goes straight to where that block leads. The one edge into a loop
from outside is kept.
-/

namespace Quadcode.JumpSkipping

/-- Empty blocks and where they lead. -/
abbrev Skips := BlockMap BlockId

def isEmpty (b : Block) : Bool := b.body.all fun q => q.op = .nop

def isHeader (g : Graph) (d : Dominators) (h : BlockId) : Bool :=
  (g.preds h).any fun p => d.dominates h p

/-- Where an empty block leads, if jumps to it may go there at once. -/
def skip? (g : Graph) (d : Dominators) (b : BlockId) : Option BlockId :=
  if b = g.entry || !isEmpty (g.block b) then none
  else
    match (g.tail b).only? with
    | some t =>
      if t = b then none
      else if isHeader g d t && !d.dominates t b then none
      else some t
    | none => none

def skips (g : Graph) (d : Dominators) : Skips :=
  g.layout.foldl (fun m b =>
    match skip? g d b with
    | some t => m.insert b t
    | none => m) ∅

/-- Follows empty blocks to the first that is not one; none on a cycle. -/
def follow? (skips : Skips) : (steps : Nat) → BlockId → Option BlockId
  | steps, b =>
    match skips[b]?, steps with
    | none, _ => some b
    | some _, 0 => none
    | some next, steps + 1 => follow? skips steps next

/-- Where a jump to a block should go; a cycle of empty blocks is left alone. -/
def resolve (skips : Skips) (b : BlockId) : BlockId := (follow? skips skips.size b).getD b

def tail (skips : Skips) (t : Tail) : Tail :=
  match t.mapTargets (resolve skips) with
  | .branch c x y onTrue onFalse =>
    if onTrue = onFalse then .jump onTrue else .branch c x y onTrue onFalse
  | t => t

def graph (d : Dominators) (g : Graph) : Graph × Nat :=
  let skips := skips g d
  g.layout.foldl (fun (g, n) b =>
    let old := g.tail b
    let new := tail skips old
    if new = old then (g, n) else (g.setTail b new, n + 1)) (g, 0)

def pass : PassM Bool := do
  let d ← PassM.dominators
  let (g, n) := graph d (← PassM.graph)
  PassM.setGraph (if n > 0 then g.relink else g)
  PassM.count "skip_jumps.redirected" n
  return n > 0

end Quadcode.JumpSkipping
