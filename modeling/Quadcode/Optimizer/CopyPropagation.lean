import Quadcode.Optimizer.Context
import Quadcode.Optimizer.Local

/-!
# Copy propagation

Within a block, a variable that was assigned another variable or a constant is read as that one,
until either is assigned again. Variables in memory take no part, since a pointer may change them.
-/

namespace Quadcode.CopyPropagation

/-- Variables and what they are copies of. -/
abbrev Copies := List (VarId × Arg)

def copied? (copies : Copies) (a : Arg) : Option Arg := a.var?.bind (copies.lookup ·)

def replace (copies : Copies) (a : Arg) : Arg := (copied? copies a).getD a

/-- Forgets copies of and in a variable. -/
def forget (copies : Copies) (r : VarId) : Copies :=
  copies.filter fun (v, x) => v ≠ r && x.var? ≠ some r

/-- Whether `r = x` makes `r` a copy. -/
def isCopy (memory : VarSet) (r : VarId) (x : Arg) : Bool :=
  r ∉ memory &&
    match x.var? with
    | some v => v ≠ r && v ∉ memory
    | none => true

/-- The copies after a quadruple. -/
def after (memory : VarSet) (copies : Copies) (q : Quad) : Copies :=
  match q.result with
  | none => copies
  | some r =>
    let copies := forget copies r
    match q.op with
    | .assign x => if isCopy memory r x then (r, x) :: copies else copies
    | _ => copies

def quad (memory : VarSet) (copies : Copies) (q : Quad) : Quad × Copies × Nat :=
  let n := q.op.args.countP fun a => (copied? copies a).isSome
  let q := q.mapArgs (replace copies)
  (q, after memory copies q, n)

def block (memory : VarSet) (b : Block) : Block × Nat :=
  let (body, copies, n) := transformBody (quad memory) [] b.body
  let k := b.tail.args.countP fun a => (copied? copies a).isSome
  ({ b with body, tail := b.tail.mapArgs (replace copies) }, n + k)

def graph (g : Graph) : Graph × Nat := g.transformBlocks (block g.memoryResident)

def pass : PassM Bool := do
  let (g, n) := graph (← PassM.graph)
  PassM.setGraph g
  PassM.count "copy_prop.replaced" n
  return n > 0

end Quadcode.CopyPropagation
