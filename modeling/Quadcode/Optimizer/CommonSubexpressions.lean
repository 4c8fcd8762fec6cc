import Quadcode.Optimizer.Context
import Quadcode.Optimizer.Local

/-!
# Common subexpressions

Within a block, an expression whose value a variable still holds is not computed again. Sums and
products are the same in either order, and a comparison is the same as the swapped one.
-/

namespace Quadcode.CommonSubexpressions

/-- Whether two operations compute the same value. -/
def same : Op → Op → Bool
  | .binOp op x y, .binOp op' x' y' =>
    op = op' && ((x = x' && y = y') || (op.isCommutative && y = x' && x = y'))
  | .cmp c x y, .cmp c' x' y' =>
    (c = c' && x = x' && y = y') || (c = c'.swap && x = y' && y = x')
  | a, b => a = b

/-- Expressions and the variables that hold their values. -/
abbrev Available := List (Op × VarId)

def mentions (e : Op) (v : VarId) : Bool := (Quad.effect e).uses.contains v

/-- The expression that a quadruple computes for `r`, if it can be shared. -/
def candidate? (memory : VarSet) (r : VarId) (q : Quad) : Option Op :=
  if r ∈ memory then none
  else
    match q.op with
    | .binOp .. | .unOp .. | .cmp .. =>
      if q.uses.any (· ∈ memory) then none else some q.op
    | _ => none

/-- The variable that holds an expression's value. -/
def holder? (available : Available) (e : Op) : Option VarId :=
  (available.find? fun a => same e a.1).map (·.2)

/-- Forgets what depends on a variable that is about to change. -/
def forget (available : Available) (r : VarId) : Available :=
  available.filter fun (e, h) => h ≠ r && !mentions e r

def quad (memory : VarSet) (available : Available) (q : Quad) : Quad × Available × Nat :=
  match q.result with
  | none => (q, available, 0)
  | some r =>
    let kept := forget available r
    match candidate? memory r q with
    | none => (q, kept, 0)
    | some e =>
      match holder? available e with
      | some h => if h = r then (q, kept, 0) else ({ q with op := .assign (.var h) }, kept, 1)
      | none => (q, if mentions e r then kept else (e, r) :: kept, 0)

def block (memory : VarSet) (b : Block) : Block × Nat :=
  let (body, _, n) := transformBody (quad memory) [] b.body
  ({ b with body }, n)

def graph (g : Graph) : Graph × Nat := g.transformBlocks (block g.memoryResident)

def pass : PassM Bool := do
  let (g, n) := graph (← PassM.graph)
  PassM.setGraph g
  PassM.count "cse.replaced" n
  return n > 0

end Quadcode.CommonSubexpressions
