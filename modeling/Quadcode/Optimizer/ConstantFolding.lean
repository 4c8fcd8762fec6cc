import Quadcode.Optimizer.Context

/-!
# Constant folding

Reads of variables that are known to be constant become constants, operations on constants become
their results, and a branch on constants becomes a jump.
-/

namespace Quadcode.ConstantFolding

/-- What is done, by kind. -/
structure Counts where
  substituted : Nat := 0
  folded : Nat := 0
  branches : Nat := 0
  deriving DecidableEq, Repr

def Counts.plus (a b : Counts) : Counts :=
  ⟨a.substituted + b.substituted, a.folded + b.folded, a.branches + b.branches⟩

/-- The constant that a variable is known to hold. -/
def known? (facts : Facts) : Arg → Option Const
  | .var v => (Facts.lookup facts v).const?
  | _ => none

def substitute (facts : Facts) (a : Arg) : Arg :=
  match known? facts a with
  | some c => .const c
  | none => a

/-- The value of an operation on constants. -/
def value? : Op → Option Const
  | .binOp op (.const x) (.const y) => op.fold x y
  | .unOp op (.const x) => op.fold x
  | .cmp c (.const x) (.const y) => (c.fold x y).map Const.ofBool
  | _ => none

/-- Transforms a quadruple by what is known before it. -/
def quad (facts : Facts) (q : Quad) : Quad × Counts :=
  let substituted := q.op.args.countP fun a => (known? facts a).isSome
  let q := q.mapArgs (substitute facts)
  if q.result.isSome then
    match value? q.op with
    | some c => ({ q with op := .assign (.const c) }, { substituted, folded := 1 })
    | none => (q, { substituted })
  else (q, { substituted })

/-- Transforms a tail by what is known before it. -/
def tail (facts : Facts) (t : Tail) : Tail × Counts :=
  let substituted := t.args.countP fun a => (known? facts a).isSome
  match t.mapArgs (substitute facts) with
  | .branch c (.const x) (.const y) onTrue onFalse =>
    match c.fold x y with
    | some taken => (.jump (if taken then onTrue else onFalse), { substituted, branches := 1 })
    | none => (.branch c (.const x) (.const y) onTrue onFalse, { substituted })
  | t => (t, { substituted })

/-- Transforms a body by what is known before each of its quadruples. -/
def body : List Quad → List Facts → List Quad × Counts
  | q :: rest, facts :: more =>
    let (q, n) := quad facts q
    let (rest, k) := body rest more
    (q :: rest, n.plus k)
  | rest, _ => (rest, {})

/-- Transforms a block by the facts at its points, the last of which is before the tail. -/
def block (points : List Facts) (b : Block) : Block × Counts :=
  let (body, n) := body b.body points
  let (tail, k) := tail (points.getLastD ∅) b.tail
  ({ b with body, tail }, n.plus k)

/-- Transforms every laid-out block of a graph. -/
def graph (facts : Solution Facts) (g : Graph) : Except Failure (Graph × Counts) :=
  let problem := Constants.problem g
  g.layout.foldlM (fun (g, n) b => do
    let points ← problem.points g facts b
    let (block, k) := block points (g.block b)
    pure (g.modifyBlock b fun _ => block, n.plus k)) (g, {})

def pass : PassM Bool := do
  let facts ← PassM.constants
  let (g, n) ← PassM.ofExcept (graph facts (← PassM.graph))
  PassM.setGraph (if n.branches > 0 then g.relink else g)
  PassM.count "const_prop.substituted" n.substituted
  PassM.count "const_prop.folded" n.folded
  PassM.count "const_prop.branches" n.branches
  return n.substituted + n.folded + n.branches > 0

end Quadcode.ConstantFolding
