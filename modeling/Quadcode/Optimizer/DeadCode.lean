import Quadcode.Optimizer.Context

/-!
# Dead code

A quadruple that only assigns a variable nobody reads afterwards is removed. If it does something
else as well, it only loses its result.
-/

namespace Quadcode.DeadCode

inductive Fate where
  | removed
  | unbound
  | kept
  deriving DecidableEq, Repr

/-- What becomes of a quadruple, by the variables live after it. -/
def fate (memory live : VarSet) (q : Quad) : Fate :=
  if q.op = .nop then .removed
  else
    match q.result with
    | none => .kept
    | some r =>
      if q.op = .assign (.var r) then .removed
      else if r ∈ memory || r ∈ live then .kept
      else if q.op.hasEffect then .unbound
      else .removed

/-- The quadruples that stay, the number of those removed, and of those that lost their result. -/
def body (memory : VarSet) : List Quad → List VarSet → List Quad × Nat × Nat
  | q :: rest, live :: more =>
    let (rest, removed, unbound) := body memory rest more
    match fate memory live q with
    | .removed => (rest, removed + 1, unbound)
    | .unbound => ({ q with result := none } :: rest, removed, unbound + 1)
    | .kept => (q :: rest, removed, unbound)
  | _, _ => ([], 0, 0)

def graph (live : Solution VarSet) (g : Graph) : Except Failure (Graph × Nat × Nat) :=
  let problem := Liveness.problem g
  let memory := g.memoryResident
  g.layout.foldlM (fun (g, n, k) b => do
    let points ← problem.points g live b
    let (body, removed, unbound) := body memory (g.body b) points
    pure (g.setBody b body, n + removed, k + unbound)) (g, 0, 0)

def pass : PassM Bool := do
  let live ← PassM.liveness
  let (g, removed, unbound) ← PassM.ofExcept (graph live (← PassM.graph))
  PassM.setGraph g
  PassM.count "dead_code.removed" removed
  return removed + unbound > 0

end Quadcode.DeadCode
