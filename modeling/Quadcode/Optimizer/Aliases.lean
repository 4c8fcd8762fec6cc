import Quadcode.Optimizer.Context
import Quadcode.Optimizer.Local

/-!
# Known pointers

Within a block, a pointer that was assigned the address of a scalar is followed at once: reads and
writes through it become reads and writes of the scalar.
-/

namespace Quadcode.Aliases

/-- Pointers and the variables they point to. -/
abbrev Known := List (VarId × VarId)

/-- The same access without the pointer. -/
def direct? (known : Known) (q : Quad) : Option Quad :=
  match q.op with
  | .deref p =>
    if q.result.isSome then (known.lookup p).map fun x => { q with op := .assign (.var x) } else none
  | .derefStore p v => (known.lookup p).map fun x => ⟨some x, .assign v⟩
  | _ => none

/-- The known pointers after a quadruple; a fault when an address is taken of no variable. -/
def after (vars : Array Variable) (memory : VarSet) (known : Known) (q : Quad) :
    Except Failure Known :=
  match q.result with
  | none => pure known
  | some r =>
    let known := known.filter (·.1 ≠ r)
    match q.op with
    | .address x => do
      let target ← orFault vars[x]?
      pure (if target.ty.isScalar && r ∉ memory then (r, x) :: known else known)
    | _ => pure known

def body (vars : Array Variable) (memory : VarSet) :
    Known → List Quad → Except Failure (List Quad × Nat)
  | _, [] => pure ([], 0)
  | known, q :: rest => do
    let (q, n) := match direct? known q with
      | some q => (q, 1)
      | none => (q, 0)
    let (rest, k) ← body vars memory (← after vars memory known q) rest
    pure (q :: rest, n + k)

def graph (g : Graph) : Except Failure (Graph × Nat) :=
  let memory := g.memoryResident
  g.layout.foldlM (fun (g, n) b => do
    let (body, k) ← body g.vars memory [] (g.body b)
    pure (g.setBody b body, n + k)) (g, 0)

def pass : PassM Bool := do
  let (g, n) ← PassM.ofExcept (graph (← PassM.graph))
  PassM.setGraph g
  PassM.count "aliases.resolved" n
  return n > 0

end Quadcode.Aliases
