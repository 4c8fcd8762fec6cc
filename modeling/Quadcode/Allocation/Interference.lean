import Quadcode.Flow.Liveness

/-!
# Interference

Two variables interfere when both are live at some point, or one is assigned where the other is live
afterwards. They cannot share a register then.
-/

namespace Quadcode

/-- A symmetric relation between variables. -/
structure Interference where
  edges : Std.ExtTreeMap VarId VarSet := ∅

namespace Interference

def neighbours (i : Interference) (v : VarId) : VarSet := i.edges[v]?.getD ∅

def interferes (i : Interference) (a b : VarId) : Bool := b ∈ i.neighbours a

def degree (i : Interference) (v : VarId) : Nat := (i.neighbours v).size

/-- Adds one direction of an edge. -/
def arc (i : Interference) (a b : VarId) : Interference :=
  ⟨i.edges.insert a ((i.neighbours a).insert b)⟩

/-- Lets two different variables interfere. -/
def link (i : Interference) (a b : VarId) : Interference :=
  if a = b then i else (i.arc a b).arc b a

/-- Lets one variable interfere with others. -/
def linkAll (i : Interference) (a : VarId) (bs : List VarId) : Interference :=
  bs.foldl (·.link a ·) i

/-- Lets all of some variables interfere. -/
def clique (i : Interference) : List VarId → Interference
  | [] => i
  | a :: rest => clique (i.linkAll a rest) rest

/-- Takes a quadruple into account: what is live after it, and what it assigns. -/
def quad (candidates : VarSet) (i : Interference) (q : Quad) (after : VarSet) : Interference :=
  let live := after.toList.filter (· ∈ candidates)
  let i := i.clique live
  match q.result with
  | some d => if d ∈ candidates then i.linkAll d live else i
  | none => i

/-- Takes a block into account. -/
def block (candidates : VarSet) (g : Graph) (problem : Problem VarSet) (s : Solution VarSet)
    (i : Interference) (b : BlockId) : Except Failure Interference := do
  let i := i.clique ((← s.blockIn b).toList.filter (· ∈ candidates))
  let points ← problem.points g s b
  let i := ((g.body b).zip points).foldl (fun i (q, after) => i.quad candidates q after) i
  pure (i.clique ((points.getLastD ∅).toList.filter (· ∈ candidates)))

/-- The interference of the candidates. Every parameter is set at the start, read or not. -/
def build (g : Graph) (s : Solution VarSet) (candidates : VarSet) :
    Except Failure Interference := do
  let params := g.params.filter (· ∈ candidates)
  let i ←
    if g.params.isEmpty then pure {}
    else do
      let live := (← s.blockIn g.entry).toList.filter (· ∈ candidates)
      pure (params.foldl (·.linkAll · live) {})
  g.layout.foldlM (block candidates g (Liveness.problem g) s) i

end Interference

end Quadcode
