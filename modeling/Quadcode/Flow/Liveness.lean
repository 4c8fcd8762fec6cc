import Quadcode.Flow.Dataflow

/-!
# Live variables

A variable is live where some path reads it before any quadruple assigns it. A call may read the
globals and every variable whose address is taken, a read through a pointer the latter, and a
return leaves the globals to the caller.
-/

namespace Quadcode

def VarSet.addAll (s : VarSet) (vs : List VarId) : VarSet := vs.foldl (·.insert ·) s

namespace Liveness

/-- The variables live before a quadruple, from those live after it. -/
def before (globals addressTaken : VarSet) (q : Quad) (live : VarSet) : VarSet :=
  let live := match q.result with
    | some r => live.erase r
    | none => live
  let live := VarSet.addAll live q.uses
  match q.op with
  | .call .. => live ∪ globals ∪ addressTaken
  | .deref _ => live ∪ addressTaken
  | _ => live

def problem (g : Graph) : Problem VarSet :=
  let globals : VarSet := .ofList g.globals
  let addressTaken := g.addressTaken
  { direction := .backward
    stage := "liveness"
    boundary := globals
    initial := ∅
    meet := (· ∪ ·)
    quad := before globals addressTaken
    tail := fun t live => VarSet.addAll live t.uses }

end Liveness

def Graph.liveness (g : Graph) : Except Failure (Solution VarSet) := (Liveness.problem g).solve g

/-- The variables live after each quadruple of a block, and after its tail. -/
def Graph.livePoints (g : Graph) (s : Solution VarSet) (b : BlockId) :
    Except Failure (List VarSet) :=
  (Liveness.problem g).points g s b

end Quadcode
