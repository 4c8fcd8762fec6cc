import Quadcode.Flow.Constants
import Quadcode.Flow.Liveness
import Quadcode.Flow.Loops
import Quadcode.Graph.Relink
import Quadcode.Statistics

/-!
# The setting of a pass

A pass works on one graph. It asks for analyses, which are kept until something makes them stale,
draws generated names and counts what it does. When it fails, what it has done so far stays done.
-/

namespace Quadcode

structure Config where
  /-- 0: nothing; 1: passes on scalars and blocks; 2: passes on loops as well. -/
  level : Nat := 2
  maxRounds : Nat := 100
  /-- The most iterations of a loop that is replaced by straight-line code. -/
  unrollLimit : Nat := 8
  /-- The most quadruples an unrolled loop may have. -/
  unrollSize : Nat := 128
  /-- The largest loop that is duplicated to move a branch out of it. -/
  unswitchSize : Nat := 64
  deriving DecidableEq, Repr, Inhabited

def Config.disabled : Config := { level := 0 }

/-- What a change may have made stale. -/
structure Staleness where
  /-- Blocks or edges. -/
  edges : Bool
  /-- Quadruples. -/
  quads : Bool
  deriving DecidableEq, Repr

namespace Staleness

def everything : Staleness := ⟨true, true⟩
def quadsOnly : Staleness := ⟨false, true⟩

end Staleness

/-- Analyses of the current graph that have been asked for. -/
structure Analyses where
  dominators : Option Dominators := none
  loops : Option Loops := none
  liveness : Option (Solution VarSet) := none
  constants : Option (Solution Facts) := none

/-- An analysis of one of the kinds that passes ask for. -/
inductive Analysis where
  | dominators (d : Dominators)
  | loops (l : Loops)
  | liveness (s : Solution VarSet)
  | constants (s : Solution Facts)

/-- An analysis that was handed out, with the graph as it was then. -/
structure Given where
  graph : Graph
  analysis : Analysis

structure Context where
  config : Config := {}
  stats : Statistics := {}
  analyses : Analyses := {}
  /-- What has been handed out so far, the latest first. -/
  given : List Given := []
  /-- Labels of the headers of loops that have been unrolled in part. -/
  unrolled : List Label := []

/-- Drops what a change has made stale. -/
def Context.invalidate (c : Context) (s : Staleness) : Context :=
  let a := c.analyses
  let a := if s.edges then { a with dominators := none, loops := none } else a
  let a := if s.edges || s.quads then { a with liveness := none, constants := none } else a
  { c with analyses := a }

/-- What a pass reads and writes. -/
structure Work where
  graph : Graph
  context : Context
  supply : Supply

abbrev PassM := ExceptT Failure (StateM Work)

namespace PassM

def ofExcept {α : Type} : Except Failure α → PassM α
  | .ok a => pure a
  | .error e => throw e

def graph : PassM Graph := do return (← get).graph

def setGraph (g : Graph) : PassM Unit := modify ({ · with graph := g })

def modifyGraph (f : Graph → Graph) : PassM Unit :=
  modify fun w => { w with graph := f w.graph }

def config : PassM Config := do return (← get).context.config

def count (name : String) (n : Nat) : PassM Unit :=
  modify fun w => { w with context := { w.context with stats := w.context.stats.add name n } }

def invalidate (s : Staleness) : PassM Unit :=
  modify fun w => { w with context := w.context.invalidate s }

def setAnalyses (f : Analyses → Analyses) : PassM Unit :=
  modify fun w => { w with context := { w.context with analyses := f w.context.analyses } }

/-- Draws the label of a new, empty block. -/
def freshBlock : PassM Block := do
  let w ← get
  let (b, s) := Block.fresh w.supply
  set { w with supply := s }
  return b

/-- Adds an empty block under a generated label. -/
def newBlock : PassM BlockId := do
  let b ← freshBlock
  let w ← get
  let (id, g) := w.graph.addBlock b
  set { w with graph := g }
  return id

/-- The analysis that is kept, or else a new one, which is kept from now on. -/
def keptOr {α : Type} (kept? : Analyses → Option α) (keep : α → Analyses → Analyses)
    (compute : PassM α) : PassM α := do
  match kept? (← get).context.analyses with
  | some a => return a
  | none =>
    let a ← compute
    setAnalyses (keep a)
    return a

/-- Hands out an analysis. -/
def analysis {α : Type} (kind : α → Analysis) (kept? : Analyses → Option α)
    (keep : α → Analyses → Analyses) (compute : PassM α) : PassM α := do
  let a ← keptOr kept? keep compute
  modify fun w => { w with
    context := { w.context with given := ⟨w.graph, kind a⟩ :: w.context.given } }
  return a

def dominators : PassM Dominators :=
  analysis .dominators (·.dominators) (fun d a => { a with dominators := some d }) do
    ofExcept (← graph).dominators

def loops : PassM Loops :=
  analysis .loops (·.loops) (fun l a => { a with loops := some l }) do
    let d ← dominators
    return Loops.detect (← graph) d

def liveness : PassM (Solution VarSet) :=
  analysis .liveness (·.liveness) (fun s a => { a with liveness := some s }) do
    ofExcept (← graph).liveness

def constants : PassM (Solution Facts) :=
  analysis .constants (·.constants) (fun s a => { a with constants := some s }) do
    ofExcept (← graph).constants

end PassM

end Quadcode
