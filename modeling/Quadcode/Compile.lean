import Quadcode.Lowering.Routine
import Quadcode.Module
import Quadcode.Statistics
import Quadcode.X86.Peephole

/-!
# Generating code for modules
-/

namespace Quadcode

open X86

/-- Places for the variables of a function, with what is live where. -/
def Graph.place (g : Graph) : Except Failure (Solution VarSet × Allocation) := do
  let live ← g.liveness
  let dominators ← g.dominators
  let allocation ← allocate g live (Loops.detect g dominators)
  pure (live, allocation)

/-- Generates the code of a function, without peephole optimization. -/
def Graph.lower (g : Graph) : LowerM Routine := do
  let (live, allocation) ← LowerM.ofExcept g.place
  Quadcode.lower g allocation live

/-- Generates the code of a function and counts what was done. -/
def Graph.compile (optimize : Bool) (g : Graph) : LowerM (Routine × Statistics) := do
  let (live, allocation) ← LowerM.ofExcept g.place
  let registers := allocation.locations.toList.countP Location.isRegister
  let stats := (Statistics.empty.add "regalloc.spills" allocation.spilled.length).add
    "regalloc.registers" registers
  let routine ← Quadcode.lower g allocation live
  if optimize then
    let (code, n) := Peephole.optimize routine.code
    return ({ routine with code }, stats.add "peephole.rewrites" n)
  else return (routine, stats)

namespace Module

/-- Generates code for functions one after the other; the first failure stops. -/
def compileGraphs (optimize : Bool) : List Graph → LowerM (List Routine × Statistics)
  | [] => return ([], .empty)
  | g :: rest => do
    let (routine, stats) ← g.compile optimize
    let (routines, others) ← compileGraphs optimize rest
    return (routine :: routines, stats.merge others)

/-- Generates the listing of a module. -/
def compile (m : Module) (optimize : Bool) : LowerM (Listing × Statistics) := do
  let (routines, stats) ← compileGraphs optimize m.graphs
  let literals ← get
  return (⟨routines, m.globals, m.strings.entries, literals.floats.toList⟩, stats)

end Module

end Quadcode
