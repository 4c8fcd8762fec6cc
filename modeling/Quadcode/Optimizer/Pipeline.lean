import Quadcode.Optimizer.Aliases
import Quadcode.Optimizer.BlockMerging
import Quadcode.Optimizer.CommonSubexpressions
import Quadcode.Optimizer.ConstantFolding
import Quadcode.Optimizer.CopyPropagation
import Quadcode.Optimizer.DeadCode
import Quadcode.Optimizer.EmptyFunctions
import Quadcode.Optimizer.InvariantMotion
import Quadcode.Optimizer.JumpSkipping
import Quadcode.Optimizer.Parameters
import Quadcode.Optimizer.Unrolling
import Quadcode.Optimizer.Unswitching

/-!
# Running the passes

A function is optimized in rounds of all passes until a round changes nothing. A module is optimized
in rounds as well: first the passes on whole modules, then every function by itself.
-/

namespace Quadcode

structure Pass where
  name : String
  run : PassM Bool
  /-- What a change makes stale. -/
  staleness : Staleness
  /-- The lowest level of optimization that runs the pass. -/
  level : Nat

namespace Pass

/-- The passes in the order of a round. -/
def all : List Pass :=
  [ ⟨"const_prop", ConstantFolding.pass, .everything, 1⟩,
    ⟨"copy_prop", CopyPropagation.pass, .quadsOnly, 1⟩,
    ⟨"resolve_aliases", Aliases.pass, .quadsOnly, 1⟩,
    ⟨"cse", CommonSubexpressions.pass, .quadsOnly, 1⟩,
    ⟨"dead_code", DeadCode.pass, .quadsOnly, 1⟩,
    ⟨"skip_jumps", JumpSkipping.pass, .everything, 1⟩,
    ⟨"merge_blocks", BlockMerging.pass, .everything, 1⟩,
    ⟨"licm", InvariantMotion.pass, .everything, 2⟩,
    ⟨"unswitch", Unswitching.pass, .everything, 2⟩,
    ⟨"unroll", Unrolling.pass, .everything, 2⟩ ]

def find? (name : String) : Option Pass := all.find? (·.name == name)

/-- The passes of a level of optimization. -/
def upTo (level : Nat) : List Pass := all.filter (·.level ≤ level)

/-- Runs a pass and drops what it has made stale. -/
def perform (p : Pass) : PassM Bool := do
  let changed ← p.run
  if changed then PassM.invalidate p.staleness
  return changed

/-- Runs passes one after the other; whether one of them has changed something. -/
def round : List Pass → PassM Bool
  | [] => return false
  | p :: rest => do
    let changed ← p.perform
    let more ← round rest
    return changed || more

/-- Runs rounds until one changes nothing, at most `left` of them. -/
def rounds (passes : List Pass) : (left : Nat) → (changed : Bool) → PassM Bool
  | 0, _ => do
    let w ← get
    throw (.diagnostic ⟨"pass manager", w.graph.name, .passCap w.context.config.maxRounds⟩)
  | left + 1, changed => do
    if ← round passes then rounds passes left true else return changed

end Pass

/-- Optimizes one function. -/
def optimizeGraph : PassM Bool := do
  let config ← PassM.config
  let passes := Pass.upTo config.level
  if passes.isEmpty then return false
  Pass.rounds passes config.maxRounds false

namespace Module

/-- Optimizes functions one after the other, each with a context of its own. -/
def optimizeGraphs (config : Config) : List Graph → Supply →
    Except Failure (List Graph × Bool × List Statistics × Supply)
  | [], s => pure ([], false, [], s)
  | g :: rest, s =>
    match optimizeGraph.run.run ⟨g, { config }, s⟩ with
    | (.error e, _) => .error e
    | (.ok changed, w) => do
      let (rest, more, stats, s) ← optimizeGraphs config rest w.supply
      pure (w.graph :: rest, changed || more, w.context.stats :: stats, s)

/-- Runs the passes on whole modules. -/
def interprocedural (m : Module) (stats : Statistics) (s : Supply) :
    Except Failure (Module × Bool × Statistics × Supply) := do
  let (m, s, propagated) ← Parameters.pass m s
  let stats := propagated.elim stats (stats.add "propagate_parameters.propagated")
  let (m, removed) := EmptyFunctions.pass m
  let stats := removed.elim stats (stats.add "remove_empty_functions.removed")
  pure (m, propagated.isSome || removed.isSome, stats, s)

def optimizeRounds (config : Config) : (left : Nat) → Module → Statistics → Supply →
    Except Failure (Module × Statistics × Supply)
  | 0, _, _, _ => .error (.diagnostic ⟨"pass manager", "<module>", .passCap config.maxRounds⟩)
  | left + 1, m, stats, s => do
    let (m, changed, stats, s) ← m.interprocedural stats s
    let (graphs, more, perGraph, s) ← optimizeGraphs config m.graphs s
    let m := { m with graphs }
    let stats := perGraph.foldl Statistics.merge stats
    if changed || more then optimizeRounds config left m stats s else pure (m, stats, s)

/-- Optimizes a module and counts what was done. -/
def optimize (config : Config) (m : Module) (s : Supply) :
    Except Failure (Module × Statistics × Supply) :=
  if config.level = 0 then pure (m, .empty, s)
  else optimizeRounds config config.maxRounds m .empty s

end Module

end Quadcode
