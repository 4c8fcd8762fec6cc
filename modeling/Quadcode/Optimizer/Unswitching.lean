import Quadcode.Optimizer.LoopEdit

/-!
# Unswitching

A branch inside a loop on a condition that the loop does not change is moved in front of it. Either
outcome gets a copy of the loop.
-/

namespace Quadcode.Unswitching

/-- A branch in a loop that always goes the same way. -/
structure Switch where
  block : BlockId
  comparison : Comparison
  lhs : Arg
  rhs : Arg
  onTrue : BlockId
  onFalse : BlockId
  deriving DecidableEq, Repr

/-- Whether an argument cannot change inside a loop with these assignments. -/
def isInvariant (assigned : Std.ExtTreeMap VarId Nat) (memory : VarSet) : Arg → Bool
  | .var v => assigned[v]?.isNone && v ∉ memory
  | _ => true

/-- The first branch of a loop on invariant arguments that stays in the loop either way. -/
def switch? (g : Graph) (l : Loop) (memory : VarSet) : Option Switch :=
  let blocks := l.blocksInLayout g
  let assigned := g.assignments blocks
  blocks.findSome? fun b =>
    match g.tail b with
    | .branch c x y onTrue onFalse =>
      if l.contains onTrue && l.contains onFalse && isInvariant assigned memory x &&
          isInvariant assigned memory y then
        some ⟨b, c, x, y, onTrue, onFalse⟩
      else none
    | _ => none

/-- Puts a switch at the end of `pre`; a fault when a block of the loop has no copy. -/
def split (g : Graph) (l : Loop) (w : Switch) (pre : BlockId) (copies : BlockMap BlockId) :
    Except Failure Graph := do
  let block ← orFault copies[w.block]?
  let onFalse ← orFault copies[w.onFalse]?
  let header ← orFault copies[l.header]?
  let g := g.setTail w.block (.jump w.onTrue)
  let g := g.setTail block (.jump onFalse)
  pure (g.setTail pre (.branch w.comparison w.lhs w.rhs l.header header)).relink

def unswitch (l : Loop) (w : Switch) : PassM Unit := do
  let (pre, _) ← PassM.preheader l
  let copies ← PassM.edit fun g s => g.cloneBlocks (l.blocksInLayout g) s
  let g ← PassM.ofExcept (split (← PassM.graph) l w pre copies)
  PassM.setGraph g
  PassM.invalidate .everything

/-- The first loop that is small enough and has a switch. -/
def find? (g : Graph) (memory : VarSet) (max : Nat) (loops : List Loop) : Option (Loop × Switch) :=
  loops.findSome? fun l => if l.size g > max then none else (switch? g l memory).map (l, ·)

/-- Unswitches until no loop has a switch. -/
def search (memory : VarSet) : (fuel : Nat) → (count : Nat) → PassM Nat
  | fuel, count => do
    let loops ← PassM.loops
    let config ← PassM.config
    match find? (← PassM.graph) memory config.unswitchSize loops.innermostFirst with
    | none => return count
    | some (l, w) =>
      match fuel with
      | 0 => throw .exhausted
      | fuel + 1 =>
        unswitch l w
        search memory fuel (count + 1)

/-- Every loop may be split in two for each of its switches, and so on. -/
def searchFuel : Nat := 18446744073709551616

def pass : PassM Bool := do
  let g ← PassM.graph
  let n ← search g.memoryResident searchFuel 0
  PassM.count "unswitch.loops" n
  return n > 0

end Quadcode.Unswitching
