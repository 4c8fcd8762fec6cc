import Quadcode.Optimizer.LoopEdit

/-!
# Unrolling

A loop that counts a variable from a constant to a constant by constant steps runs a known number of
times. If that is a small number, the loop becomes straight-line code; a loop of one block is
otherwise unrolled by four or two when that divides the number of its runs.
-/

namespace Quadcode.Unrolling

/-- The header's branch, which compares a variable with a constant. -/
structure ExitTest where
  comparison : Comparison
  counter : VarId
  bound : Int32
  /-- Whether the variable is the left operand. -/
  onLeft : Bool
  /-- The outcome on which the loop goes on. -/
  staysOn : Bool
  exit : BlockId
  deriving DecidableEq, Repr

namespace ExitTest

def of? (g : Graph) (l : Loop) : Option ExitTest :=
  match g.tail l.header with
  | .branch c x y onTrue onFalse =>
    let staysOn := l.contains onTrue
    if staysOn = l.contains onFalse then none
    else
      let exit := if staysOn then onFalse else onTrue
      match x, y with
      | .var v, .const (.int bound) => some ⟨c, v, bound, true, staysOn, exit⟩
      | .const (.int bound), .var v => some ⟨c, v, bound, false, staysOn, exit⟩
      | _, _ => none
  | _ => none

/-- Whether the loop goes on when the variable has a value. -/
def stays (t : ExitTest) (v : Int32) : Bool :=
  (if t.onLeft then t.comparison.testInt v t.bound else t.comparison.testInt t.bound v) == t.staysOn

end ExitTest

/-- The exact sum of two words. -/
def addExact (a b : Int32) : Option Int32 :=
  let sum := a.toInt + b.toInt
  if (Int32.ofInt sum).toInt = sum then some (Int32.ofInt sum) else none

/-- What a quadruple adds to a variable. -/
def step? (v : VarId) (q : Quad) : Option Int32 :=
  match q.op with
  | .binOp .add (.var x) (.const (.int c)) => if x = v then some c else none
  | .binOp .add (.const (.int c)) (.var x) => if x = v then some c else none
  | .binOp .sub (.var x) (.const (.int c)) =>
    if x = v ∧ c ≠ Int32.minValue then some (-c) else none
  | _ => none

/-- Goes on from block `b` to the header along tails without a test. -/
def pathToHeader (g : Graph) (l : Loop) : (fuel : Nat) → (path : List BlockId) → BlockId →
    Option (List BlockId)
  | fuel, path, b =>
    if b = l.header then some path
    else if !l.contains b || path.contains b then none
    else
      match (g.tail b).only?, fuel with
      | some next, fuel + 1 => pathToHeader g l fuel (path ++ [b]) next
      | _, _ => none

/-- The blocks of a loop that is a single cycle, the header first. -/
def cycle? (g : Graph) (l : Loop) (t : ExitTest) : Option (List BlockId) := do
  let start ← (g.succs l.header).find? (· ≠ t.exit)
  let path ← pathToHeader g l (l.blocks.size + 1) [l.header] start
  if path.length = l.blocks.size then some path else none

/-- The block of a cycle that assigns a variable, and what it adds to it. -/
def stepIn? (g : Graph) (cycle : List BlockId) (v : VarId) : Option (BlockId × Int32) := do
  let (b, q) ← cycle.findSome? fun b =>
    ((g.body b).find? fun q => q.result = some v).map (b, ·)
  (step? v q).map (b, ·)

/-- The value that a variable has on every way into a loop. -/
def start? (facts : Solution Facts) (v : VarId) :
    List BlockId → Option Int32 → Except Failure (Option Int32)
  | [], value => pure value
  | p :: rest, value => do
    match Facts.lookup (← facts.blockOut p) v with
    | .constant (.int c) =>
      if value = none ∨ value = some c then start? facts v rest (some c) else pure none
    | _ => pure none

/-- How often the loop goes on, if that is at most `limit` times more than the `count` times so far
and the variable stays within its word. `early` tells whether the step comes before the test. -/
def trips? (stays : Int32 → Bool) (step : Int32) (early : Bool) :
    (limit count : Nat) → Int32 → Option Nat
  | limit, count, v =>
    match if early then addExact v step else some v with
    | none => none
    | some v =>
      if stays v then
        match limit, if early then some v else addExact v step with
        | limit + 1, some v => trips? stays step early limit (count + 1) v
        | _, _ => none
      else some count

/-- A loop that is known to go on a number of times. -/
structure Counted where
  cycle : List BlockId
  exit : BlockId
  trips : Nat
  deriving DecidableEq, Repr

/-- The exit test, the cycle and the step of a loop that counts. -/
def counting? (g : Graph) (l : Loop) : Option (ExitTest × List BlockId × BlockId × Int32) := do
  let t ← ExitTest.of? g l
  if (l.exits g).length ≠ 1 ∨ t.counter ∈ g.memoryResident then none
  let cycle ← cycle? g l t
  if (g.assignments cycle)[t.counter]? ≠ some 1 then none
  let (b, step) ← stepIn? g cycle t.counter
  some (t, cycle, b, step)

def analyze (l : Loop) (limit : Nat) : PassM (Option Counted) := do
  let g ← PassM.graph
  match counting? g l with
  | none => return none
  | some (t, cycle, b, step) =>
    let facts ← PassM.constants
    match ← PassM.ofExcept (start? facts t.counter (l.outsidePreds g) none) with
    | none => return none
    | some v =>
      return (trips? t.stays step (b = l.header) limit 0 v).map (⟨cycle, t.exit, ·⟩)

/-- The code of all iterations, and of the header up to its last test. -/
def straightened (g : Graph) (l : Loop) (c : Counted) : List Quad :=
  (List.replicate c.trips (c.cycle.flatMap g.body)).flatten ++ g.body l.header

def straightenedSize (g : Graph) (l : Loop) (c : Counted) : Nat :=
  c.trips * (c.cycle.flatMap g.body).length + (g.body l.header).length

/-- Replaces a loop by straight-line code. -/
def straighten (g : Graph) (l : Loop) (c : Counted) (s : Supply) : Graph × Supply :=
  let (block, s) := Block.fresh s
  let (u, g') := g.addBlock { block with body := straightened g l c, tail := .jump c.exit }
  ((g'.enterThrough l u).relink, s)

/-- By what a loop of one block is unrolled. -/
def factor? (runs length size : Nat) : Option Nat :=
  [4, 2].find? fun k => runs % k = 0 && length * k ≤ size

/-- Repeats the body of a loop of one block. -/
def repeatBody (g : Graph) (header : BlockId) (k : Nat) : Graph :=
  g.setBody header (List.replicate k (g.body header)).flatten

/-- Iterations are counted up to this number before a loop is left as it is. -/
def countLimit : Nat := 65536

inductive Extent where
  | complete
  | partially
  deriving DecidableEq, Repr

/-- Unrolls a loop of one block in part, once. -/
def unrollPartially (l : Loop) : PassM (Option Extent) := do
  let w ← get
  let label := w.graph.label l.header
  if l.blocks.size ≠ 1 ∨ label ∈ w.context.unrolled then return none
  match ← analyze l countLimit with
  | none => return none
  | some c =>
    match factor? (c.trips + 1) (w.graph.body l.header).length w.context.config.unrollSize with
    | none => return none
    | some k =>
      modify fun w => { w with
        graph := repeatBody w.graph l.header k
        context := { w.context with unrolled := label :: w.context.unrolled } }
      PassM.invalidate .quadsOnly
      return some .partially

/-- Unrolls a loop if it can be done. -/
def unroll (l : Loop) : PassM (Option Extent) := do
  let config ← PassM.config
  match ← analyze l config.unrollLimit with
  | some c =>
    if straightenedSize (← PassM.graph) l c ≤ config.unrollSize then
      PassM.edit fun g s => ((), straighten g l c s)
      PassM.invalidate .everything
      return some .complete
    else unrollPartially l
  | none => unrollPartially l

/-- Unrolls the first loop of a list for which it can be done. -/
def unrollFirst : List Loop → PassM (Option Extent)
  | [] => return none
  | l :: rest => do
    match ← unroll l with
    | some extent => return some extent
    | none => unrollFirst rest

/-- Unrolls loop after loop; counts those unrolled completely and in part. -/
def search : (fuel : Nat) → (complete partially : Nat) → PassM (Nat × Nat)
  | fuel, complete, partially => do
    let loops ← PassM.loops
    match ← unrollFirst loops.innermostFirst with
    | none => return (complete, partially)
    | some extent =>
      match fuel with
      | 0 => throw .exhausted
      | fuel + 1 =>
        match extent with
        | .complete => search fuel (complete + 1) partially
        | .partially => search fuel complete (partially + 1)

def pass : PassM Bool := do
  let g ← PassM.graph
  let (complete, partially) ← search (2 * g.blocks.size + 2) 0 0
  PassM.count "unroll.complete" complete
  PassM.count "unroll.partial" partially
  return complete + partially > 0

end Quadcode.Unrolling
