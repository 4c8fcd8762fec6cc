import Quadcode.Allocation.Assignment
import Quadcode.X86.FloatPool
import Quadcode.X86.Inst

/-!
# From quadruples to instructions: operands and moves

An argument becomes an operand, sometimes after an instruction that loads its address. No
instruction has two operands in memory; where both sides of a move are, it goes through a scratch
register.
-/

namespace Quadcode

open X86

/-- What is drawn from while code is generated. -/
structure Literals where
  floats : FloatPool := {}
  supply : Supply := {}
  deriving Inhabited

/-- Code generation. The literals drawn so far are kept when it fails. -/
abbrev LowerM := ExceptT Failure (StateM Literals)

/-- Adds a float literal to the data. -/
def LowerM.intern (x : Double) : LowerM Label := do
  let s ← get
  let (label, floats, supply) := s.floats.intern x s.supply
  set (⟨floats, supply⟩ : Literals)
  return label

def LowerM.ofExcept {α : Type} : Except Failure α → LowerM α
  | .ok a => pure a
  | .error e => throw e

namespace Lowering

/-- A function whose variables have places. -/
structure Site where
  graph : Graph
  allocation : Allocation

namespace Site

variable (s : Site)

def malformed {α : Type} (what : String) : Except Failure α :=
  .error (.diagnostic ⟨"lower", s.graph.name, .malformed what⟩)

/-- The label of a block in the listing. -/
def blockLabel (b : BlockId) : Label :=
  "." ++ s.graph.name ++ "_" ++ String.ofList ((s.graph.label b).toList.dropWhile (· == '.'))

def location (v : VarId) : Except Failure Location := orFault s.allocation.locations[v]?

def var (v : VarId) : Except Failure Variable := orFault s.graph.vars[v]?

end Site

def ofLocation : Location → Operand
  | .reg r => .reg r
  | .xmm x => .xmm x
  | .stack offset => .stack offset
  | .global name => .global name 0

/-- The operand of a variable. -/
def place (s : Site) (v : VarId) : Except Failure Operand := do
  pure (ofLocation (← s.location v))

def isFloat (s : Site) : Arg → Except Failure Bool
  | .var v => do pure (← s.var v).ty.isFloat
  | .const (.float _) => pure true
  | _ => pure false

/-- The operand of an argument, and the code that has to come first. The address of a string is
loaded into the second scratch register. -/
def operand (s : Site) : Arg → LowerM (List Inst × Operand)
  | .var v => do return ([], ← LowerM.ofExcept (place s v))
  | .const (.int i) => return ([], .imm i.toInt64)
  | .const (.float x) => do return ([], .global (← LowerM.intern x) 0)
  | .str label => return ([.lea scratch2 (.global label 0)], .reg scratch2)

def mov (dst src : Operand) : List Inst :=
  if dst.isMemory && src.isMemory then [.mov (.reg scratch) src, .mov dst (.reg scratch)]
  else [.mov dst src]

def movsd (dst src : Operand) : List Inst :=
  if dst.isMemory && src.isMemory then
    [.movsd (.xmm floatScratch) src, .movsd dst (.xmm floatScratch)]
  else [.movsd dst src]

def assign (float : Bool) (dst src : Operand) : List Inst :=
  if float then movsd dst src else mov dst src

/-- The register to compute in: the destination if it is one and may be overwritten early. -/
def workReg (dst : Operand) (early : Reg → Bool) : Reg :=
  match dst with
  | .reg r => if early r then r else scratch
  | _ => scratch

def workXmm (dst : Operand) (early : Xmm → Bool) : Xmm :=
  match dst with
  | .xmm x => if early x then x else floatScratch
  | _ => floatScratch

/-- Brings a result from where it was computed to its destination. -/
def deliver (dst : Operand) (work : Reg) : List Inst :=
  if dst = .reg work then [] else mov dst (.reg work)

def deliverXmm (dst : Operand) (work : Xmm) : List Inst :=
  if dst = .xmm work then [] else movsd dst (.xmm work)

/-- An operand that is not a constant. -/
def unImmediate : Operand → List Inst × Operand
  | .imm i => ([.mov (.reg scratch) (.imm i)], .reg scratch)
  | o => ([], o)

end Lowering

end Quadcode
