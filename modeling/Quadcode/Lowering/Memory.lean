import Quadcode.Lowering.Basic

/-!
# From quadruples to instructions: memory

Offsets beyond the reach of an operand stop at its limits.
-/

namespace Quadcode.Lowering

open X86

variable (s : Site)

/-- The nearest 32-bit word to an integer. -/
def saturate (i : Int) : Int32 :=
  if i < Int32.minValue.toInt then Int32.minValue
  else if Int32.maxValue.toInt < i then Int32.maxValue
  else Int32.ofInt i

/-- The byte offset of an element whose index is known. -/
def knownOffset? : Arg → Option Int32
  | .const (.int i) => some (saturate (slotBytes * i.toInt))
  | _ => none

/-- The word at an offset from an operand, if that is an operand too. -/
def offsetBy? (c : Int32) : Operand → Option Operand
  | .mem base none offset => some (.mem base none (saturate (offset.toInt + c.toInt)))
  | .global label offset => some (.global label (saturate (offset.toInt + c.toInt)))
  | _ => none

/-- The element behind the address in the second scratch register. -/
def elementBehind (index : Arg) : LowerM (List Inst × Operand) :=
  match knownOffset? index with
  | some c => return ([], .mem scratch2 none c)
  | none => do
    let (load, i) ← operand s index
    return (load ++ mov (.reg scratch) i, .mem scratch2 (some scratch) 0)

/-- An element of an aggregate, or of what a pointer points to. Both scratch registers may be
overwritten. -/
def element (base : VarId) (index : Arg) : LowerM (List Inst × Operand) := do
  let x ← LowerM.ofExcept (s.var base)
  let m ← LowerM.ofExcept (place s base)
  if x.ty.isPointer then
    let (code, e) ← elementBehind s index
    return (mov (.reg scratch2) m ++ code, e)
  else
    match (knownOffset? index).bind (offsetBy? · m) with
    | some e => return ([], e)
    | none =>
      let (code, e) ← elementBehind s index
      return (.lea scratch2 m :: code, e)

/-- Moves a value that is to be stored out of the way of the address, and tells whether it is a
float. -/
def stage (x : Arg) : LowerM (List Inst × Bool × Operand) := do
  let float ← LowerM.ofExcept (isFloat s x)
  let (load, src) ← operand s x
  if float then return (load ++ movsd (.xmm floatScratch2) src, true, .xmm floatScratch2)
  else return (load ++ mov (.reg result) src, false, .reg result)

def load (float : Bool) (dst : Operand) (base : VarId) (index : Arg) : LowerM (List Inst) := do
  let (code, e) ← element s base index
  return code ++ assign float dst e

def store (base : VarId) (index value : Arg) : LowerM (List Inst) := do
  let (staged, float, value) ← stage s value
  let (code, e) ← element s base index
  return staged ++ code ++ assign float e value

def address (dst : Operand) (v : VarId) : LowerM (List Inst) := do
  let m ← LowerM.ofExcept (place s v)
  if m.isMemory then
    match dst with
    | .reg r => return [.lea r m]
    | dst => return .lea scratch m :: mov dst (.reg scratch)
  else LowerM.ofExcept (s.malformed "address of a register")

def deref (float : Bool) (dst : Operand) (pointer : VarId) : LowerM (List Inst) := do
  let p ← LowerM.ofExcept (place s pointer)
  return mov (.reg scratch2) p ++ assign float dst (.mem scratch2 none 0)

def derefStore (pointer : VarId) (value : Arg) : LowerM (List Inst) := do
  let (staged, float, value) ← stage s value
  let p ← LowerM.ofExcept (place s pointer)
  return staged ++ mov (.reg scratch2) p ++ assign float (.mem scratch2 none 0) value

end Quadcode.Lowering
