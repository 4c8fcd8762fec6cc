import Quadcode.Lowering.Basic

/-!
# From quadruples to instructions: computing and comparing

Integers are 32 bits wide in 64-bit registers; after each operation the sign is extended again.
-/

namespace Quadcode.Lowering

open X86

variable (s : Site)

/-- The quotient or the remainder. -/
def division (remainder : Bool) (dst : Operand) (x y : Arg) : LowerM (List Inst) := do
  let (loadX, x) ← operand s x
  let (loadY, y) ← operand s y
  let (fetchY, y) := unImmediate y
  let r := if remainder then Reg.rdx else result
  return loadX ++ mov (.reg result) x ++ [.cqo] ++ loadY ++ fetchY ++ [.idiv y, .movsxd r] ++
    mov dst (.reg r)

def wrapping (op : IntOp) (dst : Operand) (x y : Arg) : LowerM (List Inst) := do
  let (loadY, y) ← operand s y
  let work := workReg dst fun r => !y.reads r
  let (loadX, x) ← operand s x
  return loadY ++ loadX ++ mov (.reg work) x ++ [.int op (.reg work) y, .movsxd work] ++
    deliver dst work

def intBinOp (op : BinOp) (dst : Operand) (x y : Arg) : LowerM (List Inst) :=
  match op with
  | .add => wrapping s .add dst x y
  | .sub => wrapping s .sub dst x y
  | .mul => wrapping s .imul dst x y
  | .div => division s false dst x y
  | .mod => division s true dst x y

def floatOp? : BinOp → Option FloatOp
  | .add => some .addsd
  | .sub => some .subsd
  | .mul => some .mulsd
  | .div => some .divsd
  | .mod => none

def floatBinOp (op : BinOp) (dst : Operand) (x y : Arg) : LowerM (List Inst) :=
  match floatOp? op with
  | none => LowerM.ofExcept (s.malformed "remainder of floats")
  | some op => do
    let (loadY, y) ← operand s y
    let work := workXmm dst fun r => !y.readsXmm r
    let (loadX, x) ← operand s x
    return loadY ++ loadX ++ movsd (.xmm work) x ++ [.float op work y] ++ deliverXmm dst work

def negate (dst : Operand) (x : Arg) : LowerM (List Inst) := do
  if ← LowerM.ofExcept (isFloat s x) then
    let zero ← LowerM.intern .zero
    let (load, x) ← operand s x
    return load ++ [.movsd (.xmm floatScratch) (.global zero 0), .float .subsd floatScratch x] ++
      movsd dst (.xmm floatScratch)
  else
    let (load, x) ← operand s x
    let work := workReg dst fun _ => true
    return load ++ mov (.reg work) x ++ [.neg (.reg work), .movsxd work] ++ deliver dst work

def unOp (op : UnOp) (dst : Operand) (x : Arg) : LowerM (List Inst) :=
  match op with
  | .neg => negate s dst x
  | .not => do
    let (load, x) ← operand s x
    return load ++ mov (.reg scratch) x ++ [.cmp (.reg scratch) (.imm 0), .set .e scratch] ++
      mov dst (.reg scratch)
  | .intToFloat => do
    let (load, x) ← operand s x
    let (fetch, x) := unImmediate x
    let work := workXmm dst fun _ => true
    return load ++ fetch ++ [.cvtsi2sd work x] ++ deliverXmm dst work
  | .floatToInt => do
    let (load, x) ← operand s x
    let work := workReg dst fun _ => true
    return load ++ [.cvttsd2si work x] ++ deliver dst work

/-- Flags that have been set for a comparison: the condition that holds if it does, and, where that
does not tell, the outcome when the operands are unordered. -/
structure Flags where
  cond : Cond
  unordered : Option Bool
  deriving DecidableEq, Repr

/-- Whether a comparison of floats has its operands swapped. -/
def isSwapped : Comparison → Bool
  | .lt | .le => true
  | _ => false

/-- What a comparison gives for unordered floats, where the condition does not tell. -/
def unordered? : Comparison → Option Bool
  | .eq => some false
  | .ne => some true
  | _ => none

/-- Sets the flags for a comparison. -/
def compare (c : Comparison) (x y : Arg) : LowerM (List Inst × Flags) := do
  let floatX ← LowerM.ofExcept (isFloat s x)
  let float ← if floatX then pure true else LowerM.ofExcept (isFloat s y)
  if float then
    let (x, y) := if isSwapped c then (y, x) else (x, y)
    let (loadX, x) ← operand s x
    let (loadY, y) ← operand s y
    return (loadX ++ movsd (.xmm floatScratch) x ++ loadY ++ [.ucomisd floatScratch y],
      ⟨.ofComparison c true, unordered? c⟩)
  else
    let (loadX, x) ← operand s x
    let (loadY, y) ← operand s y
    return (loadX ++ mov (.reg scratch) x ++ loadY ++ [.cmp (.reg scratch) y],
      ⟨.ofComparison c false, none⟩)

/-- Corrects the outcome of a comparison in the scratch register when the floats were unordered. -/
def settle : Option Bool → List Inst
  | some true => [.set .p scratch2, .int .or (.reg scratch) (.reg scratch2)]
  | some false => [.set .np scratch2, .int .and (.reg scratch) (.reg scratch2)]
  | none => []

def cmp (c : Comparison) (dst : Operand) (x y : Arg) : LowerM (List Inst) := do
  let (code, flags) ← compare s c x y
  return code ++ [.set flags.cond scratch] ++ settle flags.unordered ++ mov dst (.reg scratch)

end Quadcode.Lowering
