import Quadcode.Lowering.Basic

/-!
# From quadruples to instructions: calls

Registers that the callee may change and that are read later are pushed before the arguments and
popped afterwards. Arguments are pushed from the last to the first and removed by the caller. The
stack is padded so that it is aligned at the call.
-/

namespace Quadcode.Lowering

open X86

variable (s : Site)

def grow (bytes : Nat) : Inst := .int .sub (.reg .rsp) (.imm (Int64.ofNat bytes))

def shrink (bytes : Nat) : Inst := .int .add (.reg .rsp) (.imm (Int64.ofNat bytes))

def pushXmm (x : Xmm) : List Inst := [grow slotBytes, .movsd .top (.xmm x)]

def popXmm (x : Xmm) : List Inst := [.movsd (.xmm x) .top, shrink slotBytes]

/-- Whether a callee may change what is at a place. -/
def isVolatile : Location → Bool
  | .reg r => !r.isCalleeSaved
  | .xmm _ => true
  | _ => false

/-- The places to save: those of the variables read after the call, but for its result. -/
def saved (after : VarSet) (result : Option VarId) : Except Failure (List Location) := do
  let live ← (after.toList.filter (some · ≠ result)).mapM s.location
  pure (live.filter isVolatile)

def save : Location → List Inst
  | .xmm x => pushXmm x
  | l => [.push (ofLocation l)]

def restore : Location → List Inst
  | .xmm x => popXmm x
  | l => [.pop (ofLocation l)]

def pushArg (a : Arg) : LowerM (List Inst) := do
  if ← LowerM.ofExcept (isFloat s a) then
    let (load, x) ← operand s a
    match x with
    | .xmm x => return load ++ pushXmm x
    | m => return load ++ [.movsd (.xmm floatScratch) m] ++ pushXmm floatScratch
  else
    let (load, x) ← operand s a
    return load ++ [.push x]

/-- Pushes arguments in the order given. -/
def pushArgs : List Arg → LowerM (List Inst)
  | [] => return []
  | a :: rest => do
    let first ← pushArg s a
    let others ← pushArgs rest
    return first ++ others

/-- Brings the result of a call to its variable. -/
def receive (result : Option VarId) : Except Failure (List Inst) := do
  match result with
  | none => pure []
  | some r =>
    let dst ← place s r
    if (← s.var r).ty.isFloat then pure (movsd dst (.xmm floatResult))
    else pure (mov dst (.reg X86.result))

def call (name : Label) (args : List Arg) (result : Option VarId) (after : VarSet) :
    LowerM (List Inst) := do
  let saved ← LowerM.ofExcept (saved s after result)
  let pad := (saved.length + args.length) % 2
  let pushed ← pushArgs s args.reverse
  let cleanup := slotBytes * (args.length + pad)
  let received ← LowerM.ofExcept (receive s result)
  return saved.flatMap save ++ (if pad = 1 then [grow slotBytes] else []) ++ pushed ++
    [.call name] ++ (if cleanup > 0 then [shrink cleanup] else []) ++
    saved.reverse.flatMap restore ++ received

/-- The library routine that prints an argument. -/
def printRoutine (x : Arg) : Except Failure Label := do
  let isString ← match x with
    | .str _ => pure true
    | .var v => do pure ((← s.var v).ty = .str)
    | _ => pure false
  if isString then pure printString
  else if ← isFloat s x then pure printFloat
  else pure printInt

end Quadcode.Lowering
