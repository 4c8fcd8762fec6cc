import Quadcode.Lowering.Arithmetic
import Quadcode.Lowering.Call
import Quadcode.Lowering.Memory
import Quadcode.X86.Listing

/-!
# From functions to routines
-/

namespace Quadcode.Lowering

open X86

variable (s : Site)

/-- The code of a quadruple that gives a value. -/
def valueCode (q : Quad) (dst : Operand) (float : Bool) : LowerM (List Inst) :=
  match q.op with
  | .assign x => do
    let (load, src) ← operand s x
    return load ++ assign float dst src
  | .binOp op x y => if float then floatBinOp s op dst x y else intBinOp s op dst x y
  | .unOp op x => unOp s op dst x
  | .cmp c x y => cmp s c dst x y
  | .load base index => load s float dst base index
  | .address v => address s dst v
  | .deref p => deref s float dst p
  | _ => LowerM.ofExcept (s.malformed "control quadruple inside a block")

/-- The code of a quadruple, where `after` is live after it. -/
def quad (q : Quad) (after : VarSet) : LowerM (List Inst) := do
  if q.op.isControl then
    return ← LowerM.ofExcept (s.malformed "control quadruple inside a block")
  let target ← LowerM.ofExcept (q.result.mapM fun r => do
    pure (← place s r, (← s.var r).ty.isFloat))
  match q.op with
  | .nop => return []
  | .store base index x => store s base index x
  | .derefStore p x => derefStore s p x
  | .call name args => call s name args q.result after
  | .print x => call s (← LowerM.ofExcept (printRoutine s x)) [x] none after
  | .printLine => call s printLine [] none after
  | .read => call s readInt [] q.result after
  | _ =>
    match target with
    | some (dst, float) => valueCode s q dst float
    | none => LowerM.ofExcept (s.malformed "value-producing quadruple without a result")

/-- The code of a body, where `points` are the sets live after its quadruples. -/
def body : List Quad → List VarSet → LowerM (List Inst)
  | q :: rest, after :: more => do
    let code ← quad s q after
    let others ← body rest more
    return code ++ others
  | _, _ => return []

/-- Restores what the caller expects and returns. -/
def epilogue : List Inst :=
  s.allocation.calleeSaved.reverse.map (fun r => .pop (.reg r)) ++
    [.mov (.reg .rsp) (.reg .rbp), .pop (.reg .rbp), .ret]

def tail (t : Tail) : LowerM (List Inst) :=
  match t with
  | .jump b | .fall b => return [.jmp (s.blockLabel b)]
  | .branch c x y onTrue onFalse => do
    let (code, flags) ← compare s c x y
    let unordered := match flags.unordered with
      | some holds => [Inst.jcc .p (s.blockLabel (if holds then onTrue else onFalse))]
      | none => []
    return code ++ unordered ++ [.jcc flags.cond (s.blockLabel onTrue), .jmp (s.blockLabel onFalse)]
  | .ret none => return epilogue s
  | .ret (some x) => do
    let float ← LowerM.ofExcept (isFloat s x)
    let (load, src) ← operand s x
    return load ++ (if float then movsd (.xmm floatResult) src else mov (.reg result) src) ++
      epilogue s

/-- Takes a parameter from the stack to its register, if it has one. -/
def param (p : VarId) (k : Nat) : Except Failure (List Inst) := do
  let dst ← place s p
  if dst.isReg || dst.isXmm then
    let float := (← s.var p).ty.isFloat
    pure (assign float dst (ofLocation (Allocation.incoming k)))
  else pure []

/-- Sets up the frame and the parameters. -/
def prologue : Except Failure (List Inst) := do
  let params ← s.graph.params.zipIdx.mapM fun (p, k) => param s p k
  pure ([.label s.graph.name, .push (.reg .rbp), .mov (.reg .rbp) (.reg .rsp)] ++
    (if s.allocation.frameSize > 0 then
      [.int .sub (.reg .rsp) (.imm (Int64.ofNat s.allocation.frameSize))]
    else []) ++
    s.allocation.calleeSaved.map (fun r => .push (.reg r)) ++ params.flatten)

def block (problem : Problem VarSet) (live : Solution VarSet) (b : BlockId) :
    LowerM (List Inst) := do
  let points ← LowerM.ofExcept (problem.points s.graph live b)
  let body ← body s (s.graph.body b) points
  let tail ← tail s (s.graph.tail b)
  return .label (s.blockLabel b) :: body ++ tail

def blocks (problem : Problem VarSet) (live : Solution VarSet) : List BlockId → LowerM (List Inst)
  | [] => return []
  | b :: rest => do
    let first ← block s problem live b
    let others ← blocks problem live rest
    return first ++ others

/-- The code of a function. -/
def code (live : Solution VarSet) : LowerM (List Inst) := do
  let g := s.graph
  let start ← LowerM.ofExcept (prologue s)
  let entry := if g.layout.head? = some g.entry then [] else [Inst.jmp (s.blockLabel g.entry)]
  let blocks ← blocks s (Liveness.problem g) live g.layout
  return start ++ entry ++ blocks

end Quadcode.Lowering

namespace Quadcode

/-- Generates the code of a function whose variables have places. -/
def lower (g : Graph) (a : Allocation) (live : Solution VarSet) : LowerM X86.Routine := do
  let code ← Lowering.code ⟨g, a⟩ live
  return ⟨g.name, code, a.frameSize, a.calleeSaved⟩

end Quadcode
