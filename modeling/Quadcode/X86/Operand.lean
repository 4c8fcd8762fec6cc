import Quadcode.Text.Draft
import Quadcode.Ty
import Quadcode.X86.Register

/-!
# Operands
-/

namespace Quadcode.X86

inductive Operand where
  | reg (r : Reg)
  | xmm (x : Xmm)
  | imm (value : Int64)
  /-- The word at `base + 8 * index + offset`. -/
  | mem (base : Reg) (index : Option Reg) (offset : Int32)
  /-- The word at `label + offset`. -/
  | global (label : Label) (offset : Int32)
  deriving DecidableEq, Repr, Inhabited

namespace Operand

/-- A word of the current frame. -/
def stack (offset : Int32) : Operand := .mem .rbp none offset

/-- The word at the top of the stack. -/
def top : Operand := .mem .rsp none 0

def isMemory : Operand → Bool
  | .mem .. | .global .. => true
  | _ => false

def isReg : Operand → Bool
  | .reg _ => true
  | _ => false

def isXmm : Operand → Bool
  | .xmm _ => true
  | _ => false

/-- Whether the operand is computed from a register. -/
def reads (r : Reg) : Operand → Bool
  | .reg x => x = r
  | .mem base index _ => base = r || index = some r
  | _ => false

def readsXmm (x : Xmm) (o : Operand) : Bool := o = .xmm x

/-- Whether a move into `target` leaves the operand as it is computed. -/
def independent (o target : Operand) : Bool :=
  match target with
  | .reg r => !o.reads r
  | .xmm x => !o.readsXmm x
  | _ => true

/-- An offset behind a base. The text breaks off at the least word, since its magnitude is not a
word. -/
def offsetDraft (offset : Int32) : Text.Draft :=
  if offset = 0 then ""
  else if offset = Int32.minValue then .broken
  else if offset < 0 then " - " ++ toString (-offset.toInt)
  else " + " ++ toString offset.toInt

def draft : Operand → Text.Draft
  | .reg r => r.text
  | .xmm x => x.text
  | .imm i => toString i.toInt
  | .mem base index offset =>
    "qword ptr [" ++ base.text ++ (index.elim "" fun i => " + " ++ i.text ++ " * 8") ++
      offsetDraft offset ++ "]"
  | .global label offset =>
    "qword ptr [rip + " ++ label ++
      (if offset = 0 then "" else " + " ++ toString offset.toInt) ++ "]"

def text? (o : Operand) : Option String := o.draft.text?

end Operand

end Quadcode.X86
