import Quadcode.Constant
import Quadcode.X86.Operand

/-!
# Instructions
-/

namespace Quadcode.X86

/-- Conditions on the flags. The unsigned ones and the unordered ones follow a comparison of
floats. -/
inductive Cond where
  | e | ne | l | le | g | ge | b | be | a | ae | p | np
  deriving DecidableEq, Repr, Inhabited

namespace Cond

def all : List Cond := [.e, .ne, .l, .le, .g, .ge, .b, .be, .a, .ae, .p, .np]

/-- The condition of a comparison. Floats are compared with the operands of `lt` and `le` swapped,
because `a` and `ae` are false when unordered. -/
def ofComparison (c : Comparison) (float : Bool) : Cond :=
  match c, float with
  | .eq, _ => .e
  | .ne, _ => .ne
  | .lt, false => .l
  | .le, false => .le
  | .gt, false => .g
  | .ge, false => .ge
  | .lt, true | .gt, true => .a
  | .le, true | .ge, true => .ae

def negate : Cond → Cond
  | .e => .ne | .ne => .e
  | .l => .ge | .ge => .l
  | .le => .g | .g => .le
  | .b => .ae | .ae => .b
  | .be => .a | .a => .be
  | .p => .np | .np => .p

def text : Cond → String
  | .e => "e" | .ne => "ne"
  | .l => "l" | .ge => "ge"
  | .le => "le" | .g => "g"
  | .b => "b" | .ae => "ae"
  | .be => "be" | .a => "a"
  | .p => "p" | .np => "np"

def ofText? (s : String) : Option Cond := all.find? (·.text == s)

end Cond

inductive IntOp where
  | add | sub | imul | and | or
  deriving DecidableEq, Repr, Inhabited

def IntOp.text : IntOp → String
  | .add => "add" | .sub => "sub" | .imul => "imul" | .and => "and" | .or => "or"

inductive FloatOp where
  | addsd | subsd | mulsd | divsd
  deriving DecidableEq, Repr, Inhabited

def FloatOp.text : FloatOp → String
  | .addsd => "addsd" | .subsd => "subsd" | .mulsd => "mulsd" | .divsd => "divsd"

inductive Inst where
  | label (name : Label)
  | mov (dst src : Operand)
  | movsd (dst src : Operand)
  | lea (dst : Reg) (src : Operand)
  | int (op : IntOp) (dst src : Operand)
  | float (op : FloatOp) (dst : Xmm) (src : Operand)
  | neg (dst : Operand)
  /-- Extends the sign of the low 32 bits of a register. -/
  | movsxd (r : Reg)
  /-- Extends the sign of the dividend. -/
  | cqo
  | idiv (divisor : Operand)
  | cmp (x y : Operand)
  | ucomisd (x : Xmm) (y : Operand)
  /-- Puts 1 or 0 into a register. -/
  | set (c : Cond) (dst : Reg)
  | cvtsi2sd (dst : Xmm) (src : Operand)
  | cvttsd2si (dst : Reg) (src : Operand)
  | jmp (target : Label)
  | jcc (c : Cond) (target : Label)
  | push (src : Operand)
  | pop (dst : Operand)
  | call (target : Label)
  | ret
  deriving DecidableEq, Repr, Inhabited

namespace Inst

def readsFlags : Inst → Bool
  | .jcc .. | .set .. => true
  | _ => false

def writesFlags : Inst → Bool
  | .int .. | .neg _ | .idiv _ | .cmp .. | .ucomisd .. => true
  | _ => false

/-- A mnemonic and its operands. -/
def line (mnemonic : String) : List Text.Draft → Text.Draft
  | [] => "\t" ++ mnemonic
  | o :: rest => rest.foldl (fun d o => d ++ ", " ++ o) ("\t" ++ mnemonic ++ "\t" ++ o)

/-- An instruction as it is written, on two lines for `set`. -/
def draft : Inst → Text.Draft
  | .label name => name ++ ":"
  | .mov d s => line "mov" [d.draft, s.draft]
  | .movsd d s => line "movsd" [d.draft, s.draft]
  | .lea d s => line "lea" [d.text, s.draft]
  | .int op d s => line op.text [d.draft, s.draft]
  | .float op d s => line op.text [d.text, s.draft]
  | .neg d => line "neg" [d.draft]
  | .movsxd r => line "movsxd" [r.text, r.dword]
  | .cqo => line "cqo" []
  | .idiv s => line "idiv" [s.draft]
  | .cmp x y => line "cmp" [x.draft, y.draft]
  | .ucomisd x y => line "ucomisd" [x.text, y.draft]
  | .set c r => line ("set" ++ c.text) [r.byte] ++ "\n" ++ line "movzx" [r.text, r.byte]
  | .cvtsi2sd d s => line "cvtsi2sd" [d.text, s.draft]
  | .cvttsd2si d s => line "cvttsd2si" [d.text, s.draft]
  | .jmp l => line "jmp" [l]
  | .jcc c l => line ("j" ++ c.text) [l]
  | .push s => line "push" [s.draft]
  | .pop d => line "pop" [d.draft]
  | .call l => line "call" [l]
  | .ret => line "ret" []

/-- The text of an instruction; none if an operand has none. -/
def text? (i : Inst) : Option String := i.draft.text?

end Inst

end Quadcode.X86
