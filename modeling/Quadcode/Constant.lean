import Quadcode.Decimal.Format

/-!
# Constants and operators

Integers are 32-bit words that wrap around; truth values are the integers 0 and 1. An operator
folds constants of one kind: it has no value on a mixture, an integer division by zero has none, and
there is no remainder of floats.
-/

namespace Quadcode

inductive Const where
  | int (value : Int32)
  | float (value : Double)
  deriving DecidableEq, Repr, Inhabited

namespace Const

def ofBool (b : Bool) : Const := .int (if b then 1 else 0)

def toInt? : Const → Option Int32
  | .int i => some i
  | .float _ => none

def isTrue : Const → Bool
  | .int i => i != 0
  | .float x => !x.numEq .zero

def text : Const → String
  | .int i => toString i.toInt
  | .float x => x.text

end Const

inductive BinOp where
  | add
  | sub
  | mul
  | div
  | mod
  deriving DecidableEq, Repr, Inhabited

namespace BinOp

def isCommutative : BinOp → Bool
  | .add | .mul => true
  | _ => false

def isDivision : BinOp → Bool
  | .div | .mod => true
  | _ => false

/-- Integer result; the quotient is truncated and the remainder has the sign of the dividend. -/
def foldInt : BinOp → Int32 → Int32 → Option Int32
  | .add, a, b => some (a + b)
  | .sub, a, b => some (a - b)
  | .mul, a, b => some (a * b)
  | .div, a, b => if b = 0 then none else some (a / b)
  | .mod, a, b => if b = 0 then none else some (a % b)

def foldFloat : BinOp → Double → Double → Option Double
  | .add, a, b => some (a.add b)
  | .sub, a, b => some (a.sub b)
  | .mul, a, b => some (a.mul b)
  | .div, a, b => some (a.div b)
  | .mod, _, _ => none

def fold (op : BinOp) : Const → Const → Option Const
  | .int a, .int b => (op.foldInt a b).map .int
  | .float a, .float b => (op.foldFloat a b).map .float
  | _, _ => none

def text : BinOp → String
  | .add => "Add"
  | .sub => "Sub"
  | .mul => "Mul"
  | .div => "Div"
  | .mod => "Mod"

end BinOp

inductive UnOp where
  | neg
  | not
  | intToFloat
  | floatToInt
  deriving DecidableEq, Repr, Inhabited

namespace UnOp

def fold : UnOp → Const → Option Const
  | .neg, .int a => some (.int (-a))
  | .neg, .float a => some (.float a.neg)
  | .not, .int a => some (.ofBool (a == 0))
  | .intToFloat, .int a => some (.float (.ofInt32 a))
  | .floatToInt, .float a => some (.int a.toInt32)
  | _, _ => none

def text : UnOp → String
  | .neg => "Neg"
  | .not => "Not"
  | .intToFloat => "IntToFloat"
  | .floatToInt => "FloatToInt"

end UnOp

inductive Comparison where
  | eq
  | ne
  | lt
  | le
  | gt
  | ge
  deriving DecidableEq, Repr, Inhabited

namespace Comparison

def negate : Comparison → Comparison
  | .eq => .ne
  | .ne => .eq
  | .lt => .ge
  | .le => .gt
  | .gt => .le
  | .ge => .lt

/-- `a c b` is `b c.swap a`. -/
def swap : Comparison → Comparison
  | .eq => .eq
  | .ne => .ne
  | .lt => .gt
  | .le => .ge
  | .gt => .lt
  | .ge => .le

def isEquality : Comparison → Bool
  | .eq | .ne => true
  | _ => false

def testInt : Comparison → Int32 → Int32 → Bool
  | .eq, a, b => a == b
  | .ne, a, b => a != b
  | .lt, a, b => a < b
  | .le, a, b => a ≤ b
  | .gt, a, b => b < a
  | .ge, a, b => b ≤ a

/-- Comparison of numbers; every one but `ne` is false when an operand is a NaN. -/
def testFloat : Comparison → Double → Double → Bool
  | .eq, a, b => a.numEq b
  | .ne, a, b => !a.numEq b
  | .lt, a, b => a.lt b
  | .le, a, b => a.le b
  | .gt, a, b => b.lt a
  | .ge, a, b => b.le a

def fold (c : Comparison) : Const → Const → Option Bool
  | .int a, .int b => some (c.testInt a b)
  | .float a, .float b => some (c.testFloat a b)
  | _, _ => none

def text : Comparison → String
  | .eq => "=="
  | .ne => "!="
  | .lt => "<"
  | .le => "<="
  | .gt => ">"
  | .ge => ">="

end Comparison

end Quadcode
