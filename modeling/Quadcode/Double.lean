/-!
# Binary64 numbers

A number is its bit pattern, so two numbers are equal exactly when their patterns are: the two
zeros differ, and a NaN equals itself. Comparison as numbers is `numEq`, `lt` and `le`.

Arithmetic rounds to nearest. An operation on a NaN gives the first NaN operand made quiet, and an
operation that has no value gives the negative quiet NaN, as the scalar instructions of x86-64 do.
-/

namespace Quadcode

structure Double where
  bits : UInt64
  deriving DecidableEq, Repr, Inhabited

namespace Double

def ofFloat (x : Float) : Double := ⟨x.toBits⟩
def toFloat (x : Double) : Float := Float.ofBits x.bits

def zero : Double := ⟨0⟩

def isNegative (x : Double) : Bool := x.bits >>> 63 != 0

def exponentField (x : Double) : Nat := ((x.bits >>> 52) &&& 0x7FF).toNat
def fractionField (x : Double) : Nat := (x.bits &&& 0xFFFFFFFFFFFFF).toNat

def isNaN (x : Double) : Bool := x.exponentField == 2047 && x.fractionField != 0
def isInfinite (x : Double) : Bool := x.exponentField == 2047 && x.fractionField == 0

/-- The magnitude of a finite number is `significand * 2 ^ scale`. -/
def significand (x : Double) : Nat :=
  if x.exponentField = 0 then x.fractionField else x.fractionField + 0x10000000000000

def scale (x : Double) : Int := (max x.exponentField 1 : Nat) - 1075

/-- The result of an invalid operation. -/
def indefinite : Double := ⟨0xFFF8000000000000⟩

def quiet (x : Double) : Double := ⟨x.bits ||| 0x8000000000000⟩

def lift (op : Float → Float → Float) (x y : Double) : Double :=
  if x.isNaN then x.quiet
  else if y.isNaN then y.quiet
  else
    let r := ofFloat (op x.toFloat y.toFloat)
    if r.isNaN then indefinite else r

def add : Double → Double → Double := lift (· + ·)
def sub : Double → Double → Double := lift (· - ·)
def mul : Double → Double → Double := lift (· * ·)
def div : Double → Double → Double := lift (· / ·)

/-- Flips the sign bit, of a NaN too. -/
def neg (x : Double) : Double := ⟨x.bits ^^^ 0x8000000000000000⟩

def numEq (x y : Double) : Bool := x.toFloat == y.toFloat
def lt (x y : Double) : Bool := decide (x.toFloat < y.toFloat)
def le (x y : Double) : Bool := decide (x.toFloat ≤ y.toFloat)

def ofInt32 (i : Int32) : Double := ofFloat i.toFloat
def ofNat64 (n : UInt64) : Double := ofFloat n.toFloat

/-- The integer part of the magnitude of a finite number. -/
def wholePart (x : Double) : Nat :=
  if x.scale ≥ 0 then x.significand <<< x.scale.toNat
  else x.significand >>> (-x.scale).toNat

/-- Drops the fraction; a value outside the range goes to the nearer end, and a NaN to zero. -/
def toInt32 (x : Double) : Int32 :=
  if x.isNaN then 0
  else if x.isNegative then Int32.ofInt (max (-(x.wholePart : Int)) (-2147483648))
  else Int32.ofInt (min (x.wholePart : Int) 2147483647)

end Double

end Quadcode
