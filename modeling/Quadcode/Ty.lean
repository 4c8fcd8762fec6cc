/-!
# Types of variables

A type says how many eight-byte slots a variable fills. Aggregates (arrays and structures) live in
memory; everything else fits one slot.
-/

namespace Quadcode

abbrev Label := String

inductive Ty where
  | int
  | float
  | bool
  | str
  | pointer (target : Ty)
  | array (item : Ty) (length : Nat)
  /-- A structure by its name and number of fields. -/
  | struct (name : Label) (fields : Nat)
  deriving DecidableEq, Repr, Inhabited

/-- Sizes and indices are 64-bit words. -/
def wordLimit : Nat := 18446744073709551616

namespace Ty

def isFloat : Ty → Bool
  | .float => true
  | _ => false

def isPointer : Ty → Bool
  | .pointer _ => true
  | _ => false

def isScalar : Ty → Bool
  | .array .. | .struct .. => false
  | _ => true

/-- Number of slots; none when it does not fit a word. -/
def slots? : Ty → Option Nat
  | .array item length =>
    item.slots?.bind fun n => if length * n < wordLimit then some (length * n) else none
  | .struct _ fields => some fields
  | _ => some 1

def text : Ty → String
  | .int => "int"
  | .float => "float"
  | .bool => "bool"
  | .str => "str"
  | .pointer target => target.text ++ "*"
  | .array item length => item.text ++ "[" ++ toString length ++ "]"
  | .struct name _ => "struct " ++ name

end Ty

end Quadcode
