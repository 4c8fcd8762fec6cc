import Quadcode.Quad

/-!
# Values of the interpreter

A pointer names the variable it points into, by its frame or as a global, and a slot of it.
-/

namespace Quadcode

/-- The storage of one variable. -/
inductive Place where
  | local (frame : Nat) (v : VarId)
  | global (name : Label)
  deriving DecidableEq, Repr, Inhabited

inductive Value where
  | int (value : Int32)
  | float (value : Double)
  | ptr (place : Place) (offset : Nat)
  | str (label : Label)
  | undef
  deriving DecidableEq, Repr, Inhabited

def Place.text : Place → String
  | .local frame v => "Local(" ++ toString frame ++ ", VarId(" ++ toString v ++ "))"
  | .global name => "Global(" ++ Text.quoted name ++ ")"

namespace Value

def ofConst : Const → Value
  | .int i => .int i
  | .float x => .float x

/-- What a slot of a global holds at the start. -/
def initial : Ty → Value
  | .float => .float .zero
  | .int | .bool => .int 0
  | _ => .undef

def text : Value → String
  | .int i => toString i.toInt
  | .float x => x.fixed
  | .ptr place offset => "&" ++ place.text ++ "+" ++ toString offset
  | .str label => "@" ++ label
  | .undef => "undef"

end Value

inductive EvalError where
  | unknownFunction (name : Label)
  | undefined (function : Label)
  | divisionByZero (function : Label)
  | typeMismatch (function : Label)
  | outOfBounds (function : Label)
  | noInput
  | stepLimit (limit : Nat)
  deriving DecidableEq, Repr

def EvalError.message : EvalError → String
  | .unknownFunction name => "call to unknown function `" ++ name ++ "`"
  | .undefined name => "read of an undefined value in `" ++ name ++ "`"
  | .divisionByZero name => "division by zero in `" ++ name ++ "`"
  | .typeMismatch name => "type mismatch in `" ++ name ++ "`"
  | .outOfBounds name => "out of bounds access to `" ++ name ++ "`"
  | .noInput => "input exhausted"
  | .stepLimit limit => "step limit of " ++ toString limit ++ " exceeded"

/-- Why a run ended early: an error of the program, or a look-up that the program form does not
promise to succeed. -/
inductive Stop where
  | error (e : EvalError)
  | fault
  deriving DecidableEq, Repr

end Quadcode
