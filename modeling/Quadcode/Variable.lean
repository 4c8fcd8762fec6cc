import Quadcode.Ty
import Quadcode.Text.Quoted

/-!
# Variables

A function numbers its variables; everything else names a variable by its number.
-/

namespace Quadcode

/-- Index into the variable table of the enclosing function. -/
abbrev VarId := Nat

inductive Scope where
  | global
  | param
  | local
  | temporary
  deriving DecidableEq, Repr, Inhabited

/-- Where the front end wants a variable to live. -/
inductive Position where
  | unset
  | stack (offset : Int32)
  | register (number : Nat)
  | global (name : Label)
  deriving DecidableEq, Repr, Inhabited

structure Variable where
  name : Label
  ty : Ty
  scope : Scope
  position : Position := .unset
  deriving DecidableEq, Repr, Inhabited

def Scope.text : Scope → String
  | .global => "Global"
  | .param => "Param"
  | .local => "Local"
  | .temporary => "Temporary"

def Position.text : Position → String
  | .unset => "None"
  | .stack offset => "Stack(" ++ toString offset.toInt ++ ")"
  | .register number => "Register(" ++ toString number ++ ")"
  | .global name => "Global(" ++ Text.quoted name ++ ")"

namespace Variable

/-- A global stands under its own name; nothing else has a place yet. -/
def declare (name : Label) (ty : Ty) (scope : Scope) : Variable where
  name
  ty
  scope
  position := if scope = .global then .global name else .unset

def isGlobal (v : Variable) : Bool := v.scope = .global

end Variable

/-- The name of a variable in a table, `?` when there is none of that number. -/
def varName (vars : Array Variable) (v : VarId) : String :=
  match vars[v]? with
  | some x => x.name
  | none => "?"

end Quadcode
