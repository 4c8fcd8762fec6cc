import Quadcode.Quad

/-!
# Programs as the front end hands them over

A function is a flat list of quadruples in which labels mark the targets of jumps.
-/

namespace Quadcode

structure Function where
  name : Label
  ret : Option Ty := none
  vars : Array Variable
  params : List VarId := []
  quads : List Quad
  deriving DecidableEq, Repr, Inhabited

structure Global where
  name : Label
  ty : Ty
  init : Option Const := none
  deriving DecidableEq, Repr, Inhabited

structure Program where
  globals : List Global := []
  /-- Labels and texts of string literals. -/
  strings : List (Label × String) := []
  functions : List Function
  deriving DecidableEq, Repr, Inhabited

namespace Function

/-- The text of a function: labels are indented less than the code between them. -/
def text (f : Function) : String :=
  "function " ++ f.name ++ Text.delimited "(" ", " ")" (f.params.map (varName f.vars)) ++ "\n" ++
    Text.lines (f.quads.map fun q =>
      (if q.op.isLabel then "  " else "    ") ++ q.text f.vars)

end Function

/-- The text of a global's declaration. -/
def Global.text (g : Global) : String := "global " ++ g.name ++ ": " ++ g.ty.text

end Quadcode
