import Quadcode.Json.Reader
import Quadcode.Json.Shape
import Quadcode.Program

/-!
# Programs in JSON

Reads the front end's JSON form. Reading checks the form only: a variable number may lie outside
its table, and a label may be missing.
-/

namespace Quadcode

open Json

/-- Values may be nested this deep. -/
def maxNesting : Nat := 127

/-- `room` counts the containers that may still be opened. -/
def Ty.ofJson? : (room : Nat) → Json → Option Ty
  | 0, j =>
    match j with
    | .str (some name) => simple? name
    | _ => none
  | room + 1, j =>
    match choice? j with
    | some ("Pointer", some data) => (Ty.ofJson? room data).map .pointer
    | some ("Array", some (.arr [item, length])) =>
      if room = 0 then none
      else do pure (.array (← Ty.ofJson? (room - 1) item) (← length.toSize?))
    | some ("Struct", some (.arr [name, fields])) =>
      if room = 0 then none
      else do pure (.struct (← name.toText?) (← fields.toSize?))
    | some (name, data) => if isBare data then simple? name else none
    | none => none
where
  simple? : String → Option Ty
    | "Int" => some .int
    | "Float" => some .float
    | "Bool" => some .bool
    | "Str" => some .str
    | _ => none

/-- A choice among names. -/
def Json.oneOf? {α : Type} (table : List (String × α)) (j : Json) : Option α :=
  match choice? j with
  | some (name, data) => if isBare data then table.lookup name else none
  | none => none

def Scope.ofJson? : Json → Option Scope :=
  oneOf? [("Global", .global), ("Param", .param), ("Local", .local), ("Temporary", .temporary)]

def Position.ofJson? (j : Json) : Option Position :=
  match choice? j with
  | some ("Stack", some data) => data.toInt32?.map .stack
  | some ("Register", some data) => data.toSize?.map .register
  | some ("Global", some data) => data.toText?.map .global
  | some ("None", data) => if isBare data then some .unset else none
  | _ => none

/-- Reads an item that may be absent. -/
def Json.orElse? {α : Type} (fallback : α) (read : Json → Option α) : Option Json → Option α
  | none => some fallback
  | some j => read j

def Variable.ofJson? (room : Nat) (j : Json) : Option Variable :=
  match record? ["name", "ty", "scope", "position"] j with
  | some [some name, some ty, some scope, position] => do
    pure {
      name := ← name.toText?
      ty := ← Ty.ofJson? (room - 1) ty
      scope := ← Scope.ofJson? scope
      position := ← orElse? .unset Position.ofJson? position }
  | _ => none

def Const.ofJson? (j : Json) : Option Const :=
  match choice? j with
  | some ("Int", some data) => data.toInt32?.map .int
  | some ("Float", some data) => data.toDouble?.map .float
  | _ => none

def Arg.ofJson? (j : Json) : Option Arg :=
  match choice? j with
  | some ("Var", some data) => data.toSize?.map .var
  | some ("Const", some data) => (Const.ofJson? data).map .const
  | some ("Str", some data) => data.toText?.map .str
  | _ => none

def BinOp.ofJson? : Json → Option BinOp :=
  oneOf? [("Add", .add), ("Sub", .sub), ("Mul", .mul), ("Div", .div), ("Mod", .mod)]

def UnOp.ofJson? : Json → Option UnOp :=
  oneOf? [("Neg", .neg), ("Not", .not), ("IntToFloat", .intToFloat), ("FloatToInt", .floatToInt)]

def Comparison.ofJson? : Json → Option Comparison :=
  oneOf? [("Eq", .eq), ("Ne", .ne), ("Lt", .lt), ("Le", .le), ("Gt", .gt), ("Ge", .ge)]

def Op.ofJson? (j : Json) : Option Op :=
  match choice? j with
  | some ("Assign", some x) => (Arg.ofJson? x).map .assign
  | some ("BinOp", some (.arr [op, x, y])) => do
    pure (.binOp (← BinOp.ofJson? op) (← Arg.ofJson? x) (← Arg.ofJson? y))
  | some ("UnOp", some (.arr [op, x])) => do
    pure (.unOp (← UnOp.ofJson? op) (← Arg.ofJson? x))
  | some ("Cmp", some (.arr [c, x, y])) => do
    pure (.cmp (← Comparison.ofJson? c) (← Arg.ofJson? x) (← Arg.ofJson? y))
  | some ("Call", some (.arr [callee, args])) => do
    pure (.call (← callee.toText?) (← listOf? Arg.ofJson? args))
  | some ("Load", some (.arr [base, index])) => do
    pure (.load (← base.toSize?) (← Arg.ofJson? index))
  | some ("Store", some (.arr [base, index, value])) => do
    pure (.store (← base.toSize?) (← Arg.ofJson? index) (← Arg.ofJson? value))
  | some ("Address", some v) => v.toSize?.map .address
  | some ("Deref", some p) => p.toSize?.map .deref
  | some ("DerefStore", some (.arr [p, value])) => do
    pure (.derefStore (← p.toSize?) (← Arg.ofJson? value))
  | some ("Print", some x) => (Arg.ofJson? x).map .print
  | some ("Label", some l) => l.toText?.map .label
  | some ("Goto", some l) => l.toText?.map .goto
  | some ("If", some (.arr [c, x, y, l])) => do
    pure (.jumpIf (← Comparison.ofJson? c) (← Arg.ofJson? x) (← Arg.ofJson? y) (← l.toText?))
  | some ("IfFalse", some (.arr [c, x, y, l])) => do
    pure (.jumpIfNot (← Comparison.ofJson? c) (← Arg.ofJson? x) (← Arg.ofJson? y) (← l.toText?))
  | some ("Return", some value) => (nullable? Arg.ofJson? value).map .ret
  | _ => oneOf? [("Nop", .nop), ("PrintLine", .printLine), ("Read", .read)] j

def Quad.ofJson? (j : Json) : Option Quad :=
  match record? ["result", "kind"] j with
  | some [result, some kind] => do
    pure ⟨← orElse? none (nullable? toSize?) result, ← Op.ofJson? kind⟩
  | _ => none

def Function.ofJson? (room : Nat) (j : Json) : Option Function :=
  match record? ["name", "ret", "vars", "params", "quads"] j with
  | some [some name, ret, some vars, params, some quads] => do
    pure {
      name := ← name.toText?
      ret := ← orElse? none (nullable? (Ty.ofJson? (room - 1))) ret
      vars := (← listOf? (Variable.ofJson? (room - 2)) vars).toArray
      params := ← orElse? [] (listOf? toSize?) params
      quads := ← listOf? Quad.ofJson? quads }
  | _ => none

def Global.ofJson? (room : Nat) (j : Json) : Option Global :=
  match record? ["name", "ty", "init"] j with
  | some [some name, some ty, init] => do
    pure {
      name := ← name.toText?
      ty := ← Ty.ofJson? (room - 1) ty
      init := ← orElse? none (nullable? Const.ofJson?) init }
  | _ => none

/-- A label and a text. -/
def literal? : Json → Option (Label × String)
  | .arr [label, text] => do pure (← label.toText?, ← text.toText?)
  | _ => none

def Program.ofJson? (j : Json) : Option Program :=
  match record? ["globals", "strings", "functions"] j with
  | some [globals, strings, some functions] => do
    pure {
      globals := ← orElse? [] (listOf? (Global.ofJson? (maxNesting - 2))) globals
      strings := ← orElse? [] (listOf? literal?) strings
      functions := ← listOf? (Function.ofJson? (maxNesting - 2)) functions }
  | _ => none

/-- The program a text holds. -/
def Program.read? (text : String) : Option Program :=
  (Json.read? text).bind Program.ofJson?

end Quadcode
