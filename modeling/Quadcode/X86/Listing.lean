import Quadcode.Program
import Quadcode.X86.Inst

/-!
# Listings

The assembly text of a program: a data section with globals and literals, then the routines.
-/

namespace Quadcode.X86

/-- The contents of a labelled place in the data section. -/
inductive Datum where
  | word (value : Int32)
  | double (value : Double)
  | zero (bytes : Nat)
  | string (text : String)
  deriving DecidableEq, Repr, Inhabited

namespace Datum

/-- The storage of a global; none if its size is not a word. -/
def ofGlobal? (g : Global) : Option Datum :=
  match g.init with
  | some (.int i) => some (.word i)
  | some (.float x) => some (.double x)
  | none => do
    let bytes := 8 * (← g.ty.slots?)
    if bytes < wordLimit then some (.zero bytes) else none

def text : Datum → String
  | .word i => "\t.quad\t" ++ toString i.toInt
  | .double x => "\t.double\t" ++ x.text
  | .zero bytes => "\t.zero\t" ++ toString bytes
  | .string s => "\t.string\t" ++ Text.quoted s

end Datum

/-- The code of a function. -/
structure Routine where
  name : Label
  code : List Inst
  /-- Bytes for variables below the frame pointer. -/
  frameSize : Nat
  calleeSaved : List Reg
  deriving DecidableEq, Repr, Inhabited

def Routine.draft (r : Routine) : Text.Draft :=
  .lines (.whole ("\t.globl\t" ++ r.name) :: r.code.map Inst.draft)

structure Listing where
  routines : List Routine
  globals : List Global
  strings : List (Label × String)
  floats : List (Label × Double)
  deriving DecidableEq, Repr, Inhabited

namespace Listing

/-- The places of the data section, and what they hold unless it is too large. -/
def data (l : Listing) : List (Label × Option Datum) :=
  l.globals.map (fun g => (g.name, Datum.ofGlobal? g)) ++
    l.strings.map (fun (label, s) => (label, some (.string s))) ++
    l.floats.map fun (label, x) => (label, some (.double x))

/-- A place and what it holds. The size is known before anything is written. -/
def place : Label × Option Datum → Text.Draft
  | (label, some d) => label ++ ":\n" ++ d.text
  | (_, none) => .broken

/-- A listing as it is written, up to the first thing that has no text. -/
def draft (l : Listing) : Text.Draft :=
  .lines ([.whole "\t.intel_syntax noprefix", .whole "\t.data"] ++ l.data.map place ++
    [.whole "\t.text"] ++ l.routines.map Routine.draft)

def text? (l : Listing) : Option String := l.draft.text?

end Listing

end Quadcode.X86
