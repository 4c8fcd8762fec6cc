import Quadcode.Ty

/-!
# Ways to fail

A diagnostic names the stage that gave up, the function it was working on and the cause. A fault is
a look-up outside a table or a number outside a word: no stage promises anything after it.
-/

namespace Quadcode

inductive Cause where
  | unknownLabel (label : Label)
  | duplicateLabel (label : Label)
  | misplacedControl (block : Label)
  | unreachable (block : Label)
  | diverged (sweeps : Nat)
  | passCap (rounds : Nat)
  | unplaceable (name : Label)
  | malformed (what : String)
  deriving DecidableEq, Repr

def Cause.message : Cause → String
  | .unknownLabel label => "jump to unknown label `" ++ label ++ "`"
  | .duplicateLabel label => "label `" ++ label ++ "` is defined twice"
  | .misplacedControl block =>
    "control operator found inside the body of block `" ++ block ++ "`"
  | .unreachable block => "block `" ++ block ++ "` is unreachable from the entry"
  | .diverged sweeps =>
    "dataflow iteration did not converge after " ++ toString sweeps ++ " sweeps"
  | .passCap rounds => "no fixpoint reached within " ++ toString rounds ++ " rounds"
  | .unplaceable name => "no register or stack slot available for `" ++ name ++ "`"
  | .malformed what => "malformed IR: " ++ what

structure Diagnostic where
  stage : String
  function : Label
  cause : Cause
  deriving DecidableEq, Repr

def Diagnostic.message (d : Diagnostic) : String :=
  "internal error in `" ++ d.stage ++ "` while compiling `" ++ d.function ++ "`: " ++
    d.cause.message

inductive Failure where
  | fault
  /-- An iteration was cut off before it came to an end. -/
  | exhausted
  | diagnostic (d : Diagnostic)
  deriving DecidableEq, Repr

/-- The value of a look-up, or a fault. -/
def orFault {α : Type} : Option α → Except Failure α
  | some a => .ok a
  | none => .error .fault

end Quadcode
