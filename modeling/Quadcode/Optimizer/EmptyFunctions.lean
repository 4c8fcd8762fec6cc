import Quadcode.Module

/-!
# Functions that do nothing

Functions other than the main one that have no code and return nothing are deleted, together with
the calls to them. A call whose result is used keeps its function.
-/

namespace Quadcode.EmptyFunctions

def isEmpty (g : Graph) : Bool :=
  g.quadCount = 0 && g.layout.all fun b =>
    match g.tail b with
    | .ret (some _) => false
    | _ => true

/-- The functions whose results are used. -/
def used (graphs : List Graph) : List Label :=
  (graphs.flatMap Graph.bodies).filterMap fun q =>
    match q.result, q.op with
    | some _, .call callee _ => some callee
    | _, _ => none

/-- The functions to delete. -/
def empty (graphs : List Graph) : Std.ExtTreeSet Label :=
  let names := (graphs.filter fun g => g.name ≠ "main" && isEmpty g).map (·.name)
  (used graphs).foldl (·.erase ·) (.ofList names)

def dropCalls (empty : Std.ExtTreeSet Label) (g : Graph) : Graph :=
  g.layout.foldl (fun g b => g.setBody b ((g.body b).filter fun q =>
    match q.op with
    | .call callee _ => callee ∉ empty
    | _ => true)) g

/-- Deletes the empty functions of a module, and tells how many if there were any. -/
def pass (m : Module) : Module × Option Nat :=
  let empty := empty m.graphs
  if empty.isEmpty then (m, none)
  else
    let graphs := (m.graphs.map (dropCalls empty)).filter fun g => g.name ∉ empty
    ({ m with graphs }, some empty.size)

end Quadcode.EmptyFunctions
