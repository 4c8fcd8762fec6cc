import Quadcode.Flow.Constants
import Quadcode.Module
import Quadcode.Statistics

/-!
# Parameters that are always the same

A parameter for which every call passes the same constant becomes a local that starts with it, and
the calls no longer pass it.
-/

namespace Quadcode.Parameters

/-- For each function what its calls pass for each parameter. -/
abbrev Incoming := Std.ExtTreeMap Label (List ConstState)

def ofArg : Arg → ConstState
  | .const c => .constant c
  | _ => .notConstant

/-- Takes one more call into account. -/
def join (states : List ConstState) (args : List Arg) : List ConstState :=
  if states.length ≠ args.length then states.map fun _ => .notConstant
  else states.zipWith (fun s a => s.meet (ofArg a)) args

def calls (graphs : List Graph) : List (Label × List Arg) :=
  (graphs.flatMap Graph.bodies).filterMap fun q =>
    match q.op with
    | .call callee args => some (callee, args)
    | _ => none

def incoming (graphs : List Graph) : Incoming :=
  let start : Incoming :=
    graphs.foldl (fun m g => m.insert g.name (g.params.map fun _ => .unknown)) ∅
  (calls graphs).foldl (fun m (callee, args) => m.modify callee (join · args)) start

/-- The parameters that are always the same, by their places. -/
def constants (states : List ConstState) : List (Nat × Const) :=
  states.zipIdx.filterMap fun (s, k) => s.const?.map (k, ·)

/-- The block where code runs once for each call: the entry, or a new one in front of it. -/
def freshEntry (g : Graph) (s : Supply) : BlockId × Graph × Supply :=
  if (g.preds g.entry).isEmpty then (g.entry, g, s)
  else
    let (b, s) := Block.fresh s
    let (id, g) := g.addBlock { b with tail := .jump g.entry }
    (id, { g with entry := id, layout := id :: g.layout }.relink, s)

/-- Makes parameter `k` a local that `entry` sets to `c`. -/
def localize (entry : BlockId) (g : Graph) (k : Nat) (c : Const) : Except Failure Graph := do
  let p ← orFault g.params[k]?
  let x ← orFault g.vars[p]?
  let g := { g with
    params := g.params.eraseIdx k
    vars := g.vars.setIfInBounds p { x with scope := .local } }
  pure (g.setBody entry (⟨some p, .assign (.const c)⟩ :: g.body entry))

/-- Makes parameters locals, the last one first. -/
def localizeAll (g : Graph) (constants : List (Nat × Const)) (s : Supply) :
    Except Failure (Graph × Supply) := do
  let (entry, g, s) := freshEntry g s
  let g ← constants.reverse.foldlM (fun g (k, c) => localize entry g k c) g
  pure (g, s)

/-- Functions and the places of the parameters they have lost. -/
abbrev Removed := Std.ExtTreeMap Label (List Nat)

/-- Makes locals in every function but the main one. -/
def settle (incoming : Incoming) :
    List Graph → Removed → Supply → Except Failure (List Graph × Removed × Supply)
  | [], removed, s => pure ([], removed, s)
  | g :: rest, removed, s => do
    let constants := if g.name = "main" then [] else constants (incoming[g.name]?.getD [])
    if constants.isEmpty then
      let (rest, removed, s) ← settle incoming rest removed s
      pure (g :: rest, removed, s)
    else
      let removed := removed.insert g.name (constants.map (·.1))
      let (g, s) ← localizeAll g constants s
      let (rest, removed, s) ← settle incoming rest removed s
      pure (g :: rest, removed, s)

/-- Takes arguments out by their places, which ascend; a fault when one is not there. -/
def dropArgs (places : List Nat) (args : List Arg) : Except Failure (List Arg) :=
  places.reverse.foldlM (fun args k =>
    if k < args.length then pure (args.eraseIdx k) else .error .fault) args

def adjustQuad (removed : Removed) (q : Quad) : Except Failure Quad :=
  match q.op with
  | .call callee args =>
    match removed[callee]? with
    | some places => do pure { q with op := .call callee (← dropArgs places args) }
    | none => pure q
  | _ => pure q

/-- Takes the lost parameters out of the calls of a function. -/
def adjust (removed : Removed) (g : Graph) : Except Failure Graph :=
  g.layout.foldlM (fun g b => do
    pure (g.setBody b (← (g.body b).mapM (adjustQuad removed)))) g

/-- Propagates constant parameters through a module, and tells whether there were any. -/
def pass (m : Module) (s : Supply) : Except Failure (Module × Supply × Option Nat) := do
  let (graphs, removed, s) ← settle (incoming m.graphs) m.graphs ∅ s
  if removed.isEmpty then pure (m, s, none)
  else
    let graphs ← graphs.mapM (adjust removed)
    let n := removed.foldl (fun n _ places => n + places.length) 0
    pure ({ m with graphs }, s, some n)

end Quadcode.Parameters
