import Quadcode.Flow.Dataflow

/-!
# Variables that are constant

At each point a variable is unknown (nothing has assigned it yet), holds one constant on every path,
or varies. A call makes the globals and every variable whose address is taken vary, a store through
a pointer the latter.
-/

namespace Quadcode

inductive ConstState where
  | unknown
  | constant (c : Const)
  | notConstant
  deriving DecidableEq, Repr, Inhabited

namespace ConstState

def meet : ConstState → ConstState → ConstState
  | .unknown, x | x, .unknown => x
  | .constant a, .constant b => if a = b then .constant a else .notConstant
  | _, _ => .notConstant

def const? : ConstState → Option Const
  | .constant c => some c
  | _ => none

end ConstState

/-- What is known of each variable. Unknown variables have no entry. -/
abbrev Facts := Std.ExtTreeMap VarId ConstState

namespace Facts

def lookup (m : Facts) (v : VarId) : ConstState := m[v]?.getD .unknown

def set (m : Facts) (v : VarId) (s : ConstState) : Facts :=
  if s = .unknown then m.erase v else m.insert v s

def ofArg (m : Facts) : Arg → ConstState
  | .var v => m.lookup v
  | .const c => .constant c
  | .str _ => .notConstant

/-- Makes variables vary. -/
def clobber (m : Facts) (vs : List VarId) : Facts := vs.foldl (·.insert · .notConstant) m

def meet (a b : Facts) : Facts :=
  b.foldl (fun r v s => set r v ((lookup a v).meet s)) a

/-- The state of an operation's result. -/
def eval (m : Facts) : Op → ConstState
  | .assign x => m.ofArg x
  | .binOp op x y => known ((c x).bind fun a => (c y).bind fun b => op.fold a b)
  | .unOp op x => known ((c x).bind op.fold)
  | .cmp k x y => known ((c x).bind fun a => (c y).bind fun b => (k.fold a b).map Const.ofBool)
  | _ => .notConstant
where
  c (a : Arg) : Option Const := (m.ofArg a).const?
  known : Option Const → ConstState
    | some c => .constant c
    | none => .notConstant

end Facts

namespace Constants

/-- What is known after a quadruple, from what is known before it. -/
def after (escaping addressTaken : List VarId) (q : Quad) (m : Facts) : Facts :=
  let m := match q.op with
    | .call .. => Facts.clobber m escaping
    | .derefStore .. => Facts.clobber m addressTaken
    | _ => m
  match q.result with
  | some r => Facts.set m r (Facts.eval m q.op)
  | none => m

def problem (g : Graph) : Problem Facts :=
  let addressTaken := g.addressTaken.toList
  let escaping := g.globals ++ addressTaken
  { direction := .forward
    stage := "constant propagation"
    boundary := Facts.clobber ∅ (g.params ++ escaping)
    initial := ∅
    meet := Facts.meet
    quad := after escaping addressTaken
    tail := fun _ m => m }

end Constants

def Graph.constants (g : Graph) : Except Failure (Solution Facts) := (Constants.problem g).solve g

/-- What is known before each quadruple of a block, and before its tail. -/
def Graph.constantPoints (g : Graph) (s : Solution Facts) (b : BlockId) :
    Except Failure (List Facts) :=
  (Constants.problem g).points g s b

end Quadcode
