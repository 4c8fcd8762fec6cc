import Quadcode.Constant
import Quadcode.Text.Delimited
import Quadcode.Variable

/-!
# Quadruples

One instruction of the intermediate code: an operation on arguments and the variable that receives
its result, if any. Labels and jumps are quadruples too; they are the control quadruples.
-/

namespace Quadcode

inductive Arg where
  | var (v : VarId)
  | const (c : Const)
  /-- A string literal by its label. -/
  | str (label : Label)
  deriving DecidableEq, Repr, Inhabited

namespace Arg

def var? : Arg → Option VarId
  | .var v => some v
  | _ => none

def const? : Arg → Option Const
  | .const c => some c
  | _ => none

/-- Puts `replacement` in the place of a read of `v`. -/
def substitute (a : Arg) (v : VarId) (replacement : Arg) : Arg :=
  if a = .var v then replacement else a

def text (vars : Array Variable) : Arg → String
  | .var v => varName vars v
  | .const c => c.text
  | .str label => "@" ++ label

end Arg

inductive Op where
  | nop
  | assign (x : Arg)
  | binOp (op : BinOp) (x y : Arg)
  | unOp (op : UnOp) (x : Arg)
  | cmp (c : Comparison) (x y : Arg)
  | call (callee : Label) (args : List Arg)
  /-- Slot `index` of an aggregate, or of what a pointer points to. -/
  | load (base : VarId) (index : Arg)
  | store (base : VarId) (index value : Arg)
  | address (v : VarId)
  | deref (pointer : VarId)
  | derefStore (pointer : VarId) (value : Arg)
  | print (x : Arg)
  | printLine
  | read
  | label (name : Label)
  | goto (target : Label)
  | jumpIf (c : Comparison) (x y : Arg) (target : Label)
  | jumpIfNot (c : Comparison) (x y : Arg) (target : Label)
  | ret (value : Option Arg)
  deriving DecidableEq, Repr, Inhabited

namespace Op

/-- The arguments in the order they are written. Memory bases are not among them. -/
def args : Op → List Arg
  | .assign x | .unOp _ x | .load _ x | .derefStore _ x | .print x | .ret (some x) => [x]
  | .binOp _ x y | .cmp _ x y | .store _ x y | .jumpIf _ x y _ | .jumpIfNot _ x y _ => [x, y]
  | .call _ xs => xs
  | _ => []

def mapArgs (f : Arg → Arg) : Op → Op
  | .assign x => .assign (f x)
  | .unOp op x => .unOp op (f x)
  | .load base x => .load base (f x)
  | .derefStore p x => .derefStore p (f x)
  | .print x => .print (f x)
  | .ret (some x) => .ret (some (f x))
  | .binOp op x y => .binOp op (f x) (f y)
  | .cmp c x y => .cmp c (f x) (f y)
  | .store base x y => .store base (f x) (f y)
  | .jumpIf c x y l => .jumpIf c (f x) (f y) l
  | .jumpIfNot c x y l => .jumpIfNot c (f x) (f y) l
  | .call callee xs => .call callee (xs.map f)
  | op => op

/-- The variable whose memory is addressed. -/
def base? : Op → Option VarId
  | .load base _ | .store base _ _ | .address base | .deref base | .derefStore base _ => some base
  | _ => none

/-- Whether running the operation does more than produce a value. -/
def hasEffect : Op → Bool
  | .nop | .assign _ | .binOp .. | .unOp .. | .cmp .. | .load .. | .address _ | .deref _ => false
  | _ => true

/-- Whether the operation may fail where it was not going to be run. -/
def canTrap : Op → Bool
  | .binOp op _ y =>
    op.isDivision &&
      match y with
      | .const (.int i) => i == 0 || i == -1
      | _ => true
  | .load .. | .deref _ => true
  | _ => false

def isControl : Op → Bool
  | .label _ | .goto _ | .jumpIf .. | .jumpIfNot .. | .ret _ => true
  | _ => false

def isLabel : Op → Bool
  | .label _ => true
  | _ => false

def isCall : Op → Bool
  | .call .. => true
  | _ => false

/-- The label a quadruple jumps to. -/
def target? : Op → Option Label
  | .goto l | .jumpIf _ _ _ l | .jumpIfNot _ _ _ l => some l
  | _ => none

def text (vars : Array Variable) : Op → String
  | .nop => "nop"
  | .assign x => a x
  | .binOp op x y => a x ++ " " ++ op.text ++ " " ++ a y
  | .unOp op x => op.text ++ " " ++ a x
  | .cmp c x y => a x ++ " " ++ c.text ++ " " ++ a y
  | .call callee xs => "call " ++ callee ++ Text.delimited "(" ", " ")" (xs.map a)
  | .load base i => n base ++ "[" ++ a i ++ "]"
  | .store base i x => n base ++ "[" ++ a i ++ "] = " ++ a x
  | .address x => "&" ++ n x
  | .deref p => "*" ++ n p
  | .derefStore p x => "*" ++ n p ++ " = " ++ a x
  | .print x => "print " ++ a x
  | .printLine => "println"
  | .read => "read"
  | .label l => l ++ ":"
  | .goto l => "goto " ++ l
  | .jumpIf c x y l => "if " ++ a x ++ " " ++ c.text ++ " " ++ a y ++ " goto " ++ l
  | .jumpIfNot c x y l => "if not " ++ a x ++ " " ++ c.text ++ " " ++ a y ++ " goto " ++ l
  | .ret (some x) => "return " ++ a x
  | .ret none => "return"
where
  a (x : Arg) : String := x.text vars
  n (v : VarId) : String := varName vars v

end Op

structure Quad where
  result : Option VarId := none
  op : Op
  deriving DecidableEq, Repr, Inhabited

namespace Quad

/-- A quadruple without a result. -/
def effect (op : Op) : Quad := ⟨none, op⟩

/-- The variables read, memory bases last. -/
def uses (q : Quad) : List VarId := q.op.args.filterMap Arg.var? ++ q.op.base?.toList

def mapArgs (f : Arg → Arg) (q : Quad) : Quad := { q with op := q.op.mapArgs f }

/-- Whether `v` is read as an argument. -/
def reads (q : Quad) (v : VarId) : Bool := q.op.args.any (·.var? == some v)

/-- Replaces every read of `v` as an argument. -/
def substitute (q : Quad) (v : VarId) (replacement : Arg) : Quad :=
  q.mapArgs (·.substitute v replacement)

def text (vars : Array Variable) (q : Quad) : String :=
  match q.result with
  | some r => varName vars r ++ " = " ++ q.op.text vars
  | none => q.op.text vars

end Quad

end Quadcode
