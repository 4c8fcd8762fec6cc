import Quadcode.Program
import Quadcode.Supply
import Std.Data.ExtTreeSet

/-!
# Functions in block form

A block is straight-line code with a tail that says where control goes next. The blocks of a
function stand in an arena and are named by their index; `layout` lists the live ones in the order
they are emitted. Edge lists are stored with each block and are only as fresh as the last `relink`.
-/

namespace Quadcode

abbrev BlockId := Nat

/-- Finite sets of variables, equal when they have the same members. -/
abbrev VarSet := Std.ExtTreeSet VarId

/-- Finite sets of blocks. -/
abbrev BlockSet := Std.ExtTreeSet BlockId

inductive EdgeKind where
  | unconditional
  | onTrue
  | onFalse
  | fallthrough
  deriving DecidableEq, Repr, Inhabited

def EdgeKind.text : EdgeKind → String
  | .unconditional => "Unconditional"
  | .onTrue => "True"
  | .onFalse => "False"
  | .fallthrough => "Fallthrough"

/-- The end of a block. -/
inductive Tail where
  | jump (target : BlockId)
  | fall (target : BlockId)
  | branch (c : Comparison) (lhs rhs : Arg) (onTrue onFalse : BlockId)
  | ret (value : Option Arg)
  deriving DecidableEq, Repr, Inhabited

namespace Tail

def successors : Tail → List (BlockId × EdgeKind)
  | .jump b => [(b, .unconditional)]
  | .fall b => [(b, .fallthrough)]
  | .branch _ _ _ t f => [(t, .onTrue), (f, .onFalse)]
  | .ret _ => []

def targets (t : Tail) : List BlockId := t.successors.map (·.1)

/-- The one target of a tail that tests nothing. -/
def only? : Tail → Option BlockId
  | .jump b | .fall b => some b
  | _ => none

def isReturn : Tail → Bool
  | .ret _ => true
  | _ => false

def args : Tail → List Arg
  | .branch _ x y _ _ => [x, y]
  | .ret (some x) => [x]
  | _ => []

def mapArgs (f : Arg → Arg) : Tail → Tail
  | .branch c x y t e => .branch c (f x) (f y) t e
  | .ret (some x) => .ret (some (f x))
  | t => t

def uses (t : Tail) : List VarId := t.args.filterMap Arg.var?

def reads (t : Tail) (v : VarId) : Bool := t.args.any (·.var? == some v)

def substitute (t : Tail) (v : VarId) (replacement : Arg) : Tail :=
  t.mapArgs (·.substitute v replacement)

def mapTargets (f : BlockId → BlockId) : Tail → Tail
  | .jump b => .jump (f b)
  | .fall b => .fall (f b)
  | .branch c x y t e => .branch c x y (f t) (f e)
  | .ret x => .ret x

/-- Sends every edge to `old` towards `new`. -/
def retarget (old new : BlockId) (t : Tail) : Tail :=
  t.mapTargets fun b => if b = old then new else b

end Tail

structure Block where
  label : Label
  body : List Quad := []
  tail : Tail := .ret none
  preds : List BlockId := []
  succs : List (BlockId × EdgeKind) := []
  deriving DecidableEq, Repr, Inhabited

namespace Block

/-- An empty block under a generated label. -/
def fresh (s : Supply) : Block × Supply :=
  let (label, s) := s.fresh blockStem
  ({ label }, s)

end Block

/-- A function in block form. -/
structure Graph where
  name : Label
  ret : Option Ty
  vars : Array Variable
  params : List VarId
  blocks : Array Block
  layout : List BlockId
  entry : BlockId
  deriving DecidableEq, Repr, Inhabited

namespace Graph

/-- The block of an index; every index in use is in the arena. -/
def block (g : Graph) (b : BlockId) : Block := g.blocks.getD b default

def label (g : Graph) (b : BlockId) : Label := (g.block b).label

def body (g : Graph) (b : BlockId) : List Quad := (g.block b).body

def tail (g : Graph) (b : BlockId) : Tail := (g.block b).tail

/-- Stored predecessors. -/
def preds (g : Graph) (b : BlockId) : List BlockId := (g.block b).preds

/-- Stored successors. -/
def succs (g : Graph) (b : BlockId) : List BlockId := (g.block b).succs.map (·.1)

def targets (g : Graph) (b : BlockId) : List BlockId := (g.tail b).targets

def modifyBlock (g : Graph) (b : BlockId) (f : Block → Block) : Graph :=
  { g with blocks := g.blocks.modify b f }

def setBody (g : Graph) (b : BlockId) (body : List Quad) : Graph :=
  g.modifyBlock b ({ · with body })

def setTail (g : Graph) (b : BlockId) (tail : Tail) : Graph :=
  g.modifyBlock b ({ · with tail })

/-- Adds a block to the arena, outside the layout. -/
def addBlock (g : Graph) (b : Block) : BlockId × Graph :=
  (g.blocks.size, { g with blocks := g.blocks.push b })

/-- Adds an empty block under a generated label. -/
def newBlock (g : Graph) (s : Supply) : BlockId × Graph × Supply :=
  let (b, s) := Block.fresh s
  let (id, g) := g.addBlock b
  (id, g, s)

/-- Adds a variable under a generated name. -/
def addTemporary (g : Graph) (ty : Ty) (s : Supply) : VarId × Graph × Supply :=
  let (name, s) := s.fresh temporaryStem
  (g.vars.size, { g with vars := g.vars.push (.declare name ty .temporary) }, s)

/-- All quadruples of the laid-out blocks. -/
def bodies (g : Graph) : List Quad := g.layout.flatMap g.body

def quadCount (g : Graph) : Nat := g.bodies.length

/-- The global variables, ascending. -/
def globals (g : Graph) : List VarId :=
  (List.range g.vars.size).filter fun v => (g.vars.getD v default).isGlobal

def addressTaken (g : Graph) : VarSet :=
  g.bodies.foldl (fun s q => match q.op with
    | .address x => s.insert x
    | _ => s) ∅

/-- Globals, aggregates and variables whose address is taken. -/
def memoryResident (g : Graph) : VarSet :=
  (List.range g.vars.size).foldl (fun s v =>
    let x := g.vars.getD v default
    if x.isGlobal || !x.ty.isScalar then s.insert v else s) g.addressTaken

end Graph

end Quadcode
