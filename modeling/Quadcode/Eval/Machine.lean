import Quadcode.Eval.Value
import Quadcode.Module
import Std.Data.ExtTreeMap

/-!
# The interpreter's state

Globals by name, a stack of frames, the input still to be read, what has been printed and the number
of steps taken. `effect` says what one quadruple does in a state; `perform` does it.
-/

namespace Quadcode

/-- The slots of each variable of one activation. -/
abbrev Frame := Array (Array Value)

structure Machine where
  globals : Std.ExtTreeMap Label (Array Value) := ∅
  /-- The outermost activation first. -/
  frames : Array Frame := #[]
  input : List Int32 := []
  output : String := ""
  steps : Nat := 0

/-- Bytes that a value takes. -/
def Value.bytes : Nat := 32

/-- What one variable can take of the address space. -/
def storageLimit : Nat := 0x7fffffffffffffff

/-- The slots of a variable, all alike. -/
def Ty.storage (t : Ty) (x : Value) : Except Stop (Array Value) :=
  match t.slots? with
  | some n => if n * Value.bytes ≤ storageLimit then .ok (Array.replicate n x) else .error .fault
  | none => .error .fault

/-- The slots of a global at the start. -/
def Global.slots (g : Global) : Except Stop (Array Value) := do
  let slots ← g.ty.storage (Value.initial g.ty)
  match g.init with
  | none => .ok slots
  | some c => if slots.isEmpty then .error .fault else .ok (slots.setIfInBounds 0 (.ofConst c))

namespace Machine

/-- Fresh globals; of two with one name the later stands. -/
def start (m : Module) (input : List Int32) : Except Stop Machine := do
  let globals ← m.globals.foldlM (fun globals g => do
    pure (globals.insert g.name (← g.slots))) (∅ : Std.ExtTreeMap Label (Array Value))
  pure { globals, input }

/-- The slots of a variable, unless its frame is gone. -/
def slots? (m : Machine) : Place → Option (Array Value)
  | .local frame v => m.frames[frame]?.bind (·[v]?)
  | .global name => m.globals[name]?

def slot? (m : Machine) (p : Place) (offset : Nat) : Option Value :=
  (m.slots? p).bind (·[offset]?)

/-- Replaces the contents of an existing slot. -/
def put (m : Machine) (p : Place) (offset : Nat) (x : Value) : Machine :=
  match p with
  | .local frame v =>
    { m with frames := m.frames.modify frame fun f => f.modify v (·.setIfInBounds offset x) }
  | .global name =>
    { m with globals := m.globals.modify name (·.setIfInBounds offset x) }

/-- Where a variable of the running function lives. -/
def place (m : Machine) (g : Graph) (v : VarId) : Except Stop Place :=
  match g.vars[v]? with
  | none => .error .fault
  | some x => .ok (if x.isGlobal then .global x.name else .local (m.frames.size - 1) v)

def fetch (m : Machine) (g : Graph) (p : Place) (offset : Nat) : Except Stop Value :=
  match m.slot? p offset with
  | some x => .ok x
  | none => .error (.error (.outOfBounds g.name))

def varValue (m : Machine) (g : Graph) (v : VarId) : Except Stop Value := do
  m.fetch g (← m.place g v) 0

def arg (m : Machine) (g : Graph) : Arg → Except Stop Value
  | .var v => m.varValue g v
  | .const c => .ok (.ofConst c)
  | .str label => .ok (.str label)

def index (m : Machine) (g : Graph) (a : Arg) : Except Stop Nat := do
  match ← m.arg g a with
  | .int i => if 0 ≤ i then .ok i.toInt.toNat else .error (.error (.outOfBounds g.name))
  | .undef => .error (.error (.undefined g.name))
  | _ => .error (.error (.outOfBounds g.name))

/-- The slot that `base[index]` names: one of an aggregate, or one behind a pointer. -/
def element (m : Machine) (g : Graph) (base : VarId) (index : Nat) : Except Stop (Place × Nat) :=
  match g.vars[base]? with
  | none => .error .fault
  | some x =>
    if x.ty.isPointer then do
      match ← m.varValue g base with
      | .ptr p offset =>
        if offset + index < wordLimit then .ok (p, offset + index) else .error .fault
      | _ => .error (.error (.typeMismatch g.name))
    else do pure (← m.place g base, index)

/-- The slot a pointer variable points to. -/
def pointee (m : Machine) (g : Graph) (v : VarId) : Except Stop (Place × Nat) := do
  match ← m.varValue g v with
  | .ptr p offset => .ok (p, offset)
  | .undef => .error (.error (.undefined g.name))
  | _ => .error (.error (.typeMismatch g.name))

/-- A slot that is about to be written. -/
def existing (m : Machine) (g : Graph) (p : Place) (offset : Nat) : Except Stop (Place × Nat) :=
  match m.slot? p offset with
  | some _ => .ok (p, offset)
  | none => .error (.error (.outOfBounds g.name))

end Machine

/-- A number as an operand. -/
def Value.number (g : Graph) : Value → Except Stop Const
  | .int i => .ok (.int i)
  | .float x => .ok (.float x)
  | .undef => .error (.error (.undefined g.name))
  | _ => .error (.error (.typeMismatch g.name))

def BinOp.apply (op : BinOp) (g : Graph) (x y : Value) : Except Stop Value := do
  let a ← x.number g
  let b ← y.number g
  if op.isDivision ∧ b = .int 0 then .error (.error (.divisionByZero g.name))
  else
    match op.fold a b with
    | some c => .ok (.ofConst c)
    | none => .error (.error (.typeMismatch g.name))

def UnOp.apply (op : UnOp) (g : Graph) (x : Value) : Except Stop Value := do
  match op.fold (← x.number g) with
  | some c => .ok (.ofConst c)
  | none => .error (.error (.typeMismatch g.name))

/-- Numbers of one kind compare as numbers; any other two defined values only for equality. -/
def Comparison.apply (c : Comparison) (g : Graph) : Value → Value → Except Stop Bool
  | .int a, .int b => .ok (c.testInt a b)
  | .float a, .float b => .ok (c.testFloat a b)
  | .undef, _ | _, .undef => .error (.error (.undefined g.name))
  | x, y =>
    match c with
    | .eq => .ok (x = y)
    | .ne => .ok (x ≠ y)
    | _ => .error (.error (.typeMismatch g.name))

/-- What one quadruple other than a call does. -/
inductive Effect where
  | nothing
  | value (x : Value)
  /-- Takes the next item of the input. -/
  | input (x : Value)
  | write (p : Place) (offset : Nat) (x : Value)
  | output (text : String)
  deriving DecidableEq, Repr

/-- The value for the result variable. -/
def Effect.result? : Effect → Option Value
  | .value x | .input x => some x
  | _ => none

namespace Machine

def effect (m : Machine) (strings : StringPool) (g : Graph) : Op → Except Stop Effect
  | .nop => .ok .nothing
  | .assign x => do pure (.value (← m.arg g x))
  | .binOp op x y => do
    let x ← m.arg g x
    let y ← m.arg g y
    pure (.value (← op.apply g x y))
  | .unOp op x => do pure (.value (← op.apply g (← m.arg g x)))
  | .cmp c x y => do
    let x ← m.arg g x
    let y ← m.arg g y
    pure (.value (.ofConst (.ofBool (← c.apply g x y))))
  | .load base i => do
    let i ← m.index g i
    let (p, offset) ← m.element g base i
    pure (.value (← m.fetch g p offset))
  | .store base i x => do
    let i ← m.index g i
    let x ← m.arg g x
    let (p, offset) ← m.element g base i
    let (p, offset) ← m.existing g p offset
    pure (.write p offset x)
  | .address v => do pure (.value (.ptr (← m.place g v) 0))
  | .deref v => do
    let (p, offset) ← m.pointee g v
    pure (.value (← m.fetch g p offset))
  | .derefStore v x => do
    let x ← m.arg g x
    let (p, offset) ← m.pointee g v
    let (p, offset) ← m.existing g p offset
    pure (.write p offset x)
  | .print x => do
    match ← m.arg g x with
    | .str label => pure (.output ((strings.get? label).getD ""))
    | .undef => .error (.error (.undefined g.name))
    | v => pure (.output v.text)
  | .printLine => .ok (.output "\n")
  | .read =>
    match m.input with
    | i :: _ => .ok (.input (.int i))
    | [] => .error (.error .noInput)
  | _ => .error (.error (.typeMismatch g.name))

def perform (m : Machine) : Effect → Machine
  | .nothing | .value _ => m
  | .input _ => { m with input := m.input.tail }
  | .write p offset x => m.put p offset x
  | .output text => { m with output := m.output ++ text }

/-- Where the value of a quadruple goes; nowhere without a result variable or without a value. -/
def destination (m : Machine) (g : Graph) :
    Option VarId → Option Value → Except Stop (Option (Place × Value))
  | some r, some x => do
    let (p, _) ← m.existing g (← m.place g r) 0
    pure (some (p, x))
  | _, _ => .ok none

def deliver (m : Machine) : Option (Place × Value) → Machine
  | some (p, x) => m.put p 0 x
  | none => m

/-- The values of a list of arguments, in order. -/
def args (m : Machine) (g : Graph) (xs : List Arg) : Except Stop (List Value) :=
  xs.mapM (m.arg g)

end Machine

/-- The frame of an activation: undefined but for the parameters that got an argument. -/
def Frame.enter (g : Graph) (args : List Value) : Except Stop Frame := do
  let frame ← g.vars.mapM fun x => x.ty.storage .undef
  (g.params.zip args).foldlM (fun frame (p, a) =>
    match (frame[p]?).bind (·[0]?) with
    | some _ => .ok (frame.modify p (·.setIfInBounds 0 a))
    | none => .error .fault) frame

end Quadcode
