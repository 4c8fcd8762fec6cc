import Quadcode.Allocation.Interference
import Quadcode.Allocation.Priority
import Quadcode.X86.Register

/-!
# Places for variables

Every variable of a function gets a place: a register, words of the stack frame, or the storage of a
global. Variables in memory are placed first; the others are tried by priority, and those for which
no register is free are spilled to the frame. Parameters that are not in a register stay where the
caller put them.
-/

namespace Quadcode

open X86

inductive Location where
  | reg (r : Reg)
  | xmm (x : Xmm)
  /-- Offset from the frame pointer of the first word. -/
  | stack (offset : Int32)
  | global (name : Label)
  deriving DecidableEq, Repr, Inhabited

def Location.isRegister : Location → Bool
  | .reg _ | .xmm _ => true
  | _ => false

structure Allocation where
  locations : Array Location
  /-- Bytes of the frame; with the saved registers it keeps the stack aligned. -/
  frameSize : Nat
  calleeSaved : List Reg
  /-- In the order in which they were spilled. -/
  spilled : List VarId
  interference : Interference

namespace Allocation

/-- Bytes that offsets can reach. -/
def frameLimit : Nat := 2147483648

/-- A frame that grows by some words, if they can be reached. -/
def grow? (frame slots : Nat) : Option Nat :=
  let size := frame + slotBytes * slots
  if size < frameLimit then some size else none

/-- The place of the lowest word of a frame. -/
def bottom (frame : Nat) : Location := .stack (Int32.ofInt (-(frame : Int)))

/-- Where the caller puts an argument. -/
def incoming (k : Nat) : Location := .stack (Int32.ofNat (argumentBase + slotBytes * k))

/-- The place of a parameter; of one that is named twice, the last. -/
def incoming? (g : Graph) (v : VarId) : Option Location :=
  (g.params.zipIdx.reverse.lookup v).map incoming

/-- What has been given a place so far. -/
structure Progress where
  placed : Std.ExtTreeMap VarId Location := ∅
  frame : Nat := 0
  /-- The last one first. -/
  spilled : List VarId := []

/-- Nothing is placed yet. A fault when offsets cannot reach all arguments. -/
def Progress.start (g : Graph) : Except Failure Progress :=
  if argumentBase + slotBytes * g.params.length ≤ frameLimit then pure {} else .error .fault

def Progress.place (p : Progress) (v : VarId) (l : Location) : Progress :=
  { p with placed := p.placed.insert v l }

/-- The complaint that there is no room. -/
def unplaceable (g : Graph) (name : Label) : Failure :=
  .diagnostic ⟨"regalloc", g.name, .unplaceable name⟩

/-- Puts a variable into new words of the frame. -/
def Progress.reserve (g : Graph) (p : Progress) (v : VarId) (slots : Nat) :
    Except Failure Progress :=
  match grow? p.frame slots with
  | some frame => pure ({ p with frame }.place v (bottom frame))
  | none => .error (unplaceable g (varName g.vars v))

/-- Places a variable that lives in memory. -/
def placeInMemory (g : Graph) (p : Progress) (v : VarId) : Except Failure Progress := do
  let x ← orFault g.vars[v]?
  if x.isGlobal then pure (p.place v (.global x.name))
  else
    match incoming? g v with
    | some l => pure (p.place v l)
    | none => p.reserve g v (← orFault x.ty.slots?)

/-- The registers for a type, in the order they are tried. -/
def registersFor (ty : Ty) : List Location :=
  if ty.isFloat then allocatableFloats.map .xmm else allocatable.map .reg

/-- The first register that no neighbour holds. -/
def freeRegister? (i : Interference) (p : Progress) (v : VarId) (ty : Ty) : Option Location :=
  let taken := (i.neighbours v).toList.filterMap (p.placed[·]?)
  (registersFor ty).find? fun l => !taken.contains l

/-- Places a candidate for a register. -/
def placeCandidate (g : Graph) (i : Interference) (p : Progress) (v : VarId) :
    Except Failure Progress := do
  let x ← orFault g.vars[v]?
  match freeRegister? i p v x.ty with
  | some l => pure (p.place v l)
  | none =>
    let p := { p with spilled := v :: p.spilled }
    match incoming? g v with
    | some l => pure (p.place v l)
    | none => p.reserve g v 1

/-- Pads a frame so that it and the saved registers are aligned; a fault when their sum cannot be
reached. -/
def align (g : Graph) (frame saved : Nat) : Except Failure Nat :=
  let size := frame + slotBytes * saved
  if frameLimit ≤ size then .error .fault
  else if size % stackAlignment = 0 then pure frame
  else
    match grow? frame ((stackAlignment - size % stackAlignment) / slotBytes) with
    | some frame => pure frame
    | none => .error (unplaceable g g.name)

end Allocation

/-- Gives every variable a place. -/
def allocate (g : Graph) (live : Solution VarSet) (loops : Loops) : Except Failure Allocation := do
  let memory := g.memoryResident
  let vars := List.range g.vars.size
  let candidates : VarSet := .ofList (vars.filter (· ∉ memory))
  let interference ← Interference.build g live candidates
  let order ← Priority.order g live loops candidates
  let p ← Allocation.Progress.start g
  let p ← (vars.filter (· ∈ memory)).foldlM (Allocation.placeInMemory g) p
  let p ← order.foldlM (Allocation.placeCandidate g interference) p
  let locations ← vars.mapM fun v =>
    match p.placed[v]? with
    | some l => pure l
    | none => .error (Allocation.unplaceable g (varName g.vars v))
  let saved := calleeSaved.filter fun r => locations.contains (.reg r)
  let frameSize ← Allocation.align g p.frame saved.length
  pure
    { locations := locations.toArray
      frameSize
      calleeSaved := saved
      spilled := p.spilled.reverse
      interference }

end Quadcode
