import Mathlib.Algebra.Group.Int.Defs
import Mathlib.Algebra.Group.Nat.Defs
import Mathlib.Logic.Relation
import Quadcode.X86.Inst

/-!
# What integer instructions do

The part of the machine that integer code sees: 64-bit registers, flags, and memory as words at
addresses that are multiples of eight. An instruction that has no encoding, that traps, or that
belongs to another part of the machine has no effect here: it is stuck. Flags that the machine leaves
undefined are absent, and nothing may test them.
-/

namespace Quadcode.X86

open List

abbrev Word := BitVec 64

/-- The number that a 32-bit integer is in a register. -/
def extended (i : Int32) : Word := i.toBitVec.signExtend 64

/-- The sign of the low 32 bits, extended. -/
def narrowed (w : Word) : Word := (w.setWidth 32).signExtend 64

structure Flags where
  zero : Bool
  sign : Bool
  overflow : Bool
  carry : Bool
  parity : Bool
  deriving DecidableEq, Repr

/-- Whether the low byte has an even number of ones. -/
def evenParity (w : Word) : Bool := (List.range 8).foldl (fun even i => even != w.getLsbD i) true

namespace Flags

/-- The flags that follow from a result alone. -/
def ofResult (w : Word) (overflow carry : Bool) : Flags := ⟨w == 0, w.msb, overflow, carry, evenParity w⟩

def ofAdd (x y : Word) : Flags := ofResult (x + y) (x.saddOverflow y) (x.uaddOverflow y)

def ofSub (x y : Word) : Flags := ofResult (x - y) (x.ssubOverflow y) (x.usubOverflow y)

end Flags

def Cond.holds (f : Flags) : Cond → Bool
  | .e => f.zero
  | .ne => !f.zero
  | .l => f.sign != f.overflow
  | .ge => f.sign == f.overflow
  | .le => f.zero || f.sign != f.overflow
  | .g => !f.zero && f.sign == f.overflow
  | .b => f.carry
  | .ae => !f.carry
  | .be => f.carry || f.zero
  | .a => !f.carry && !f.zero
  | .p => f.parity
  | .np => !f.parity

/-- The result of an operation and the flags it leaves. -/
def IntOp.apply : IntOp → Word → Word → Word × Option Flags
  | .add, x, y => (x + y, some (.ofAdd x y))
  | .sub, x, y => (x - y, some (.ofSub x y))
  | .imul, x, y => (x * y, none)
  | .and, x, y => (x &&& y, some (.ofResult (x &&& y) false false))
  | .or, x, y => (x ||| y, some (.ofResult (x ||| y) false false))

structure State where
  reg : Reg → Word
  memory : Word → Word
  flags : Option Flags

namespace State

variable (s : State)

def setReg (r : Reg) (w : Word) : State := { s with reg := fun q => if q = r then w else s.reg q }

def setMemory (a w : Word) : State := { s with memory := fun b => if b = a then w else s.memory b }

def setFlags (f : Option Flags) : State := { s with flags := f }

def address (base : Reg) (index : Option Reg) (offset : Int32) : Word :=
  s.reg base + (index.elim 0 fun i => 8 * s.reg i) + extended offset

def load (a : Word) : Option Word := if a.toNat % slotBytes = 0 then some (s.memory a) else none

def store (a w : Word) : Option State :=
  if a.toNat % slotBytes = 0 then some (s.setMemory a w) else none

/-- An immediate operand is 32 bits wide and its sign is extended. -/
def read : Operand → Option Word
  | .reg r => some (s.reg r)
  | .imm i => if i.toInt32.toInt64 = i then some i.toBitVec else none
  | .mem base index offset => s.load (s.address base index offset)
  | .xmm _ | .global .. => none

def write (w : Word) : Operand → Option State
  | .reg r => some (s.setReg r w)
  | .mem base index offset => s.store (s.address base index offset) w
  | .imm _ | .xmm _ | .global .. => none

/-- Divides the double word in `rdx` and `rax`; traps where there is no quotient of one word. -/
def divide (divisor : Word) : Option State :=
  let dividend := (s.reg .rdx).toInt * 2 ^ 64 + (s.reg .rax).toNat
  let quotient := dividend.tdiv divisor.toInt
  if divisor = 0 ∨ quotient < -2 ^ 63 ∨ 2 ^ 63 ≤ quotient then none
  else
    some (((s.setReg .rax (.ofInt 64 quotient)).setReg .rdx (.ofInt 64 (dividend.tmod divisor.toInt))).setFlags none)

end State

/-- What an instruction does that passes control to the next one. -/
def Inst.perform (s : State) : Inst → Option State
  | .label _ => some s
  | .mov d x => if d.isMemory && x.isMemory then none else do s.write (← s.read x) d
  | .int op d x =>
    if d.isMemory && x.isMemory || op = .imul && d.isMemory then none
    else do
      let (w, flags) := op.apply (← s.read d) (← s.read x)
      (s.setFlags flags).write w d
  | .neg d => do
    let w ← s.read d
    (s.setFlags (some (.ofSub 0 w))).write (-w) d
  | .movsxd r => some (s.setReg r (narrowed (s.reg r)))
  | .cqo => some (s.setReg .rdx (if (s.reg .rax).msb then -1 else 0))
  | .idiv x => do s.divide (← s.read x)
  | .cmp x y =>
    if x.isMemory && y.isMemory then none
    else do pure (s.setFlags (some (.ofSub (← s.read x) (← s.read y))))
  | .set c r => s.flags.map fun f => s.setReg r (if c.holds f then 1 else 0)
  | .push x => do
    let w ← s.read x
    (s.setReg .rsp (s.reg .rsp - 8)).store (s.reg .rsp - 8) w
  | .pop d => do
    let w ← s.load (s.reg .rsp)
    (s.setReg .rsp (s.reg .rsp + 8)).write w d
  | _ => none

/-- A place in the code and what the machine holds there. -/
structure Snapshot where
  pc : Nat
  state : State

/-- Where a label stands. -/
def target? (code : List Inst) (l : Label) : Option Nat := code.findIdx? (· == .label l)

/-- Runs the instruction at hand. There is no next one after a return. -/
def step (code : List Inst) (c : Snapshot) : Option Snapshot :=
  match code[c.pc]? with
  | none => none
  | some (.jmp l) => (target? code l).map (⟨·, c.state⟩)
  | some (.jcc k l) => c.state.flags.bind fun f =>
    if k.holds f then (target? code l).map (⟨·, c.state⟩) else some ⟨c.pc + 1, c.state⟩
  | some i => (i.perform c.state).map (⟨c.pc + 1, ·⟩)

/-- Control gets from one configuration to the other. -/
def Reaches (code : List Inst) : Snapshot → Snapshot → Prop := Relation.ReflTransGen fun c d => step code c = some d

/-- The effect of instructions that follow each other. -/
def perform (s : State) (code : List Inst) : Option State := code.foldlM Inst.perform s

variable {s t u : State} {first rest before after : List Inst} {i : Inst}

@[simp]
theorem perform_nil : perform s [] = some s := rfl

@[simp]
theorem perform_cons : perform s (i :: rest) = (i.perform s).bind (perform · rest) := rfl

theorem perform_append : perform s (first ++ rest) = (perform s first).bind (perform · rest) := foldlM_append

/-- Instructions run one after the other where they stand. -/
theorem reaches_of_perform (before after : List Inst) (performed : perform s first = some t) :
    Reaches (before ++ first ++ after) ⟨before.length, s⟩ ⟨(before ++ first).length, t⟩ := by
  induction first generalizing before s with
  | nil =>
    cases performed
    rw [append_nil]
    exact .refl
  | cons i rest ih =>
    rw [perform_cons, Option.bind_eq_some_iff] at performed
    obtain ⟨u, here, later⟩ := performed
    have at_i : (before ++ i :: rest ++ after)[before.length]? = some i := by simp
    have stepped : step (before ++ i :: rest ++ after) ⟨before.length, s⟩ = some ⟨before.length + 1, u⟩ := by
      unfold step
      rw [at_i]
      cases i <;> simp_all [Inst.perform]
    have others := ih (before ++ [i]) later
    simp only [append_assoc, cons_append, nil_append, length_append, length_cons, length_nil] at others stepped ⊢
    exact .head stepped others

variable {l : Label} {n : Nat}

/-- A label that did not occur before is found where it stands. -/
theorem target?_eq (fresh : Inst.label l ∉ before) : target? (before ++ .label l :: after) l = some before.length := by
  unfold target?
  rw [findIdx?_append, findIdx?_eq_none_iff.2]
  · simp [findIdx?_cons]
  · intro i member
    rw [beq_eq_false_iff_ne]
    rintro rfl
    exact fresh member

theorem reaches_jmp (found : target? (before ++ .jmp l :: after) l = some n) :
    Reaches (before ++ .jmp l :: after) ⟨before.length, s⟩ ⟨n, s⟩ := by
  refine .single ?_
  unfold step
  simp [found]

/-- A conditional jump and the jump behind it choose between two labels. -/
theorem reaches_branch {c : Cond} {f : Flags} {l' : Label} (performed : perform s first = some t)
    (set : t.flags = some f)
    (found : target? (before ++ (first ++ [.jcc c l, .jmp l']) ++ after) (if c.holds f then l else l') = some n) :
    Reaches (before ++ (first ++ [.jcc c l, .jmp l']) ++ after) ⟨before.length, s⟩ ⟨n, t⟩ := by
  have tested := reaches_of_perform before (.jcc c l :: .jmp l' :: after) performed
  have assoc : before ++ (first ++ [.jcc c l, .jmp l']) ++ after = before ++ first ++ .jcc c l :: .jmp l' :: after := by
    simp
  rw [assoc] at found ⊢
  refine .trans tested ?_
  generalize before ++ first = before at found ⊢
  cases holds : c.holds f with
  | true =>
    rw [holds, if_pos rfl] at found
    refine .single ?_
    unfold step
    simp [set, holds, found]
  | false =>
    rw [holds, if_neg Bool.false_ne_true] at found
    refine .trans (b := ⟨before.length + 1, t⟩) (.single ?_) (.single ?_)
    · unfold step
      simp [set, holds]
    · unfold step
      simp [found]

end Quadcode.X86
