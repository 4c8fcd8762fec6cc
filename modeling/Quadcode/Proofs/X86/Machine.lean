import Quadcode.Proofs.X86.Semantics

/-!
# Running routines on the whole machine

All registers, the flags, and memory byte by byte. Bytes may be undefined; those of the stack that lie
below the stack pointer always are, and become so as soon as the stack pointer moves above them. What
the code of a routine does not say itself stands in a `Platform`: where the stack and the globals lie,
what the floating-point unit computes, and what becomes of calls.

Floating-point registers are their low halves, which are all that scalar instructions see.
-/

namespace Quadcode.X86

abbrev Byte := BitVec 8

/-- The byte of a word at an offset from its address. -/
def byteOf (w : Word) (i : Nat) : Byte := w.extractLsb' (8 * i) 8

/-- The word of eight bytes, the lowest first. -/
def wordOf (b : Nat → Byte) : Word := b 7 ++ b 6 ++ b 5 ++ b 4 ++ b 3 ++ b 2 ++ b 1 ++ b 0

/-- Undefined bytes are absent. -/
abbrev Memory := Word → Option Byte

namespace Memory

def load (m : Memory) (a : Word) : Option Word :=
  if ∀ i < 8, (m (a + .ofNat 64 i)).isSome then some (wordOf fun i => (m (a + .ofNat 64 i)).getD 0)
  else none

def store (m : Memory) (a w : Word) : Memory := fun b =>
  if (b - a).toNat < 8 then some (byteOf w (b - a).toNat) else m b

end Memory

/-- All that the machine holds but for the flags. -/
structure Contents where
  reg : Reg → Word
  xmm : Xmm → Word
  memory : Memory

/-- `d` is `c`, perhaps with more bytes defined. -/
structure Contents.AtMost (c d : Contents) : Prop where
  reg : d.reg = c.reg
  xmm : d.xmm = c.xmm
  memory : ∀ a b, c.memory a = some b → d.memory a = some b

/-- All that the machine holds. Flags that an instruction leaves undefined are absent. -/
structure Core extends Contents where
  flags : Option Flags

/-- Why an instruction does not do what it is there for. -/
inductive Fault where
  /-- It needs something that is undefined, or there is no such instruction. -/
  | undefined
  | trap
  deriving DecidableEq, Repr

namespace Core

variable (s : Core)

def setReg (r : Reg) (w : Word) : Core := { s with reg := fun q => if q = r then w else s.reg q }

def setXmm (x : Xmm) (w : Word) : Core := { s with xmm := fun y => if y = x then w else s.xmm y }

def setMemory (m : Memory) : Core := { s with memory := m }

def setFlags (f : Option Flags) : Core := { s with flags := f }

def load (a : Word) : Except Fault Word :=
  match s.memory.load a with
  | some w => .ok w
  | none => .error .undefined

/-- Divides the double word in `rdx` and `rax`; traps where there is no quotient of one word. -/
def divide (divisor : Word) : Except Fault Core :=
  let dividend := (s.reg .rdx).toInt * 2 ^ 64 + (s.reg .rax).toNat
  let quotient := dividend.tdiv divisor.toInt
  if divisor = 0 ∨ quotient < -2 ^ 63 ∨ 2 ^ 63 ≤ quotient then .error .trap
  else
    .ok (((s.setReg .rax (.ofInt 64 quotient)).setReg .rdx (.ofInt 64 (dividend.tmod divisor.toInt))).setFlags none)

end Core

/-- The registers that the operands of an instruction may name. -/
inductive Bank where
  | int
  | float
  deriving DecidableEq, Repr

/-- What a routine runs in. -/
structure Platform where
  /-- The first byte of the stack. -/
  stackLow : Word
  /-- The first byte behind the stack. -/
  stackHigh : Word
  symbol : Label → Word
  floatOp : FloatOp → Word → Word → Word
  compareFloats : Word → Word → Flags
  floatOfInt : Word → Word
  intOfFloat : Word → Word
  /-- What a routine that is called leaves behind; nothing if it does not come back. It has no result at
  all if it needs an undefined byte. -/
  callee : Label → Contents → Option (Option Core)
  /-- Undefined bytes do not decide what a call does, and flags do not reach it. -/
  callee_mono : ∀ {l c d answer}, c.AtMost d → callee l c = some answer → ∃ answer', callee l d = some answer' ∧
      Option.Rel (fun s t => s.AtMost t.toContents ∧ s.flags = t.flags) answer answer'

namespace Platform

variable (P : Platform)

def onStack (a : Word) : Bool := P.stackLow ≤ a && a < P.stackHigh

/-- Forgets what lies on the stack below the stack pointer. -/
def trim (s : Core) : Core := s.setMemory fun a => if P.onStack a && a < s.reg .rsp then none else s.memory a

def address (s : Core) : Operand → Except Fault Word
  | .mem base index offset =>
    .ok (s.reg base + (index.elim 0 fun i => 8 * s.reg i) + extended offset)
  | .global label offset => .ok (P.symbol label + extended offset)
  | _ => .error .undefined

def store (s : Core) (a w : Word) : Core := P.trim (s.setMemory (s.memory.store a w))

def read (s : Core) (bank : Bank) : Operand → Except Fault Word
  | .reg r => if bank = .int then .ok (s.reg r) else .error .undefined
  | .xmm x => if bank = .float then .ok (s.xmm x) else .error .undefined
  | .imm i => if bank = .int then .ok i.toBitVec else .error .undefined
  | o => do s.load (← P.address s o)

def write (s : Core) (bank : Bank) (w : Word) : Operand → Except Fault Core
  | .reg r => if bank = .int then .ok (P.trim (s.setReg r w)) else .error .undefined
  | .xmm x => if bank = .float then .ok (s.setXmm x w) else .error .undefined
  | .imm _ => .error .undefined
  | o => do pure (P.store s (← P.address s o) w)

def move (s : Core) (bank : Bank) (d x : Operand) : Except Fault Core :=
  if d.isMemory && x.isMemory then .error .undefined
  else do P.write s bank (← P.read s bank x) d

/-- Whether a word can be pushed. -/
def hasRoom (s : Core) : Prop := P.stackLow.toNat + slotBytes ≤ (s.reg .rsp).toNat ∧ s.reg .rsp ≤ P.stackHigh

instance (s : Core) : Decidable (P.hasRoom s) := inferInstanceAs (Decidable (_ ∧ _))

/-- What an instruction does that passes control to the next one. -/
def act (s : Core) : Inst → Except Fault Core
  | .label _ => .ok s
  | .mov d x => P.move s .int d x
  | .movsd d x => P.move s .float d x
  | .lea r x => do P.write s .int (← P.address s x) (.reg r)
  | .int op d x =>
    if d.isMemory && x.isMemory || op = .imul && d.isMemory then .error .undefined
    else do
      let y ← P.read s .int d
      let z ← P.read s .int x
      P.write (s.setFlags (op.apply y z).2) .int (op.apply y z).1 d
  | .float op d x => do pure (s.setXmm d (P.floatOp op (s.xmm d) (← P.read s .float x)))
  | .neg d => do
    let w ← P.read s .int d
    P.write (s.setFlags (some (.ofSub 0 w))) .int (-w) d
  | .movsxd r => P.write s .int (narrowed (s.reg r)) (.reg r)
  | .cqo => P.write s .int (if (s.reg .rax).msb then -1 else 0) (.reg .rdx)
  | .idiv x => do s.divide (← P.read s .int x)
  | .cmp x y =>
    if x.isMemory && y.isMemory then .error .undefined
    else do
      let x ← P.read s .int x
      let y ← P.read s .int y
      pure (s.setFlags (some (.ofSub x y)))
  | .ucomisd x y => do pure (s.setFlags (some (P.compareFloats (s.xmm x) (← P.read s .float y))))
  | .set c r =>
    match s.flags with
    | some f => P.write s .int (if c.holds f then 1 else 0) (.reg r)
    | none => .error .undefined
  | .cvtsi2sd x y => do pure (s.setXmm x (P.floatOfInt (← P.read s .int y)))
  | .cvttsd2si r x => do P.write s .int (P.intOfFloat (← P.read s .float x)) (.reg r)
  | .push x => do
    let w ← P.read s .int x
    if P.hasRoom s then pure (P.store (s.setReg .rsp (s.reg .rsp - 8)) (s.reg .rsp - 8) w)
    else .error .undefined
  | .pop d => do
    let w ← s.load (s.reg .rsp)
    P.write (s.setReg .rsp (s.reg .rsp + 8)) .int w d
  | .jmp _ | .jcc .. | .call _ | .ret => .error .undefined

end Platform

/-- A call as it is made. -/
structure Call where
  target : Label
  contents : Contents

/-- The same call, perhaps with more bytes defined. -/
def Call.AtMost (k k' : Call) : Prop := k.target = k'.target ∧ k.contents.AtMost k'.contents

/-- The code that is still to be run, and what the machine holds. -/
structure Configuration where
  code : List Inst
  core : Core

/-- What one instruction leads to. -/
inductive Event where
  | goes (next : Configuration)
  /-- A call, and where it comes back to, if it does. -/
  | calls (call : Call) (next : Option Configuration)
  | returns

/-- The code of a routine from a label on. -/
def codeFrom (l : Label) : List Inst → Except Fault (List Inst)
  | [] => .error .undefined
  | i :: rest => if i = .label l then .ok (i :: rest) else codeFrom l rest

/-- Where an instruction leads that goes on within the routine. -/
def Platform.advance (P : Platform) (routine : List Inst) : Configuration → Except Fault Configuration
  | ⟨[], _⟩ => .error .undefined
  | ⟨.jmp l :: _, s⟩ => (codeFrom l routine).map (⟨·, s⟩)
  | ⟨.jcc c l :: rest, s⟩ =>
    match s.flags with
    | some f => if c.holds f then (codeFrom l routine).map (⟨·, s⟩) else .ok ⟨rest, s⟩
    | none => .error .undefined
  | ⟨i :: rest, s⟩ => (P.act s i).map (⟨rest, ·⟩)

def Platform.step (P : Platform) (routine : List Inst) : Configuration → Except Fault Event
  | ⟨.call l :: rest, s⟩ =>
    match P.callee l s.toContents with
    | some answer => .ok (.calls ⟨l, s.toContents⟩ (answer.map fun t => ⟨rest, P.trim t⟩))
    | none => .error .undefined
  | ⟨.ret :: _, _⟩ => .ok .returns
  | c => (P.advance routine c).map .goes

/-- How far a run has come. -/
inductive Status where
  | at (c : Configuration)
  | returned (c : Contents)
  | trapped
  /-- In a call that does not come back. -/
  | away
  | undefined

/-- What a run has done so far: the calls it has made, in order, and how far it has come. -/
structure Trace where
  calls : List Call
  status : Status

def Trace.after (call : Call) (t : Trace) : Trace := { t with calls := call :: t.calls }

/-- What a run does in a number of steps. -/
def Platform.trace (P : Platform) (routine : List Inst) : Nat → Configuration → Trace
  | 0, c => ⟨[], .at c⟩
  | n + 1, c =>
    match P.step routine c with
    | .error .undefined => ⟨[], .undefined⟩
    | .error .trap => ⟨[], .trapped⟩
    | .ok .returns => ⟨[], .returned c.core.toContents⟩
    | .ok (.goes d) => P.trace routine n d
    | .ok (.calls call (some d)) => (P.trace routine n d).after call
    | .ok (.calls call none) => ⟨[call], .away⟩

/-- What a routine does in a number of steps, from its first instruction on. -/
def Platform.run (P : Platform) (routine : List Inst) (s : Core) (n : Nat) : Trace := P.trace routine n ⟨routine, s⟩

/-! ## Words and bytes -/

theorem byteOf_wordOf (b : Nat → Byte) {i : Nat} (inside : i < 8) : byteOf (wordOf b) i = b i := by
  apply BitVec.eq_of_getLsbD_eq
  intro k small
  simp only [byteOf, wordOf, BitVec.getLsbD_extractLsb', BitVec.getLsbD_append, small, decide_true, Bool.true_and]
  have cases : i = 0 ∨ i = 1 ∨ i = 2 ∨ i = 3 ∨ i = 4 ∨ i = 5 ∨ i = 6 ∨ i = 7 := by omega
  rcases cases with rfl | rfl | rfl | rfl | rfl | rfl | rfl | rfl <;> grind

theorem wordOf_congr {b b' : Nat → Byte} (same : ∀ i < 8, b i = b' i) : wordOf b = wordOf b' := by
  unfold wordOf
  rw [same 0 (by decide), same 1 (by decide), same 2 (by decide), same 3 (by decide),
    same 4 (by decide), same 5 (by decide), same 6 (by decide), same 7 (by decide)]

theorem wordOf_byteOf (w : Word) : wordOf (byteOf w) = w := by
  apply BitVec.eq_of_getLsbD_eq
  intro k small
  simp only [byteOf, wordOf, BitVec.getLsbD_extractLsb', BitVec.getLsbD_append]
  grind

end Quadcode.X86
