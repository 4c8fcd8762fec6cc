import Quadcode.Proofs.Lowering.Layout

/-!
# How deep the stack is

What an instruction does to the stack pointer shows in its text, and so the depth of the stack can be followed
along every path through code. The depth counts the return address. Where the frame pointer holds a
former depth, the stack pointer can go back to it.
-/

namespace Quadcode.X86

open List

variable {saved : List Reg} {floor : Int} {l base m : Level}

/-- The bytes on the stack, and how many of them lie above the frame pointer. -/
structure Level where
  depth : Int
  frame : Option Int

/-- As a routine is called. -/
def Level.entered : Level := ⟨slotBytes, none⟩

def Level.deeper (l : Level) (bytes : Int) : Level := { l with depth := l.depth + bytes }

@[simp]
theorem Level.deeper_depth (l : Level) (n : Int) : (l.deeper n).depth = l.depth + n := rfl

@[simp]
theorem Level.deeper_deeper (l : Level) (m n : Int) : (l.deeper m).deeper n = l.deeper (m + n) := by
  simp [deeper, Int.add_assoc]

@[simp]
theorem Level.deeper_zero (l : Level) : l.deeper 0 = l := by simp [deeper]

/-- So many slots deeper. -/
def Level.push (l : Level) (slots : Nat) : Level := l.deeper (slotBytes * slots)

@[simp]
theorem Level.push_zero (l : Level) : l.push 0 = l := by simp [push]

@[simp]
theorem Level.push_push (l : Level) (m n : Nat) : (l.push m).push n = l.push (m + n) := by
  simp [push, Int.mul_add]

theorem Level.le_push (above : floor ≤ l.depth) (n : Nat) : floor ≤ (l.push n).depth := by
  simp only [push, slotBytes, deeper_depth]
  omega

/-- Neither of the pointers, nor a callee-saved register that is not saved. -/
def Operand.Free (saved : List Reg) : Operand → Prop
  | .reg r => r ≠ .rsp ∧ r ≠ .rbp ∧ (r ∈ calleeSaved → r ∈ saved)
  | _ => True

namespace Inst

/-- The registers that an instruction itself writes to. -/
def writes : Inst → List Reg
  | .mov (.reg r) _ | .movsd (.reg r) _ | .int _ (.reg r) _ | .neg (.reg r) | .pop (.reg r) => [r]
  | .lea r _ | .movsxd r | .set _ r | .cvttsd2si r _ => [r]
  | .cqo => [.rdx]
  | .idiv _ => [.rax, .rdx]
  | _ => []

/-- The level behind an instruction, if its text tells. -/
def track (l : Level) : Inst → Option Level
  | .push _ => some (l.push 1)
  | .pop (.reg .rbp) => some { l.deeper (-slotBytes) with frame := none }
  | .pop (.reg .rsp) => none
  | .pop _ => some (l.deeper (-slotBytes))
  | .mov (.reg .rbp) (.reg .rsp) => some { l with frame := some l.depth }
  | .mov (.reg .rsp) (.reg .rbp) => l.frame.map fun d => { l with depth := d }
  | .int .sub (.reg .rsp) (.imm n) => some (l.deeper n.toInt)
  | .int .add (.reg .rsp) (.imm n) => some (l.deeper (-n.toInt))
  | i => if .rsp ∈ i.writes ∨ .rbp ∈ i.writes then none else some l

/-- Whether the next instruction may follow. -/
def runsOn : Inst → Bool
  | .jmp _ | .ret => false
  | _ => true

/-- Whether an instruction touches the stack by itself. -/
def isStack : Inst → Bool
  | .push _ | .pop _ | .call _ | .ret => true
  | _ => false

variable {i : Inst}

theorem track_of_writes (l : Level) (apart : i.isStack = false) (rsp : .rsp ∉ i.writes) (rbp : .rbp ∉ i.writes) :
    i.track l = some l := by
  unfold track
  split <;> simp_all [writes, isStack]

theorem isStack_of_computes {home known : Operand → Prop} (computes : i.Computes home known) : i.isStack = false := by
  cases i <;> first | rfl | cases computes

theorem track_pop {o : Operand} (l : Level) (free : o.Free saved) : (pop o).track l = some (l.deeper (-slotBytes)) := by
  unfold track
  split <;> simp_all [Operand.Free]

theorem home_of_writes {home known : Operand → Prop} (computes : i.Computes home known) :
    ∀ r ∈ i.writes, home (.reg r) := by
  intro r member
  unfold writes at member
  split at member <;> simp_all [Computes]
  rcases member with rfl | rfl
  · exact computes.1
  · exact computes.2.1

end Inst

/-- The levels at which a path through code from its start arrives somewhere. -/
inductive Comes (code : List Inst) : Nat → Level → Prop
  | start : Comes code 0 .entered
  | next {pc : Nat} {l l' : Level} {i : Inst} : Comes code pc l → code[pc]? = some i → i.runsOn →
      i.track l = some l' → Comes code (pc + 1) l'
  | jump {pc pc' : Nat} {l : Level} {i : Inst} {name : Label} : Comes code pc l → code[pc]? = some i →
      i.target? = some name → code[pc']? = some (.label name) → Comes code pc' l

/-! ## Straight code -/

/-- Goes straight on, calls only where the stack is aligned, and writes to no callee-saved registers but those
saved. -/
structure Inst.Careful (saved : List Reg) (l : Level) (i : Inst) : Prop where
  plain : i.isPlain
  stays : i ≠ .ret
  aligned : ∀ name, i = .call name → l.depth % stackAlignment = 0
  keeps : ∀ r ∈ i.writes, r ∈ calleeSaved → r ∈ saved

/-- Straight code takes one level to another and never has less than `floor` on the stack. -/
inductive Takes (saved : List Reg) (floor : Int) : Level → List Inst → Level → Prop
  | done (l : Level) : Takes saved floor l [] l
  | step {l m l' : Level} {i : Inst} {rest : List Inst} : floor ≤ l.depth → i.Careful saved l →
      i.track l = some m → Takes saved floor m rest l' → Takes saved floor l (i :: rest) l'

section Straight

variable {n : Level} {code first rest : List Inst}

theorem Takes.append (here : Takes saved floor l first m) (later : Takes saved floor m rest n) :
    Takes saved floor l (first ++ rest) n := by
  induction here with
  | done l => exact later
  | step above careful tracked _ ih => exact .step above careful tracked (ih later)

/-- Neither a label, nor writing to a callee-saved register that is not saved. -/
structure Inst.Mild (saved : List Reg) (i : Inst) : Prop where
  no_label : ∀ n, i ≠ .label n
  keeps : ∀ r ∈ i.writes, r ∈ calleeSaved → r ∈ saved

theorem Takes.mild (takes : Takes saved floor l code m) : ∀ i ∈ code, i.Mild saved ∧ i ≠ .ret := by
  induction takes with
  | done l => exact forall_mem_nil _
  | step _ careful _ _ ih =>
    refine forall_mem_cons.2 ⟨⟨⟨?_, careful.keeps⟩, careful.stays⟩, ih⟩
    rintro n rfl
    cases careful.plain

theorem Takes.no_ret (takes : Takes saved floor l code m) : .ret ∉ code := fun member => (takes.mild _ member).2 rfl

theorem takes_computing (computing : Computing (Operand.Free saved) (fun _ => True) code) (above : floor ≤ l.depth) :
    Takes saved floor l code l := by
  induction code with
  | nil => exact .done l
  | cons i rest ih =>
    obtain ⟨computes, others⟩ := every_cons.1 computing
    have free := Inst.home_of_writes computes
    have apart := Inst.isStack_of_computes computes
    refine .step above ⟨computing.plain i mem_cons_self, ?_, ?_, fun r member => (free r member).2.2⟩
      (Inst.track_of_writes l apart (fun inside => (free _ inside).1 rfl) fun inside => (free _ inside).2.1 rfl)
      (ih others)
    · rintro rfl
      cases apart
    · rintro name rfl
      cases apart

end Straight

/-! ## Code with jumps -/

/-- What an instruction of a routine asks of the level before it. -/
def Inst.Fits (base : Level) (name : Label) (l : Level) : Inst → Prop
  | .label n => n = name ∨ l = base
  | .jmp n | .jcc _ n => n ≠ name ∧ l = base
  | .call _ => l.depth % stackAlignment = 0
  | .ret => l = .entered
  | _ => True

/-- Every instruction up to where the code leaves finds the level it asks for. -/
inductive Guarded (base : Level) (name : Label) : Level → List Inst → Prop
  | step {l l' : Level} {i : Inst} {rest : List Inst} : i.Fits base name l → i.track l = some l' →
      (i.runsOn → Guarded base name l' rest) → Guarded base name l (i :: rest)

section Guarded

variable {name : Label} {code rest : List Inst}

theorem Takes.guarded (takes : Takes saved floor l code m) (behind : Guarded base name m rest) :
    Guarded base name l (code ++ rest) := by
  induction takes with
  | done l => exact behind
  | @step l _ _ i _ _ careful tracked _ ih =>
    refine .step ?_ tracked fun _ => ih behind
    have plain := careful.plain
    cases i with
    | call target => exact careful.aligned target rfl
    | ret => exact absurd rfl careful.stays
    | label | jmp | jcc => cases plain
    | _ => trivial

/-- If the start and every label but that of the routine are guarded, so is every place on a path. -/
theorem Comes.guarded (start : Guarded base name .entered code)
    (labels : ∀ front n back, code = front ++ .label n :: back → n ≠ name → Guarded base name base (.label n :: back))
    {pc : Nat} (comes : Comes code pc l) : Guarded base name l (code.drop pc) := by
  induction comes with
  | start => exact start
  | @next pc l l' i _ there on tracked ih =>
    obtain ⟨inside, rfl⟩ := List.getElem?_eq_some_iff.1 there
    rw [drop_eq_getElem_cons inside] at ih
    cases ih with
    | step _ again behind =>
      cases tracked.symm.trans again
      exact behind on
  | @jump pc pc' l i n _ there target found ih =>
    obtain ⟨inside, rfl⟩ := List.getElem?_eq_some_iff.1 there
    obtain ⟨inside', same⟩ := List.getElem?_eq_some_iff.1 found
    rw [drop_eq_getElem_cons inside] at ih
    -- A jump is guarded only at the base and away from the start, where every label waits for it.
    have fits : n ≠ name ∧ l = base := by
      cases ih with
      | step fits =>
        cases kind : code[pc] <;> simp_all [Inst.target?, Inst.Fits]
    rw [drop_eq_getElem_cons inside', same, fits.2]
    refine labels (code.take pc') n _ ?_ fits.1
    rw [← same, getElem_cons_drop, take_append_drop]

end Guarded

section Inside

variable {n : Label} {front inner back : List Inst} {k : Nat}

/-- Into straight code behind a label a path comes only from before. -/
theorem Comes.before_inside (takes : Takes saved floor base inner base) (plain : ∀ n, back.head? ≠ some (.label n))
    (within : k ≤ inner.length) (comes : Comes (front ++ .label n :: (inner ++ back)) (front.length + k + 1) l) :
    ∃ l' i, Comes (front ++ .label n :: (inner ++ back)) (front.length + k) l' ∧
      (Inst.label n :: (inner ++ back))[k]? = some i ∧ i.track l' = some l := by
  have inside : ∀ name, (inner ++ back)[k]? ≠ some (.label name) := by
    intro name there
    rcases Nat.lt_or_eq_of_le within with inside | rfl
    · rw [getElem?_append_left inside] at there
      exact (takes.mild _ (mem_of_getElem? there)).1.no_label name rfl
    · rw [getElem?_append_right (Nat.le_refl _), Nat.sub_self, ← head?_eq_getElem?] at there
      exact plain name there
  cases comes with
  | next earlier there _ tracked =>
    rw [getElem?_append_right (Nat.le_add_right ..), Nat.add_sub_cancel_left] at there
    exact ⟨_, _, earlier, there, tracked⟩
  | jump _ _ _ there =>
    rw [Nat.add_assoc, getElem?_append_right (Nat.le_add_right ..), Nat.add_sub_cancel_left,
      getElem?_cons_succ] at there
    exact absurd there (inside _)

/-- Inside straight code behind a label, the rest of it leads on from every level that comes up. -/
theorem Comes.takes (takes : Takes saved floor base inner base) (plain : ∀ n, back.head? ≠ some (.label n))
    (labels : ∀ l, Comes (front ++ .label n :: (inner ++ back)) front.length l → l = base) (within : k ≤ inner.length)
    (comes : Comes (front ++ .label n :: (inner ++ back)) (front.length + k + 1) l) :
    Takes saved floor l (inner.drop k) base := by
  induction k generalizing l with
  | zero =>
    obtain ⟨l', i, earlier, there, tracked⟩ := comes.before_inside takes plain within
    cases labels l' earlier
    cases there
    cases tracked
    exact takes
  | succ k ih =>
    -- What is tracked is unique, so the level is the one that the straight code has here.
    obtain ⟨l', i, earlier, there, tracked⟩ := comes.before_inside takes plain within
    have later := ih (Nat.le_of_lt within) earlier
    rw [getElem?_cons_succ, getElem?_append_left within] at there
    obtain ⟨_, rfl⟩ := List.getElem?_eq_some_iff.1 there
    rw [drop_eq_getElem_cons within] at later
    cases later with
    | step _ _ again behind =>
      cases tracked.symm.trans again
      exact behind

end Inside

end Quadcode.X86
