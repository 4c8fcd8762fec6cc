import Quadcode.Lowering.Basic
import Quadcode.Proofs.Outcome
import Quadcode.Proofs.X86.Integers

/-!
# Places of variables in the machine

Variables of integer code live in registers that may be allocated and in words of the stack.
Instructions that write to one of these places, or to a register that is none, leave the others as
they are.
-/

namespace Quadcode

open X86 Operand

namespace Location

/-- A place that integer code can use for a variable. -/
def Usable : Location → Prop
  | .reg r => r ∈ allocatable
  | .stack o => o.toInt % slotBytes = 0
  | _ => False

end Location

namespace Lowering

variable {l : Location} {o : Int32} {x : Operand} {r : Reg}

/-- An operand of integer code. -/
inductive Steady : Operand → Prop
  | imm (i : Int32) : Steady (.imm i.toInt64)
  | place {l : Location} : l.Usable → Steady (ofLocation l)

/-- The registers that hold something within the code of one quadruple. -/
def temporaries : List Reg := [.rax, .rdx, .r10, .r11]

theorem not_allocatable : ∀ r ∈ temporaries, r ∉ allocatable := by decide

theorem Steady.reads_temporary (steady : Steady x) (temporary : r ∈ temporaries) : x.reads r = false := by
  cases steady with
  | imm i => rfl
  | @place l usable =>
    cases l with
    | reg q =>
      rw [ofLocation, reads, decide_eq_false_iff_not]
      rintro rfl
      exact not_allocatable q temporary usable
    | stack o =>
      have other : Reg.rbp ≠ r := by
        rintro rfl
        revert temporary
        decide
      simp [ofLocation, stack, reads, other]
    | xmm | global => exact usable.elim

end Lowering

namespace X86.State

variable (s : State)

/-- What an operand holds, where it can be read. -/
def value : Operand → Word
  | .reg r => s.reg r
  | .imm i => i.toBitVec
  | .mem base index offset => s.memory (s.address base index offset)
  | .xmm _ | .global .. => 0

/-- The words of the frame are where words are. -/
def Aligned : Prop := (s.reg .rbp).toNat % slotBytes = 0

/-- Puts a value into a place. -/
def put (l : Location) (w : Word) : State :=
  match l with
  | .reg r => s.setReg r w
  | .stack o => s.setMemory (s.address .rbp none o) w
  | .xmm _ | .global _ => s

end X86.State

namespace Lowering

variable {s t u : State} {k l : Location} {o o' : Int32} {x : Operand} {r : Reg} {w : Word}

@[simp]
theorem reg_setReg (s : State) (r q : Reg) (w : Word) : (s.setReg r w).reg q = if q = r then w else s.reg q := rfl

@[simp]
theorem value_setFlags (s : State) (f : Option X86.Flags) (x : Operand) : (s.setFlags f).value x = s.value x := by
  cases x <;> rfl

/-- A register that an operand is not computed from does not change it. -/
theorem value_setReg (independent : x.reads r = false) : (s.setReg r w).value x = s.value x := by
  cases x with
  | reg q =>
    simp only [reads, decide_eq_false_iff_not] at independent
    simp [State.value, independent]
  | mem base index offset =>
    simp only [reads, Bool.or_eq_false_iff, decide_eq_false_iff_not] at independent
    have same : (s.setReg r w).address base index offset = s.address base index offset := by
      unfold State.address
      cases index with
      | none => simp [independent.1]
      | some i =>
        have other : i ≠ r := fun same => independent.2 (congrArg some same)
        simp [independent.1, other]
    rw [State.value, State.value, same]
    rfl
  | imm | xmm | global => rfl

theorem address_rbp (s : State) (o : Int32) : s.address .rbp none o = s.reg .rbp + extended o := by
  simp [State.address]

/-- The byte address of a word is a multiple of eight. -/
theorem address_aligned (aligned : s.Aligned) (even : o.toInt % slotBytes = 0) :
    (s.address .rbp none o).toNat % slotBytes = 0 := by
  have offset := toInt_extended o
  rw [BitVec.toInt_eq_toNat_cond] at offset
  simp only [State.Aligned, address_rbp, slotBytes, BitVec.toNat_add] at *
  split at offset <;> omega

theorem address_inj (same : s.address .rbp none o = s.address .rbp none o') : o = o' := by
  rw [address_rbp, address_rbp, BitVec.add_right_inj] at same
  exact extended_inj.1 same

theorem read_eq (steady : Steady x) (aligned : s.Aligned) : s.read x = some (s.value x) := by
  cases steady with
  | imm i => simp [State.read, State.value]
  | @place l usable =>
    cases l with
    | reg q => rfl
    | stack o => exact if_pos (address_aligned aligned usable)
    | xmm | global => exact usable.elim

theorem write_eq (usable : l.Usable) (aligned : s.Aligned) : s.write w (ofLocation l) = some (s.put l w) := by
  cases l with
  | reg q => rfl
  | stack o => exact if_pos (address_aligned aligned usable)
  | xmm | global => exact usable.elim

/-- The usable places keep what they hold, all or all but one; and so do the frame and the stack
pointer. -/
structure Keeps (but : Option Location) (s t : State) : Prop where
  others : ∀ k, k.Usable → some k ≠ but → t.value (ofLocation k) = s.value (ofLocation k)
  rbp : t.reg .rbp = s.reg .rbp
  rsp : t.reg .rsp = s.reg .rsp

variable {but : Option Location}

theorem Keeps.refl : Keeps but s s := ⟨fun _ _ _ => rfl, rfl, rfl⟩

theorem Keeps.weaken (keeps : Keeps none s t) : Keeps but s t :=
  { keeps with others := fun k usable _ => keeps.others k usable (by simp) }

theorem Keeps.trans (first : Keeps but s t) (second : Keeps but t u) : Keeps but s u where
  others k usable other := (second.others k usable other).trans (first.others k usable other)
  rbp := second.rbp.trans first.rbp
  rsp := second.rsp.trans first.rsp

theorem Keeps.aligned (keeps : Keeps but s t) (aligned : s.Aligned) : t.Aligned := by
  unfold State.Aligned
  rwa [keeps.rbp]

theorem keeps_setReg (temporary : r ∈ temporaries) : Keeps none s (s.setReg r w) where
  others _ usable _ := value_setReg ((Steady.place usable).reads_temporary temporary)
  rbp := by
    rw [reg_setReg, if_neg]
    rintro rfl
    revert temporary
    decide
  rsp := by
    rw [reg_setReg, if_neg]
    rintro rfl
    revert temporary
    decide

theorem keeps_setFlags (s : State) (f : Option X86.Flags) : Keeps none s (s.setFlags f) where
  others _ _ _ := value_setFlags s f _
  rbp := rfl
  rsp := rfl

variable (usable : l.Usable)
include usable

theorem put_rbp : (s.put l w).reg .rbp = s.reg .rbp := by
  cases l with
  | reg q =>
    refine if_neg ?_
    rintro rfl
    exact (by decide : Reg.rbp ∉ allocatable) usable
  | stack | xmm | global => rfl

theorem put_rsp : (s.put l w).reg .rsp = s.reg .rsp := by
  cases l with
  | reg q =>
    refine if_neg ?_
    rintro rfl
    exact (by decide : Reg.rsp ∉ allocatable) usable
  | stack | xmm | global => rfl

theorem value_put : (s.put l w).value (ofLocation l) = w := by
  cases l with
  | reg q => simp [State.put, State.value, ofLocation]
  | stack o => exact if_pos rfl
  | xmm | global => exact usable.elim

theorem value_put_of_ne (usable' : k.Usable) (other : k ≠ l) :
    (s.put l w).value (ofLocation k) = s.value (ofLocation k) := by
  cases l with
  | reg r =>
    cases k with
    | reg q => exact if_neg fun same => other (congrArg Location.reg same)
    | stack o =>
      have same : (s.setReg r w).reg .rbp = s.reg .rbp := put_rbp usable
      simp only [State.put, ofLocation, stack, State.value, State.address, same]
      rfl
    | xmm | global => exact usable'.elim
  | stack o =>
    cases k with
    | reg q => rfl
    | stack o' => exact if_neg fun same => other (congrArg Location.stack (address_inj same))
    | xmm | global => exact usable'.elim
  | xmm | global => exact usable.elim

theorem keeps_put : Keeps (some l) s (s.put l w) where
  others _ usable' other := value_put_of_ne usable usable' fun same => other (congrArg some same)
  rbp := put_rbp usable
  rsp := put_rsp usable

end Lowering

end Quadcode
