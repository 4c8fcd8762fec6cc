import Quadcode.Proofs.X86.Refinement

/-!
# What short pieces of code do

Moving a word on instead of loading it again, moving it back, overwriting it, sending it through the
stack, adding nothing to it: pieces of code that do less than they seem to.
-/

namespace Quadcode.X86

open X86.Core Memory Platform Operand

variable {P : Platform} {bank : Bank} {o x d : Operand} {s t : Core} {w a v : Word}

/-! ## Reading and writing -/

section Operands

variable {r : Reg} {z : Xmm}

theorem Core.reg_setReg (s : Core) (r : Reg) (w : Word) : (s.setReg r w).reg r = w := if_pos rfl

theorem Core.reg_setReg_of_ne {q : Reg} (other : q ≠ r) (s : Core) (w : Word) :
    (s.setReg r w).reg q = s.reg q := if_neg other

theorem Core.setReg_self (s : Core) (r : Reg) : s.setReg r (s.reg r) = s := by
  simp only [setReg]
  congr 2
  funext q
  split
  next same => rw [same]
  · rfl

theorem Core.setXmm_self (s : Core) (z : Xmm) : s.setXmm z (s.xmm z) = s := by
  simp only [setXmm]
  congr 2
  funext q
  split
  next same => rw [same]
  · rfl

theorem Core.setReg_setReg (s : Core) (r : Reg) (w v : Word) : (s.setReg r w).setReg r v = s.setReg r v := by
  simp only [setReg]
  congr 2
  funext q
  split <;> rfl

theorem Core.setXmm_setXmm (s : Core) (z : Xmm) (w v : Word) : (s.setXmm z w).setXmm z v = s.setXmm z v := by
  simp only [setXmm]
  congr 2
  funext q
  split <;> rfl

theorem Core.load_eq_ok : s.load a = .ok w ↔ s.memory.load a = some w := by
  unfold load
  cases s.memory.load a <;> simp

theorem Core.load_cases (s : Core) (a : Word) : s.load a = .error .undefined ∨ ∃ w, s.load a = .ok w := by
  unfold load
  cases s.memory.load a <;> simp

theorem address_of_memory (memory : o.isMemory) : ∃ a, P.address s o = .ok a := by
  cases o <;> first | exact ⟨_, rfl⟩ | cases memory

theorem read_of_memory (memory : o.isMemory) (addressed : P.address s o = .ok a) : P.read s bank o = s.load a := by
  cases o with
  | reg | xmm | imm => cases memory
  | mem | global =>
    cases addressed
    rfl

theorem write_of_memory (memory : o.isMemory) (addressed : P.address s o = .ok a) :
    P.write s bank w o = .ok (P.store s a w) := by
  cases o with
  | reg | xmm | imm => cases memory
  | mem | global =>
    cases addressed
    rfl

/-- Reading fails only where something is undefined. -/
theorem read_cases (P : Platform) (s : Core) (bank : Bank) (o : Operand) :
    P.read s bank o = .error .undefined ∨ ∃ w, P.read s bank o = .ok w := by
  cases memory : o.isMemory with
  | true =>
    obtain ⟨a, addressed⟩ := address_of_memory (P := P) (s := s) memory
    rw [read_of_memory memory addressed]
    exact s.load_cases a
  | false =>
    cases o with
    | mem | global => cases memory
    | reg | xmm | imm =>
      simp only [Platform.read]
      split <;> simp

/-- Writing what is there changes nothing. -/
theorem write_same (read : P.read s bank o = .ok w) : Covers (Core.Alike true) (P.write s bank w o) (.ok s) := by
  cases memory : o.isMemory with
  | true =>
    obtain ⟨a, addressed⟩ := address_of_memory (P := P) (s := s) memory
    rw [read_of_memory memory addressed, load_eq_ok] at read
    rw [write_of_memory memory addressed, Platform.store, store_eq_self read]
    exact .ok (P.trim_alike true s)
  | false =>
    cases o with
    | mem | global => cases memory
    | imm i => exact .undefined _
    | reg r =>
      simp only [Platform.read, Platform.write] at read ⊢
      split at read
      next here =>
        cases read
        rw [if_pos here, setReg_self]
        exact .ok (P.trim_alike true s)
      · cases read
    | xmm z =>
      simp only [Platform.read, Platform.write] at read ⊢
      split at read
      next here =>
        cases read
        rw [if_pos here, setXmm_self]
        exact .ok (.refl true s)
      · cases read

/-- A word that can be loaded where one was stored is that one. -/
theorem load_store (loaded : (P.store s a w).load a = .ok v) : v = w := by
  have less := (P.trim_alike true (s.setMemory (s.memory.store a w))).contents
  have kept := load_mono less.memory (load_eq_ok.1 loaded)
  exact Option.some.inj (kept.symm.trans Memory.load_store)

/-- What is read back is what was written, unless it is lost. -/
theorem read_write (written : P.write s bank w o = .ok t) (read : P.read t bank o = .ok v) : v = w := by
  cases memory : o.isMemory with
  | true =>
    obtain ⟨a, addressed⟩ := address_of_memory (P := P) (s := s) memory
    rw [write_of_memory memory addressed] at written
    cases written
    have there : P.address (P.store s a w) o = .ok a := by
      rw [← addressed]
      cases o <;> rfl
    rw [read_of_memory memory there] at read
    exact load_store read
  | false =>
    cases o with
    | mem | global => cases memory
    | imm i => cases written
    | reg r =>
      simp only [Platform.read, Platform.write] at read written
      split at read
      next here =>
        rw [if_pos here] at written
        cases written
        cases read
        simp [Platform.trim, Core.setMemory, Core.setReg]
      · cases read
    | xmm z =>
      simp only [Platform.read, Platform.write] at read written
      split at read
      next here =>
        rw [if_pos here] at written
        cases written
        cases read
        simp [setXmm]
      · cases read

end Operands

/-! ## Moves -/

/-- The registers of a bank. -/
def Bank.file : Bank → Operand → Bool
  | .int => isReg
  | .float => isXmm

def Bank.mov : Bank → Operand → Operand → Inst
  | .int => .mov
  | .float => .movsd

theorem Bank.file_cases (file : bank.file o) : (bank = .int ∧ ∃ r, o = .reg r) ∨ (bank = .float ∧ ∃ z, o = .xmm z) := by
  cases bank <;> cases o <;> simp_all [Bank.file, isReg, isXmm]

theorem Bank.not_memory (file : bank.file o) : o.isMemory = false := by
  obtain ⟨-, r, rfl⟩ | ⟨-, z, rfl⟩ := Bank.file_cases file <;> rfl

section Moves

variable {y : Operand}

theorem move_of_file (file : bank.file d ∨ bank.file x) :
    P.move s bank d x = (P.read s bank x >>= fun w => P.write s bank w d) := by
  unfold move
  rcases file with file | file <;> simp [Bank.not_memory file]

theorem move_eq_ok (moved : P.move s bank d x = .ok t) :
    (d.isMemory && x.isMemory) = false ∧ ∃ w, P.read s bank x = .ok w ∧ P.write s bank w d = .ok t := by
  unfold move at moved
  split at moved
  · cases moved
  next encoded => exact ⟨by simpa using encoded, bind_eq_ok.1 moved⟩

/-- Storing changes no register. -/
theorem read_file_store (file : bank.file x) (memory : d.isMemory) (written : P.write s bank w d = .ok t) :
    P.read t bank x = P.read s bank x := by
  obtain ⟨a, addressed⟩ := address_of_memory (P := P) (s := s) memory
  rw [write_of_memory memory addressed] at written
  cases written
  obtain ⟨rfl, r, rfl⟩ | ⟨rfl, z, rfl⟩ := Bank.file_cases file <;> rfl

theorem move_self : Covers (Core.Alike true) (P.move s bank d d) (.ok s) := by
  unfold move
  split
  · exact .undefined _
  · rcases read_cases P s bank d with failed | ⟨w, read⟩
    · rw [failed]
      exact .undefined _
    · rw [read]
      exact write_same read

/-- After a store the register that was stored stands for the word. -/
theorem move_reload (memory : d.isMemory) (file : bank.file x) (file' : bank.file y)
    (moved : P.move s bank d x = .ok t) : Covers (Core.Alike true) (P.move t bank y d) (P.move t bank y x) := by
  obtain ⟨-, w, read, written⟩ := move_eq_ok moved
  rw [move_of_file (.inl file'), move_of_file (.inl file'), read_file_store file memory written, read]
  rcases read_cases P t bank d with failed | ⟨v, reread⟩
  · rw [failed]
    exact .undefined _
  · rw [reread, read_write written reread]
    exact .of_eq (.refl true) _

/-- A register keeps what it is reloaded with. -/
theorem move_reload_self (memory : d.isMemory) (file : bank.file x) (moved : P.move s bank d x = .ok t) :
    Covers (Core.Alike true) (P.move t bank x d) (.ok t) := by
  refine (move_reload memory file file moved).trans move_self fun _ _ _ first second => ?_
  exact first.trans second

section

variable (file : bank.file d)
include file

/-- What writing a register leaves of memory. -/
theorem memory_of_write (written : P.write s bank w d = .ok t) :
    t.memory = s.memory ∨ ∃ c : Core, c.memory = s.memory ∧ t = P.trim c := by
  obtain ⟨rfl, r, rfl⟩ | ⟨rfl, z, rfl⟩ := Bank.file_cases file <;> cases written
  · exact .inr ⟨s.setReg r w, rfl, rfl⟩
  · exact .inl rfl

theorem address_independent (independent : x.independent d) (written : P.write s bank w d = .ok t) :
    P.address t x = P.address s x := by
  obtain ⟨rfl, r, rfl⟩ | ⟨rfl, z, rfl⟩ := Bank.file_cases file <;> cases written
  · cases x with
    | mem base index offset =>
      simp only [Operand.independent, Operand.reads, Bool.not_or, Bool.and_eq_true, Bool.not_eq_true',
        decide_eq_false_iff_not] at independent
      cases index with
      | none => simp [Platform.address, Platform.trim, Core.setMemory, Core.setReg, independent.1]
      | some i =>
        have other : i ≠ r := fun same => independent.2 (by rw [same])
        simp [Platform.address, Platform.trim, Core.setMemory, Core.setReg, independent.1, other]
    | _ => rfl
  · cases x <;> rfl

/-- Reading what does not depend on the register just written. -/
theorem read_independent (independent : x.independent d) (written : P.write s bank w d = .ok t) :
    Covers Eq (P.read t bank x) (P.read s bank x) := by
  cases memory : x.isMemory with
  | true =>
    obtain ⟨a, addressed⟩ := address_of_memory (P := P) (s := s) memory
    rw [read_of_memory memory addressed,
      read_of_memory memory ((address_independent file independent written).trans addressed)]
    unfold Core.load
    rcases memory_of_write file written with same | ⟨c, same, rfl⟩
    · rw [same]
      exact .of_eq (fun _ => rfl) _
    · have less : (P.trim c).Alike true c := P.trim_alike true c
      have loads := less.load a
      simp only [Core.load, same] at loads
      exact loads
  | false =>
    obtain ⟨rfl, r, rfl⟩ | ⟨rfl, z, rfl⟩ := Bank.file_cases file <;> cases written
    · cases x with
      | reg q =>
        have other : q ≠ r := by simpa [Operand.independent, Operand.reads] using independent
        simp only [Platform.read, Platform.trim, Core.setMemory, Core.setReg, if_neg other]
        exact .of_eq (fun _ => rfl) _
      | xmm | imm => exact .of_eq (fun _ => rfl) _
      | mem | global => cases memory
    · cases x with
      | xmm y =>
        have other : y ≠ z := by simpa [Operand.independent, Operand.readsXmm] using independent
        simp only [Platform.read, Core.setXmm, if_neg other]
        exact .of_eq (fun _ => rfl) _
      | reg | imm => exact .of_eq (fun _ => rfl) _
      | mem | global => cases memory

/-- A register that is written twice keeps the second value. -/
theorem write_write (written : P.write s bank w d = .ok t) :
    Covers (Core.Alike true) (P.write t bank v d) (P.write s bank v d) := by
  obtain ⟨rfl, r, rfl⟩ | ⟨rfl, z, rfl⟩ := Bank.file_cases file <;> cases written
  · have alike := (P.trim_alike true (s.setReg r w)).setReg r v
    rw [setReg_setReg] at alike
    exact .ok (alike.trim P)
  · simp only [write, setXmm_setXmm]
    exact .of_eq (.refl true) _

/-- A value that is overwritten at once need not be moved. -/
theorem move_overwritten (independent : y.independent d) (moved : P.move s bank d x = .ok t) :
    Covers (Core.Alike true) (P.move t bank d y) (P.move s bank d y) := by
  obtain ⟨-, w, -, written⟩ := move_eq_ok moved
  rw [move_of_file (.inl file), move_of_file (.inl file)]
  refine (read_independent file independent written).bind fun v _ same => same ▸ ?_
  exact write_write file written

end

/-- Storing a word back that was not changed, except that it may be lost. -/
theorem store_trim (loaded : s.memory.load a = some w) : (P.store (P.trim s) a w).Alike true (P.trim s) := by
  have alike := (P.trim_alike true s).store P a w
  have same : P.store s a w = P.trim s := by
    rw [Platform.store, store_eq_self loaded]
    rfl
  rwa [same] at alike

/-- A register that was loaded with a word may as well not be stored there. -/
theorem write_back (file : bank.file d) (independent : x.independent d) (memory : x.isMemory)
    (read : P.read s bank x = .ok w) (written : P.write s bank w d = .ok t) :
    Covers (Core.Alike true) (P.write t bank w x) (.ok t) := by
  obtain ⟨a, addressed⟩ := address_of_memory (P := P) (s := s) memory
  rw [read_of_memory memory addressed, load_eq_ok] at read
  rw [write_of_memory memory ((address_independent file independent written).trans addressed)]
  rcases memory_of_write file written with same | ⟨c, same, rfl⟩
  · rw [Platform.store, store_eq_self (same ▸ read)]
    exact .ok (P.trim_alike true t)
  · exact .ok (store_trim (same ▸ read))

theorem file_of_write (register : d.isMemory = false) (written : P.write s bank w d = .ok t) : bank.file d := by
  cases d with
  | mem | global => cases register
  | imm i => cases written
  | reg | xmm => cases bank <;> first | rfl | cases written

theorem not_write_of_not_file (register : d.isMemory = false) (file : bank.file d = false) :
    P.write s bank w d = .error .undefined := by
  cases d with
  | mem | global => cases register
  | imm i => rfl
  | reg | xmm => cases bank <;> first | rfl | cases file

/-- A value need not be moved back to where it came from. -/
theorem move_back (independent : x.independent d) (moved : P.move s bank d x = .ok t) :
    Covers (Core.Alike true) (P.move t bank x d) (.ok t) := by
  obtain ⟨encoded, w, read, written⟩ := move_eq_ok moved
  unfold move
  rw [Bool.and_comm, encoded, if_neg Bool.false_ne_true]
  rcases read_cases P t bank d with failed | ⟨v, reread⟩
  · rw [failed]
    exact .undefined _
  rw [reread, read_write written reread]
  change Covers _ (P.write t bank w x) _
  cases register : x.isMemory with
  | true =>
    rw [register, Bool.and_true] at encoded
    exact write_back (file_of_write encoded written) independent register read written
  | false =>
    cases file : bank.file x with
    | false =>
      rw [not_write_of_not_file register file]
      exact .undefined _
    | true =>
      refine write_same ?_
      cases memory : d.isMemory with
      | true => rw [read_file_store file memory written, read]
      | false =>
        have same := read_independent (file_of_write memory written) independent written
        rw [read] at same
        rcases read_cases P t bank x with failed | ⟨v, kept⟩
        · obtain ⟨rfl, r, rfl⟩ | ⟨rfl, z, rfl⟩ := Bank.file_cases file <;> cases failed
        · rw [kept] at same ⊢
          cases same with
          | ok equal => rw [equal]

end Moves

/-! ## Words that go through the stack -/

section Stack

variable {d : Reg}

theorem trim_memory {b : Word} {c : Byte} :
    (P.trim s).memory b = some c ↔ ¬ (P.onStack b ∧ b < s.reg .rsp) ∧ s.memory b = some c := by
  simp [trim, setMemory]

/-- What was pushed and popped again leaves no trace on the stack. -/
theorem pushed_popped (other : d ≠ .rsp) (room : P.hasRoom s) :
    (P.trim (((P.store (s.setReg .rsp (s.reg .rsp - 8)) (s.reg .rsp - 8) w).setReg .rsp
      (s.reg .rsp - 8 + 8)).setReg d w)).Alike true (P.trim (s.setReg d w)) where
  contents := by
    have back : s.reg .rsp - 8 + 8 = s.reg .rsp := BitVec.sub_add_cancel ..
    refine ⟨?_, rfl, fun b c found => ?_⟩
    · funext q
      simp only [Platform.trim, Platform.store, Core.setMemory, Core.setReg, back]
      grind
    · rw [trim_memory, reg_setReg_of_ne other.symm] at found ⊢
      obtain ⟨kept, found⟩ := found
      rw [reg_setReg, back] at kept
      refine ⟨kept, ?_⟩
      -- The word that was pushed lies right below the stack pointer, where nothing is kept.
      have outside : ¬ (b - (s.reg .rsp - 8)).toNat < 8 := by
        intro inside
        obtain ⟨low, high⟩ := room
        refine kept ?_
        simp only [onStack, Bool.and_eq_true, decide_eq_true_eq, slotBytes] at low ⊢
        bv_omega
      have stored := (trim_memory.1 found).2
      exact (if_neg outside).symm.trans stored
  flags _ := rfl

/-- A word that is popped into a register need not go through the stack. -/
theorem push_pop (other : d ≠ .rsp) (read : P.read s .int x = .ok w) (pushed : P.act s (.push x) = .ok t) :
    Covers (Core.Alike true) (P.act t (.pop (.reg d))) (P.write s .int w (.reg d)) := by
  obtain ⟨v, same, pushed⟩ := bind_eq_ok.1 pushed
  cases read.symm.trans same
  split at pushed
  next room =>
    cases pushed
    have top : (P.store (s.setReg .rsp (s.reg .rsp - 8)) (s.reg .rsp - 8) w).reg .rsp =
        s.reg .rsp - 8 := s.reg_setReg .rsp _
    simp only [act, top]
    rcases load_cases (P.store (s.setReg .rsp (s.reg .rsp - 8)) (s.reg .rsp - 8) w)
      (s.reg .rsp - 8) with lost | ⟨v, loaded⟩
    · rw [lost]
      exact .undefined _
    · rw [loaded, load_store loaded]
      exact .ok (pushed_popped other room)
  · cases pushed

end Stack

/-! ## Operations that change nothing -/

theorem read_setFlags {f : Option Flags} : P.read (s.setFlags f) bank o = P.read s bank o := by
  cases o <;> rfl

/-- An operation with a neutral operand changes only the flags. -/
theorem int_neutral {op : IntOp} {i : Int64} (neutral : ∀ w, (op.apply w i.toBitVec).1 = w) :
    Covers (Core.Alike false) (P.act s (.int op d (.imm i))) (.ok s) := by
  simp only [act]
  split
  · exact .undefined _
  rcases read_cases P s .int d with failed | ⟨w, read⟩
  · rw [failed]
    exact .undefined _
  rw [read]
  change Covers _ (P.write (s.setFlags (op.apply w i.toBitVec).2) .int (op.apply w i.toBitVec).1 d) _
  rw [neutral]
  have written := write_same (read_setFlags (f := (op.apply w i.toBitVec).2).trans read)
  refine written.trans (.ok (?_ : Core.Alike false _ s)) fun _ _ _ first second => first.trans second
  refine ⟨.refl _, fun kept => ?_⟩
  cases kept

end Quadcode.X86
