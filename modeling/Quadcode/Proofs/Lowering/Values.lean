import Quadcode.Lowering.Arithmetic
import Quadcode.Proofs.Lowering.Operands

/-!
# Code that computes

What the code of each operation does to a machine whose operands hold integers: it brings the result
to its place and changes nothing else but temporaries.
-/

namespace Quadcode.Lowering

open X86

variable {s t : State} {l : Location} {x y : Operand} {r : Reg} {w : Word} {a b : Int32}

/-- The code brings a word to a place and leaves the others alone. -/
def Brings (code : List Inst) (s : State) (l : Location) (w : Word) : Prop :=
  ∃ t, perform s code = some t ∧ Keeps (some l) s t ∧ t.value (ofLocation l) = w

theorem Brings.after {first rest : List Inst} (done : perform s first = some t) (keeps : Keeps (some l) s t)
    (brings : Brings rest t l w) : Brings (first ++ rest) s l w := by
  obtain ⟨u, performed, kept, value⟩ := brings
  refine ⟨u, ?_, keeps.trans kept, value⟩
  rw [perform_append, done]
  exact performed

section Moves

theorem perform_mov_reg (steady : Steady x) (aligned : s.Aligned) :
    perform s (mov (.reg r) x) = some (s.setReg r (s.value x)) := by
  simp [mov, Operand.isMemory, Inst.perform, read_eq steady aligned, State.write]

theorem brings_mov_of_reg (usable : l.Usable) (aligned : s.Aligned) :
    Brings (mov (ofLocation l) (.reg r)) s l (s.reg r) := by
  refine ⟨s.put l (s.reg r), ?_, keeps_put usable, value_put usable⟩
  have single : mov (ofLocation l) (.reg r) = [.mov (ofLocation l) (.reg r)] := by
    simp [mov, Operand.isMemory]
  simp [single, Inst.perform, Operand.isMemory, State.read, write_eq usable aligned]

theorem brings_mov (usable : l.Usable) (steady : Steady x) (aligned : s.Aligned) :
    Brings (mov (ofLocation l) x) s l (s.value x) := by
  by_cases both : ((ofLocation l).isMemory && x.isMemory) = true
  · -- A move between words goes through the scratch register.
    have split : mov (ofLocation l) x = mov (.reg scratch) x ++ mov (ofLocation l) (.reg scratch) := by
      rw [mov, if_pos both]
      simp [mov, Operand.isMemory.eq_def (.reg scratch)]
    rw [split]
    have keeps : Keeps none s (s.setReg scratch (s.value x)) := keeps_setReg (by decide)
    refine .after (perform_mov_reg steady aligned) keeps.weaken ?_
    have brings := brings_mov_of_reg (r := scratch) usable (keeps.aligned aligned)
    rwa [reg_setReg, if_pos rfl] at brings
  · refine ⟨s.put l (s.value x), ?_, keeps_put usable, value_put usable⟩
    have single : mov (ofLocation l) x = [.mov (ofLocation l) x] := by
      rw [mov, if_neg both]
    simp [single, Inst.perform, both, read_eq steady aligned, write_eq usable aligned]

end Moves

section Work

/-- A register that a result for a place can be computed in. -/
def Works (l : Location) (r : Reg) : Prop := r ∈ temporaries ∨ l = .reg r

theorem works_workReg (l : Location) (early : Reg → Bool) : Works l (workReg (ofLocation l) early) := by
  cases l with
  | reg r =>
    rw [ofLocation, workReg]
    split
    · exact .inr rfl
    · exact .inl (by decide)
  | xmm | stack | global => exact .inl (by decide : scratch ∈ temporaries)

theorem keeps_work (usable : l.Usable) (works : Works l r) : Keeps (some l) s (s.setReg r w) := by
  rcases works with temporary | rfl
  · exact (keeps_setReg temporary).weaken
  · exact keeps_put usable

theorem brings_deliver (usable : l.Usable) (aligned : s.Aligned) : Brings (deliver (ofLocation l) r) s l (s.reg r) := by
  unfold deliver
  split
  next same => exact ⟨s, rfl, .refl, by rw [same]; rfl⟩
  · exact brings_mov_of_reg usable aligned

/-- The early use of the destination does not spoil an operand that is read late. -/
theorem reads_workReg (steady : Steady y) : y.reads (workReg (ofLocation l) fun r => !y.reads r) = false := by
  have spare : y.reads scratch = false := steady.reads_temporary (by decide)
  cases l with
  | reg r =>
    rw [ofLocation, workReg]
    split
    next early => simpa using early
    · exact spare
  | xmm | stack | global => exact spare

end Work

/-- What an instruction makes of an operand in a register is narrowed and delivered. -/
theorem brings_narrowed {i : Inst} (usable : l.Usable) (works : Works l r) (steady : Steady x) (aligned : s.Aligned)
    (done : ∃ f, i.perform (s.setReg r (s.value x)) = some (((s.setReg r (s.value x)).setFlags f).setReg r w)) :
    Brings (mov (.reg r) x ++ [i, .movsxd r] ++ deliver (ofLocation l) r) s l (narrowed w) := by
  obtain ⟨f, done⟩ := done
  have keeps : Keeps (some l) s (s.setReg r (s.value x)) := keeps_work usable works
  let t := (((s.setReg r (s.value x)).setFlags f).setReg r w).setReg r (narrowed w)
  have computed : perform (s.setReg r (s.value x)) [i, .movsxd r] = some t := by
    rw [perform_cons, done]
    simp [Inst.perform, t]
  have kept : Keeps (some l) (s.setReg r (s.value x)) t :=
    ((keeps_setFlags _ _).weaken.trans (keeps_work usable works)).trans (keeps_work usable works)
  rw [List.append_assoc]
  refine .after (perform_mov_reg steady aligned) keeps (.after computed kept ?_)
  have brings := brings_deliver (r := r) usable (kept.aligned (keeps.aligned aligned))
  rwa [reg_setReg, if_pos rfl] at brings

/-- Arithmetic in a register that wraps around at 32 bits. -/
theorem brings_wrapping (op : IntOp) (usable : l.Usable) (steady : Steady x) (steady' : Steady y) (aligned : s.Aligned)
    (r : Reg) (same : r = workReg (ofLocation l) fun r => !y.reads r) :
    Brings (mov (.reg r) x ++ [.int op (.reg r) y, .movsxd r] ++ deliver (ofLocation l) r) s l
      (narrowed (op.apply (s.value x) (s.value y)).1) := by
  have works : Works l r := same ▸ works_workReg l _
  have independent : y.reads r = false := by
    rw [same]
    exact reads_workReg steady'
  have aligned' := (keeps_work (w := s.value x) usable works).aligned aligned
  refine brings_narrowed usable works steady aligned ⟨(op.apply (s.value x) (s.value y)).2, ?_⟩
  simp [Inst.perform, Operand.isMemory, State.read.eq_1, read_eq steady' aligned', value_setReg independent, State.write]

section Division

/-- A divisor that is a constant is fetched into the scratch register. -/
theorem unImmediate_spec (steady : Steady y) (aligned : s.Aligned) :
    ∃ t, perform s (unImmediate y).1 = some t ∧ Keeps none s t ∧
      t.read (unImmediate y).2 = some (s.value y) ∧ ∀ q, q ≠ scratch → t.reg q = s.reg q := by
  cases steady with
  | imm i =>
    refine ⟨s.setReg scratch (s.value (.imm i.toInt64)), perform_mov_reg (.imm i) aligned,
      keeps_setReg (by decide), ?_, fun q other => if_neg other⟩
    simp [unImmediate, State.read]
  | @place l usable =>
    have same : unImmediate (ofLocation l) = ([], ofLocation l) := by cases l <;> rfl
    rw [same]
    exact ⟨s, rfl, .refl, read_eq (.place usable) aligned, fun _ _ => rfl⟩

/-- The quotient or the remainder, where there is one. -/
theorem brings_division (remainder : Bool) (usable : l.Usable) (steady : Steady x) (steady' : Steady y)
    (aligned : s.Aligned) (dividend : s.value x = extended a) (divisor : s.value y = extended b) (nonzero : b ≠ 0)
    (r : Reg) (which : r = if remainder then Reg.rdx else result) :
    Brings (mov (.reg result) x ++ [.cqo] ++ (unImmediate y).1 ++
        [.idiv (unImmediate y).2, .movsxd r] ++ mov (ofLocation l) (.reg r)) s l
      (extended (if remainder then a % b else a / b)) := by
  have moved := perform_mov_reg (r := .rax) steady aligned
  rw [dividend] at moved
  let s₁ := s.setReg .rax (extended a)
  let s₂ := s₁.setReg .rdx (if (extended a).msb then -1 else 0)
  have keeps₁ : Keeps none s s₁ := keeps_setReg (by decide)
  have keeps₂ : Keeps none s₁ s₂ := keeps_setReg (by decide)
  have aligned₂ := keeps₂.aligned (keeps₁.aligned aligned)
  have divisor₂ : s₂.value y = extended b := by
    rw [value_setReg (steady'.reads_temporary (by decide)), value_setReg (steady'.reads_temporary (by decide)), divisor]
  obtain ⟨s₃, fetched, keeps₃, read, same⟩ := unImmediate_spec steady' aligned₂
  let s₄ := ((s₃.setReg .rax (.ofInt 64 (a.toInt.tdiv b.toInt))).setReg .rdx
    (.ofInt 64 (a.toInt.tmod b.toInt))).setFlags none
  have divided : s₃.divide (extended b) = some s₄ :=
    divide_extended nonzero (same .rax (by decide)) (same .rdx (by decide))
  have keeps₄ : Keeps none s₃ s₄ :=
    ((keeps_setReg (by decide)).trans (keeps_setReg (by decide))).trans (keeps_setFlags _ _)
  have temporary : r ∈ temporaries := by
    subst which
    cases remainder <;> decide
  have narrow : narrowed (s₄.reg r) = extended (if remainder then a % b else a / b) := by
    subst which
    cases remainder
    · exact narrowed_quotient
    · exact narrowed_remainder
  let s₅ := s₄.setReg r (extended (if remainder then a % b else a / b))
  have keeps₅ : Keeps none s₄ s₅ := keeps_setReg temporary
  have finished : perform s₃ [.idiv (unImmediate y).2, .movsxd r] = some s₅ := by
    simp [Inst.perform, read, divisor₂, divided, narrow, s₅]
  have aligned₅ := ((keeps₃.trans keeps₄).trans keeps₅).aligned aligned₂
  simp only [List.append_assoc]
  refine .after moved keeps₁.weaken (.after (t := s₂) rfl keeps₂.weaken
    (.after fetched keeps₃.weaken (.after finished (keeps₄.trans keeps₅).weaken ?_)))
  have brings := brings_mov_of_reg (r := r) usable aligned₅
  rwa [reg_setReg, if_pos rfl] at brings

end Division

section Comparison

/-- Comparing sets the flags, in the course of which only the scratch register changes. -/
theorem perform_compare (steady : Steady x) (steady' : Steady y) (aligned : s.Aligned) :
    perform s (mov (.reg scratch) x ++ [.cmp (.reg scratch) y]) =
      some ((s.setReg scratch (s.value x)).setFlags (some (.ofSub (s.value x) (s.value y)))) := by
  have keeps : Keeps none s (s.setReg scratch (s.value x)) := keeps_setReg (by decide)
  have late : (s.setReg scratch (s.value x)).value y = s.value y := value_setReg (steady'.reads_temporary (by decide))
  rw [perform_append, perform_mov_reg steady aligned]
  simp [Inst.perform, Operand.isMemory, State.read.eq_1, read_eq steady' (keeps.aligned aligned), late]

/-- A comparison leaves its outcome as 1 or 0. -/
theorem brings_set (c : Cond) (f : X86.Flags) (usable : l.Usable) (aligned : s.Aligned) (set : s.flags = some f) :
    Brings ([.set c scratch] ++ mov (ofLocation l) (.reg scratch)) s l (if c.holds f then 1 else 0) := by
  have keeps : Keeps none s (s.setReg scratch (if c.holds f then 1 else 0)) := keeps_setReg (by decide)
  refine .after (t := s.setReg scratch (if c.holds f then 1 else 0)) ?_ keeps.weaken ?_
  · simp [Inst.perform, set]
  · have brings := brings_mov_of_reg (r := scratch) usable (keeps.aligned aligned)
    rwa [reg_setReg, if_pos rfl] at brings

theorem brings_compare (c : Cond) (usable : l.Usable) (steady : Steady x) (steady' : Steady y) (aligned : s.Aligned) :
    Brings (mov (.reg scratch) x ++ [.cmp (.reg scratch) y] ++ [.set c scratch] ++
        mov (ofLocation l) (.reg scratch)) s l
      (if c.holds (.ofSub (s.value x) (s.value y)) then 1 else 0) := by
  have keeps : Keeps none s ((s.setReg scratch (s.value x)).setFlags (some (.ofSub (s.value x) (s.value y)))) :=
    (keeps_setReg (by decide)).trans (keeps_setFlags _ _)
  rw [List.append_assoc]
  exact .after (perform_compare steady steady' aligned) keeps.weaken (brings_set c _ usable (keeps.aligned aligned) rfl)

end Comparison

end Quadcode.Lowering
