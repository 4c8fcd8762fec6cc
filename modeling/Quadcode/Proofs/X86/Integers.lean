import Quadcode.Proofs.X86.Semantics

/-!
# 32-bit integers in 64-bit registers

An integer stands in a register with its sign extended. Arithmetic on the whole registers, narrowed
afterwards, is arithmetic that wraps around at 32 bits; comparing the registers compares the
integers; and a quotient always fits, since the operands are so much shorter than the registers.
-/

namespace Quadcode.X86

open Flags

variable {a b i : Int32} {w : Word}

@[simp]
theorem toInt_extended (i : Int32) : (extended i).toInt = i.toInt := BitVec.toInt_signExtend_of_le (by decide)

theorem extended_inj : extended a = extended b ↔ a = b := by
  rw [← BitVec.toInt_inj, toInt_extended, toInt_extended, Int32.toInt_inj]

theorem toInt_narrowed (w : Word) : (narrowed w).toInt = w.toInt.bmod (2 ^ 32) := by
  rw [narrowed, BitVec.toInt_signExtend_of_le (by decide), BitVec.toInt_setWidth,
    BitVec.toInt_eq_toNat_bmod, Int.bmod_bmod_of_dvd (by decide)]

/-- A result is narrowed to the integer that it is congruent to. -/
theorem narrowed_eq {n : Int} (same : w.toInt = n.bmod (2 ^ 64)) (wraps : i.toInt = n.bmod (2 ^ 32)) :
    narrowed w = extended i := by
  rw [← BitVec.toInt_inj, toInt_narrowed, toInt_extended, same, wraps]
  exact Int.bmod_bmod_of_dvd (by decide)

theorem narrowed_add : narrowed (extended a + extended b) = extended (a + b) :=
  narrowed_eq (by rw [BitVec.toInt_add, toInt_extended, toInt_extended]) (Int32.toInt_add a b)

theorem narrowed_sub : narrowed (extended a - extended b) = extended (a - b) :=
  narrowed_eq (by rw [BitVec.toInt_sub, toInt_extended, toInt_extended]) (Int32.toInt_sub a b)

theorem narrowed_mul : narrowed (extended a * extended b) = extended (a * b) :=
  narrowed_eq (by rw [BitVec.toInt_mul, toInt_extended, toInt_extended]) (Int32.toInt_mul a b)

theorem narrowed_neg : narrowed (-extended a) = extended (-a) :=
  narrowed_eq (by rw [BitVec.toInt_neg, toInt_extended]) (Int32.toInt_neg a)

section Division

/-- An integer is as long as its two halves say after its sign was extended. -/
theorem dividend_eq (w : Word) : (if w.msb then -1 else 0 : Word).toInt * 2 ^ 64 + w.toNat = w.toInt := by
  rw [BitVec.toInt_eq_msb_cond w]
  cases w.msb
  · simp
  · have minus : (-1 : Word).toInt = -1 := by decide
    simp only [if_true, minus]
    omega

theorem natAbs_toInt_le (i : Int32) : i.toInt.natAbs ≤ 2 ^ 31 := by
  have low := i.le_toInt
  have high := i.toInt_lt
  omega

/-- The quotient of two integers fits a register. -/
theorem quotient_bound : -2 ^ 63 ≤ a.toInt.tdiv b.toInt ∧ a.toInt.tdiv b.toInt < 2 ^ 63 := by
  have short := Int.natAbs_tdiv_le_natAbs a.toInt b.toInt
  have bound := natAbs_toInt_le a
  omega

theorem narrowed_quotient : narrowed (.ofInt 64 (a.toInt.tdiv b.toInt)) = extended (a / b) :=
  narrowed_eq (BitVec.toInt_ofInt _) (Int32.toInt_div a b)

theorem narrowed_remainder : narrowed (.ofInt 64 (a.toInt.tmod b.toInt)) = extended (a % b) := by
  refine narrowed_eq (BitVec.toInt_ofInt _) ?_
  rw [Int32.toInt_mod]
  have low := (a % b).le_toInt
  have high := (a % b).toInt_lt
  rw [Int32.toInt_mod] at low high
  exact (Int.bmod_eq_of_le (by omega) (by omega)).symm

/-- Dividing what `cqo` made of one integer by another neither traps nor loses a digit. -/
theorem divide_extended {s : State} (nonzero : b ≠ 0) (low : s.reg .rax = extended a)
    (high : s.reg .rdx = if (extended a).msb then -1 else 0) :
    s.divide (extended b) = some (((s.setReg .rax (.ofInt 64 (a.toInt.tdiv b.toInt))).setReg .rdx
        (.ofInt 64 (a.toInt.tmod b.toInt))).setFlags none) := by
  have divisor : extended b ≠ 0 := fun zero => nonzero (extended_inj.1 (zero.trans (by decide)))
  have bound := quotient_bound (a := a) (b := b)
  unfold State.divide
  rw [low, high, dividend_eq, toInt_extended, toInt_extended]
  exact if_neg (by simp only [divisor, false_or]; omega)

end Division

section Comparison

/-- The sign of a difference is wrong exactly when it overflows. -/
theorem sign_ne_overflow (x y : Word) : ((x - y).msb != x.ssubOverflow y) = decide (x.toInt < y.toInt) := by
  have lowx := x.le_toInt
  have highx := x.toInt_lt
  have lowy := y.le_toInt
  have highy := y.toInt_lt
  rw [BitVec.msb_eq_toInt, BitVec.toInt_sub, BitVec.ssubOverflow, Bool.eq_iff_iff, bne_iff_ne, ne_eq, Bool.eq_iff_iff]
  simp only [Bool.or_eq_true, decide_eq_true_eq, Int.bmod_def]
  split <;> omega

theorem beq_sub_eq_zero (x y : Word) : (x - y == 0) = (x == y) := by
  rw [Bool.eq_iff_iff, beq_iff_eq, beq_iff_eq]
  constructor
  · intro zero
    bv_omega
  · rintro rfl
    exact BitVec.sub_self x

/-- Flags set by comparing integers tell how they compare. -/
theorem holds_ofSub (c : Comparison) :
    (Cond.ofComparison c false).holds (.ofSub (extended a) (extended b)) = c.testInt a b := by
  have zero : (ofSub (extended a) (extended b)).zero = decide (a.toInt = b.toInt) := by
    rw [ofSub, ofResult, beq_sub_eq_zero, Bool.eq_iff_iff, beq_iff_eq, extended_inj, decide_eq_true_eq, Int32.toInt_inj]
  have less : (ofSub (extended a) (extended b)).sign =
      ((ofSub (extended a) (extended b)).overflow ^^ decide (a.toInt < b.toInt)) := by
    rw [← toInt_extended a, ← toInt_extended b, ← sign_ne_overflow, ofSub, ofResult]
    cases (extended a - extended b).msb <;> cases (extended a).ssubOverflow (extended b) <;> rfl
  generalize ofSub (extended a) (extended b) = f at zero less
  rw [Bool.eq_iff_iff]
  cases c <;> cases overflowed : f.overflow <;>
    simp [Cond.ofComparison, Cond.holds, Comparison.testInt, zero, less, overflowed, Int32.lt_iff_toInt_lt,
      Int32.le_iff_toInt_le, ← Int32.toInt_inj] <;>
    omega

end Comparison

end Quadcode.X86
