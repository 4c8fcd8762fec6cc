import Quadcode.Eval.Machine
import Quadcode.Proofs.Outcome

/-!
# Operands the other way round

A comparison says the same as the swapped one. Sums and products are the same in either order, but for two
NaNs that differ: there the first operand decides.
-/

namespace Quadcode

open Float.Model (UnpackedFloat Format)

/-! ## Numbers without their bits -/

theorem UnpackedFloat.compare_swap (a b : UnpackedFloat) : b.compare a = (a.compare b).map Ordering.swap := by
  have number (e₁ e₂ : Int) (m₁ m₂ : Nat) : (compare e₂ e₁).then (compare m₂ m₁) =
      ((compare e₁ e₂).then (compare m₁ m₂)).swap := by
    rw [Ordering.swap_then, Std.OrientedOrd.eq_swap (a := e₂), Std.OrientedOrd.eq_swap (a := m₂)]
  cases a with
  | notANumber => cases b <;> rfl
  | infinity s => cases b <;> cases s <;> first | rfl | (rename_i t; cases t <;> rfl)
  | zero s => cases b <;> first | rfl | (rename_i t; cases t <;> rfl) | (rename_i t _ _ _; cases t <;> rfl)
  | finite s m e positive =>
    cases b with
    | notANumber => cases s <;> rfl
    | infinity t => cases s <;> cases t <;> rfl
    | zero t => cases s <;> rfl
    | finite t m' e' positive' =>
      cases s <;> cases t <;> dsimp only [UnpackedFloat.compare] <;> simp [number e e']

theorem UnpackedFloat.add_comm (spec : Format) (a b : UnpackedFloat) : a.add spec b = b.add spec a := by
  cases a with
  | notANumber => cases b <;> rfl
  | infinity s | zero s => cases b <;> cases s <;> first | rfl | (rename_i t; cases t <;> rfl)
  | finite s m e positive =>
    cases b with
    | finite t m' e' positive' =>
      dsimp only [UnpackedFloat.add]
      rw [Int.min_comm, Int.add_comm]
    | _ => rfl

theorem UnpackedFloat.mul_comm (spec : Format) (a b : UnpackedFloat) : a.mul spec b = b.mul spec a := by
  have sign (s t : UnpackedFloat.Sign) : s * t = t * s := by cases s <;> cases t <;> rfl
  cases a <;> cases b <;> dsimp only [UnpackedFloat.mul] <;> simp only [sign, Nat.mul_comm, Int.add_comm]

/-! ## Numbers -/

namespace Double

theorem numEq_comm (x y : Double) : x.numEq y = y.numEq x := by
  have symm (a b : UnpackedFloat) : a.beq b = b.beq a := by
    change (a.compare b == some .eq) = (b.compare a == some .eq)
    rw [UnpackedFloat.compare_swap b a]
    rcases b.compare a with _ | _ | _ | _ <;> rfl
  exact symm _ _

/-- An operation on numbers that is the same in either order is so on doubles, unless two NaNs meet that are
still different when made quiet. -/
theorem lift_comm_iff {op : Float → Float → Float} (comm : ∀ a b, op a b = op b a) (x y : Double) :
    lift op x y = lift op y x ↔ ¬(x.isNaN ∧ y.isNaN ∧ x.quiet ≠ y.quiet) := by
  unfold lift
  by_cases first : x.isNaN <;> by_cases second : y.isNaN <;> simp [first, second, comm x.toFloat]

end Double

def Value.float? : Value → Option Double
  | .float x => some x
  | _ => none

namespace BinOp

variable {op : BinOp}

theorem foldInt_comm (commutative : op.isCommutative) (a b : Int32) : op.foldInt a b = op.foldInt b a := by
  cases op with
  | add => exact congrArg some (Int32.add_comm a b)
  | mul => exact congrArg some (Int32.mul_comm a b)
  | sub | div | mod => cases commutative

/-- Two floats give the same in either order. -/
def Commutes (op : BinOp) (x y : Value) : Prop := ∀ a ∈ x.float?, ∀ b ∈ y.float?, op.foldFloat a b = op.foldFloat b a

instance (op : BinOp) (x y : Value) : Decidable (op.Commutes x y) :=
  inferInstanceAs (Decidable (∀ a ∈ x.float?, ∀ b ∈ y.float?, op.foldFloat a b = op.foldFloat b a))

/-- Sums and products of floats are the same in either order, unless two NaNs meet that are still different
when made quiet. -/
theorem commutes_iff (commutative : op.isCommutative) (a b : Double) :
    op.Commutes (.float a) (.float b) ↔ ¬(a.isNaN ∧ b.isNaN ∧ a.quiet ≠ b.quiet) := by
  simp only [Commutes, Value.float?, Option.mem_some_iff, forall_eq']
  cases op with
  | add =>
    refine Option.some_inj.trans (Double.lift_comm_iff (fun x y => ?_) a b)
    exact congrArg (fun r => Float.ofModel (Float.Model.pack r)) (UnpackedFloat.add_comm _ _ _)
  | mul =>
    refine Option.some_inj.trans (Double.lift_comm_iff (fun x y => ?_) a b)
    exact congrArg (fun r => Float.ofModel (Float.Model.pack r)) (UnpackedFloat.mul_comm _ _ _)
  | sub | div | mod => cases commutative

theorem apply_comm {g : Graph} {x y z : Value} (commutative : op.isCommutative) (commutes : op.Commutes x y)
    (applied : op.apply g y x = .ok z) : op.apply g x y = .ok z := by
  have whole : op.isDivision = false := by cases op <;> first | rfl | cases commutative
  simp only [apply, whole, Bool.false_eq_true, false_and, if_false, bind_eq_ok] at applied ⊢
  obtain ⟨b, second, a, first, folded⟩ := applied
  refine ⟨a, first, b, second, ?_⟩
  have same : op.fold a b = op.fold b a := by
    cases a with
    | int i =>
      cases b with
      | int j => exact congrArg (Option.map _) (foldInt_comm commutative i j)
      | float j => rfl
    | float i =>
      cases b with
      | int j => rfl
      | float j =>
        refine congrArg (Option.map _) (commutes i ?_ j ?_)
        · cases x <;> cases first
          rfl
        · cases y <;> cases second
          rfl
  rw [same]
  exact folded

end BinOp

/-- A comparison of two values is the swapped one of them the other way round. -/
theorem Comparison.apply_swap (c : Comparison) (g : Graph) (x y : Value) : c.swap.apply g y x = c.apply g x y := by
  have ints (a b : Int32) : c.swap.testInt b a = c.testInt a b := by
    cases c <;> simp [swap, testInt, Bool.beq_comm (a := a), bne]
  have floats (a b : Double) : c.swap.testFloat b a = c.testFloat a b := by
    cases c <;> simp [swap, testFloat, Double.numEq_comm b a]
  cases x <;> cases y <;> simp only [apply, ints, floats] <;> cases c <;> simp [swap, eq_comm]

end Quadcode
