import Quadcode.X86.Peephole

/-!
# Peephole optimization comes to a normal form

Code is in normal form if no rule applies anywhere in it. Sweeping stops there and nowhere else, and on the way
each rule takes at least one from the weight of the code and adds no instruction.
-/

namespace Quadcode.X86.Peephole

variable {i j : Inst} {code code' rest : List Inst}

/-- No rule applies, at whatever index it is tried. -/
def IsNormal (code : List Inst) : Prop := ∀ k, reduce? (code.drop k) = none

theorem isNormal_cons : IsNormal (i :: code) ↔ reduce? (i :: code) = none ∧ IsNormal code := by
  refine ⟨fun normal => ⟨normal 0, fun k => normal (k + 1)⟩, fun ⟨here, later⟩ k => ?_⟩
  cases k with
  | zero => exact here
  | succ k => exact later k

/-- A sweep that replaces nothing has tried every index in vain. -/
theorem sweep_eq_iff : sweep code = (code, 0) ↔ IsNormal code := by
  fun_induction sweep code with
  | case1 code reduced h out n eq ih =>
    constructor
    · intro same
      cases congrArg Prod.snd same
    · intro normal
      cases h.symm.trans (normal 0)
  | case2 => simp [IsNormal, reduce?]
  | case3 i rest h out n eq ih =>
    rw [isNormal_cons, ← ih, eq]
    simp [h]

theorem sweep_eq_of_zero (unchanged : (sweep code).2 = 0) : sweep code = (code, 0) := by
  fun_induction sweep code with
  | case1 => cases unchanged
  | case2 => rfl
  | case3 i rest h out n eq ih =>
    simp only [eq] at ih unchanged
    cases ih unchanged
    rfl

/-- Sweeps end in a normal form. -/
theorem optimize_isNormal (code : List Inst) : IsNormal (optimize code).1 := by
  fun_induction optimize code with
  | case1 code swept unchanged =>
    have same : swept = (code, 0) := sweep_eq_of_zero unchanged
    rw [same]
    exact sweep_eq_iff.1 same
  | case2 code swept changed out n eq ih => rwa [eq] at ih

theorem optimize_of_isNormal (normal : IsNormal code) : optimize code = (code, 0) := by
  have same := sweep_eq_iff.2 normal
  rw [optimize, if_pos (congrArg Prod.snd same), same]

/-! ## Weight and length -/

theorem optimize_weight (code : List Inst) : weight (optimize code).1 + (optimize code).2 ≤ weight code := by
  fun_induction optimize code with
  | case1 code => exact sweep_weight code
  | case2 code swept changed out n eq ih =>
    have first : weight swept.1 + swept.2 ≤ weight code := sweep_weight code
    simp only [eq] at ih ⊢
    omega

theorem weight_le (code : List Inst) : weight code ≤ 3 * code.length := by
  induction code with
  | nil => exact Nat.le_refl 0
  | cons i rest ih =>
    have light := instWeight_le i
    rw [weight_cons, List.length_cons]
    omega

theorem moves?_length {move : Operand → Operand → Inst} {file : Operand → Bool} {d s d' s' : Operand}
    (reduced : moves? move file d s d' s' = some code) : code.length ≤ 2 := by
  unfold moves? at reduced
  repeat' split at reduced
  all_goals cases reduced <;> simp

theorem pair?_length (reduced : pair? i j rest = some code) : code.length ≤ 2 := by
  unfold pair? at reduced
  split at reduced
  case h_3 | h_4 => exact moves?_length reduced
  all_goals
    repeat' split at reduced
    all_goals cases reduced
  all_goals simp

theorem reduce?_length (reduced : reduce? code = some code') : code'.length ≤ code.length := by
  obtain ⟨i, rfl, -⟩ | ⟨i, j, rest, window, rfl, rfl, replaced⟩ := reduce?_cases reduced
  · exact Nat.le_succ _
  · have short := pair?_length replaced
    simp only [List.length_append, List.length_cons]
    omega

theorem optimize_length (code : List Inst) : (optimize code).1.length ≤ code.length :=
  optimize_chain (R := fun a b => b.length ≤ a.length) (fun _ => Nat.le_refl _)
    (fun first second => Nat.le_trans second first) (fun _ _ _ => Nat.succ_le_succ) reduce?_length code

/-- Optimization makes at most three replacements for each instruction, adds none, and leaves code in which no rule
applies anywhere, so that optimizing once more replaces nothing. -/
theorem optimize_normalizes (code : List Inst) : (optimize code).2 ≤ 3 * code.length ∧ IsNormal (optimize code).1 ∧
      optimize (optimize code).1 = ((optimize code).1, 0) ∧ (optimize code).1.length ≤ code.length := by
  have normal := optimize_isNormal code
  have lighter := optimize_weight code
  exact ⟨by have := weight_le code; omega, normal, optimize_of_isNormal normal, optimize_length code⟩

end Quadcode.X86.Peephole
