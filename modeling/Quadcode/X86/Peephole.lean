import Quadcode.X86.Inst

/-!
# Peephole optimization

A window slides over the code and replaces what stands in it by something simpler. Every replacement
lowers the weight of the code, so that sweeps come to an end; they are repeated until one replaces
nothing.
-/

namespace Quadcode.X86.Peephole

/-- Whether flags that are set before `code` may be read. -/
def flagsObserved : List Inst → Bool
  | [] => false
  | i :: rest =>
    if i.readsFlags then true
    else
      match i with
      | .label _ | .jmp _ => true
      | .call _ | .ret => false
      | i => if i.writesFlags then false else flagsObserved rest

/-- Whether an instruction does nothing. -/
def isIdle (i : Inst) (rest : List Inst) : Bool :=
  match i with
  | .mov d s | .movsd d s => d = s
  | .int .add _ (.imm 0) | .int .sub _ (.imm 0) | .int .imul _ (.imm 1) => !flagsObserved rest
  | _ => false

/-- What two moves become, where `file` tells the registers of their kind: a word that was just
stored is not loaded again, a move back is dropped, and so is a move whose value is overwritten. -/
def moves? (move : Operand → Operand → Inst) (file : Operand → Bool) (d s d' s' : Operand) :
    Option (List Inst) :=
  if d.isMemory && file s && file d' && s' = d then
    some (if d' = s then [move d s] else [move d s, move d' s])
  else if s' = d && d' = s && d.independent s && s.independent d then some [move d s]
  else if file d && d' = d && s'.independent d then some [move d' s']
  else none

/-- What two instructions before `rest` become. -/
def pair? (i j : Inst) (rest : List Inst) : Option (List Inst) :=
  match i, j with
  | .jmp l, .label m => if l = m then some [.label m] else none
  | .jcc c l, .jmp t =>
    match rest with
    | .label m :: _ => if m = l then some [.jcc c.negate t] else none
    | _ => none
  | .mov d s, .mov d' s' => moves? .mov Operand.isReg d s d' s'
  | .movsd d s, .movsd d' s' => moves? .movsd Operand.isXmm d s d' s'
  | .push (.reg r), .pop (.reg d) =>
    some (if r = d then [] else [.mov (.reg d) (.reg r)])
  | .push (.imm v), .pop (.reg d) => some [.mov (.reg d) (.imm v)]
  | .cvtsi2sd x s, .cvttsd2si d (.xmm x') =>
    if x = x' && (x = floatScratch || x = floatScratch2) then some [.mov (.reg d) s] else none
  | _, _ => none

/-- Applies a rule at the start of the code. -/
def reduce? : List Inst → Option (List Inst)
  | [] => none
  | i :: rest =>
    if isIdle i rest then some rest
    else
      match rest with
      | [] => none
      | j :: rest => (pair? i j rest).map (· ++ rest)

/-- A move from memory weighs more than any other instruction. -/
def instWeight : Inst → Nat
  | .mov _ s | .movsd _ s => if s.isMemory then 3 else 2
  | _ => 2

def weight (code : List Inst) : Nat := code.foldr (fun i n => instWeight i + n) 0

theorem instWeight_pos (i : Inst) : 2 ≤ instWeight i := by
  unfold instWeight
  split <;> try split
  all_goals omega

theorem instWeight_le (i : Inst) : instWeight i ≤ 3 := by
  unfold instWeight
  split <;> try split
  all_goals omega

@[simp]
theorem weight_nil : weight [] = 0 := rfl

@[simp]
theorem weight_cons (i : Inst) (code : List Inst) : weight (i :: code) = instWeight i + weight code := rfl

@[simp]
theorem weight_append (a b : List Inst) : weight (a ++ b) = weight a + weight b := by
  induction a with
  | nil => simp
  | cons i rest ih => simp [ih, Nat.add_assoc]

theorem isMemory_of_isReg (o : Operand) (h : o.isReg) : o.isMemory = false := by
  cases o <;> simp_all [Operand.isReg, Operand.isMemory]

theorem isMemory_of_isXmm (o : Operand) (h : o.isXmm) : o.isMemory = false := by
  cases o <;> simp_all [Operand.isXmm, Operand.isMemory]

theorem moves?_weight {move : Operand → Operand → Inst} {file : Operand → Bool}
    (weighs : ∀ d s, instWeight (move d s) = if s.isMemory then 3 else 2)
    (fileNotMemory : ∀ o, file o → o.isMemory = false) {d s d' s' : Operand} {code : List Inst}
    (h : moves? move file d s d' s' = some code) : weight code < instWeight (move d s) + instWeight (move d' s') := by
  have first := instWeight_pos (move d s)
  have second := instWeight_pos (move d' s')
  unfold moves? at h
  split at h
  next stored =>
    simp only [Bool.and_eq_true, decide_eq_true_eq] at stored
    obtain ⟨⟨⟨memory, inFile⟩, _⟩, rfl⟩ := stored
    have source := fileNotMemory s inFile
    split at h <;> cases h <;> simp [weighs, memory, source]
  next =>
    split at h
    · cases h
      simp
      omega
    · split at h
      · cases h
        simp
        omega
      · cases h

theorem pair?_weight {i j : Inst} {rest code : List Inst} (h : pair? i j rest = some code) :
    weight code < instWeight i + instWeight j := by
  unfold pair? at h
  split at h
  · split at h <;> cases h
    simp [instWeight]
  · split at h
    · split at h <;> cases h
      simp [instWeight]
    · cases h
  · exact moves?_weight (fun _ _ => rfl) isMemory_of_isReg h
  · exact moves?_weight (fun _ _ => rfl) isMemory_of_isXmm h
  · cases h
    split <;> simp [instWeight, Operand.isMemory]
  · cases h
    simp [instWeight, Operand.isMemory]
  · split at h <;> cases h
    simp only [weight_cons, weight_nil, instWeight]
    split <;> omega
  · cases h

/-- A rule drops an instruction or replaces two. -/
theorem reduce?_cases {code code' : List Inst} (h : reduce? code = some code') :
    (∃ i, code = i :: code' ∧ isIdle i code') ∨
      ∃ i j rest window, code = i :: j :: rest ∧ code' = window ++ rest ∧ pair? i j rest = some window := by
  unfold reduce? at h
  split at h
  · cases h
  next i rest =>
    split at h
    next idle =>
      cases h
      exact .inl ⟨i, rfl, idle⟩
    · split at h
      · cases h
      next j rest _ =>
        obtain ⟨window, replaced, rfl⟩ := Option.map_eq_some_iff.1 h
        exact .inr ⟨i, j, rest, window, rfl, rfl, replaced⟩

/-- Every rule lowers the weight. -/
theorem reduce?_weight {code code' : List Inst} (h : reduce? code = some code') : weight code' < weight code := by
  obtain ⟨i, rfl, -⟩ | ⟨i, j, rest, window, rfl, rfl, replaced⟩ := reduce?_cases h
  · have := instWeight_pos i
    simp
    omega
  · have := pair?_weight replaced
    simp
    omega

/-- Applies rules from the start to the end of the code, at each place as long as there is one, and
counts them. -/
def sweep (code : List Inst) : List Inst × Nat :=
  match _h : reduce? code with
  | some code =>
    let (code, n) := sweep code
    (code, n + 1)
  | none =>
    match code with
    | [] => ([], 0)
    | i :: rest =>
      let (rest, n) := sweep rest
      (i :: rest, n)
termination_by weight code
decreasing_by
  · exact reduce?_weight _h
  · have := instWeight_pos i
    simp
    omega

/-- Each application of a rule takes at least one from the weight. -/
theorem sweep_weight (code : List Inst) : weight (sweep code).1 + (sweep code).2 ≤ weight code := by
  fun_induction sweep code with
  | case1 code reduced h out n eq ih =>
    have := reduce?_weight h
    simp only [eq] at ih ⊢
    omega
  | case2 => simp
  | case3 i rest h out n eq ih =>
    simp only [eq] at ih
    simp
    omega

/-- Sweeps until nothing is replaced; gives the number of replacements as well. -/
def optimize (code : List Inst) : List Inst × Nat :=
  let swept := sweep code
  if swept.2 = 0 then swept
  else
    let (code, n) := optimize swept.1
    (code, swept.2 + n)
termination_by weight code
decreasing_by
  have replaced : (sweep code).2 ≠ 0 := by assumption
  have := sweep_weight code
  omega

section Chains

variable {R : List Inst → List Inst → Prop} (refl : ∀ a, R a a) (trans : ∀ {a b c}, R a b → R b c → R a c)
  (cons : ∀ i {a b}, R a b → R (i :: a) (i :: b)) (reduce : ∀ {a b}, reduce? a = some b → R a b)
include refl trans cons reduce

/-- A relation that holds for every rule, and behind other code as well, holds for sweeps. -/
theorem sweep_chain (code : List Inst) : R code (sweep code).1 := by
  fun_induction sweep code with
  | case1 code reduced h out n eq ih =>
    rw [eq] at ih
    exact trans (reduce h) ih
  | case2 => exact refl []
  | case3 i rest h out n eq ih =>
    rw [eq] at ih
    exact cons i ih

theorem optimize_chain (code : List Inst) : R code (optimize code).1 := by
  have swept := sweep_chain refl trans cons reduce
  fun_induction optimize code with
  | case1 code => exact swept code
  | case2 code _ _ out n eq ih =>
    rw [eq] at ih
    exact trans (swept code) ih

end Chains

end Quadcode.X86.Peephole
