import Quadcode.Proofs.Eval.Swapping
import Quadcode.Proofs.Eval.Tracing
import Quadcode.Proofs.Optimizer.BlockTables
import Quadcode.Proofs.Optimizer.LoopPasses
import Quadcode.Proofs.Optimizer.Passes

/-!
# Sharing common subexpressions keeps every run

An expression in the table has a value, which the private variable that the table has for it holds. So to read
the variable is to compute the expression once more, in either order of its operands, as long as the floats
that the program adds and multiplies do not mind the order.
-/

namespace Quadcode

open List Machine

/-- The operator and the operands of an operation whose operands may change places. -/
def Op.commutative? : Op → Option (BinOp × Arg × Arg)
  | .binOp op x y => if op.isCommutative then some (op, x, y) else none
  | _ => none

/-- The operands of a sum or product give the same in either order. -/
def Machine.Commutes (m : Machine) (g : Graph) (q : Quad) : Prop :=
  ∀ s ∈ q.op.commutative?, ∀ x ∈ (m.arg g s.2.1).toOption, ∀ y ∈ (m.arg g s.2.2).toOption, s.1.Commutes x y

/-- If the next quadruple is a sum or product, its operands give the same in either order. -/
def Point.Commutes (p : Point) : Prop := ∀ q ∈ p.quad?, p.machine.Commutes p.graph q

instance (p : Point) : Decidable p.Commutes := inferInstanceAs (Decidable (∀ q ∈ p.quad?, ∀ s ∈ q.op.commutative?,
    ∀ x ∈ (p.machine.arg p.graph s.2.1).toOption, ∀ y ∈ (p.machine.arg p.graph s.2.2).toOption, s.1.Commutes x y))

theorem Machine.tick_effect (m : Machine) (strings : StringPool) (g : Graph) (op : Op) :
    m.tick.effect strings g op = m.effect strings g op :=
  (Same.refl m).tick_right.effect op

namespace CommonSubexpressions

section Sharing

variable {g : Graph} {m n : Machine} {strings : StringPool} {available : Available} {q : Quad}
  {x : Option Value} {a : Op × VarId} {e : Op}

/-! ## Expressions -/

/-- Operations that only compute a value from those of their arguments. -/
inductive Shareable : Op → Prop
  | binOp {op : BinOp} {x y : Arg} : Shareable (.binOp op x y)
  | unOp {op : UnOp} {x : Arg} : Shareable (.unOp op x)
  | cmp {c : Comparison} {x y : Arg} : Shareable (.cmp c x y)

theorem Shareable.effect_congr (shareable : Shareable e) (same : ∀ a ∈ e.args, n.arg g a = m.arg g a) :
    n.effect strings g e = m.effect strings g e := by
  cases shareable <;> simp_all [effect, Op.args]

/-- An expression that is computed has a value, and so have its arguments. -/
theorem Shareable.effect_value {done : Effect} (shareable : Shareable e) (computed : m.effect strings g e = .ok done) :
    (∃ y, done = .value y) ∧ ∀ a ∈ e.args, ∃ y, m.arg g a = .ok y := by
  cases shareable with (simp only [effect, bind_eq_ok, pure_eq_ok] at computed)
  | binOp | cmp =>
    obtain ⟨y, first, z, second, _, -, rfl⟩ := computed
    simp [Op.args, first, second]
  | unOp =>
    obtain ⟨y, first, _, -, rfl⟩ := computed
    simp [Op.args, first]

/-- Expressions that the table takes for the same have the same value. -/
theorem effect_of_same {e' : Op} {y : Value} (alike : same e e') (result : Option VarId)
    (commutes : m.Commutes g ⟨result, e⟩) (computed : m.effect strings g e' = .ok (.value y)) :
    m.effect strings g e = .ok (.value y) := by
  unfold same at alike
  split at alike
  next op x y op' x' y' =>
    simp only [Bool.and_eq_true, Bool.or_eq_true, decide_eq_true_eq] at alike
    obtain ⟨rfl, ⟨rfl, rfl⟩ | ⟨⟨commutative, rfl⟩, rfl⟩⟩ := alike
    · exact computed
    · simp only [effect, bind_eq_ok, pure_eq_ok, Effect.value.injEq] at computed ⊢
      obtain ⟨b, second, a, first, z, applied, rfl⟩ := computed
      have either : op.Commutes a b := commutes (op, x, y) (by simp [Op.commutative?, commutative]) a
        (by simp [first, Except.toOption]) b (by simp [second, Except.toOption])
      exact ⟨a, first, b, second, z, BinOp.apply_comm commutative either applied, rfl⟩
  next c x y c' x' y' =>
    simp only [Bool.and_eq_true, Bool.or_eq_true, decide_eq_true_eq] at alike
    obtain ⟨⟨rfl, rfl⟩, rfl⟩ | ⟨⟨rfl, rfl⟩, rfl⟩ := alike
    · exact computed
    · simp only [effect, bind_eq_ok, pure_eq_ok, Effect.value.injEq] at computed ⊢
      obtain ⟨b, second, a, first, z, applied, rfl⟩ := computed
      exact ⟨a, first, b, second, z, by rwa [Comparison.apply_swap], rfl⟩
  · rw [of_decide_eq_true alike]
    exact computed

/-! ## The table -/

variable {r : VarId}

theorem candidate_eq_some {memory : VarSet} (candidate : candidate? memory r q = some e) :
    q.op = e ∧ Shareable e ∧ r ∉ memory ∧ ∀ v ∈ q.uses, v ∉ memory := by
  unfold candidate? at candidate
  split at candidate
  · cases candidate
  next resident =>
    have apart (candidate : (if q.uses.any (· ∈ memory) then none else some q.op) = some e) :
        q.op = e ∧ ∀ v ∈ q.uses, v ∉ memory := by
      split at candidate
      · cases candidate
      next none => exact ⟨Option.some.inj candidate, by simpa using none⟩
    split at candidate
    next op x y shape =>
      obtain ⟨same, uses⟩ := apart candidate
      exact ⟨same, same ▸ shape ▸ .binOp, resident, uses⟩
    next op x shape =>
      obtain ⟨same, uses⟩ := apart candidate
      exact ⟨same, same ▸ shape ▸ .unOp, resident, uses⟩
    next c x y shape =>
      obtain ⟨same, uses⟩ := apart candidate
      exact ⟨same, same ▸ shape ▸ .cmp, resident, uses⟩
    · cases candidate

/-- The variable is private and holds the value of the expression, whose operands are private. -/
structure Fact (strings : StringPool) (g : Graph) (a : Op × VarId) (m : Machine) : Prop where
  shareable : Shareable a.1
  hides : g.Private ∅ a.2
  operands : ∀ v ∈ (Quad.effect a.1).uses, g.Private ∅ v
  held : ∃ x, m.effect strings g a.1 = .ok (.value x) ∧ m.top a.2 = some x

theorem Fact.kept (fact : Fact strings g a m) (passed : Machine.Passed ∅ g q x m n) (other : q.result ≠ some a.2)
    (others : ∀ v ∈ (Quad.effect a.1).uses, q.result ≠ some v) : Fact strings g a n := by
  obtain ⟨y, computed, here⟩ := fact.held
  refine ⟨fact.shareable, fact.hides, fact.operands, y, ?_, (passed.top_of_ne fact.hides other).trans here⟩
  refine (fact.shareable.effect_congr fun b listed => ?_).trans computed
  have used {v : VarId} (named : v ∈ b.var?) : v ∈ (Quad.effect a.1).uses :=
    mem_append_left _ (mem_filterMap.2 ⟨b, listed, named⟩)
  exact arg_congr_top (fun v named => fact.operands v (used named)) fun v named =>
    passed.top_of_ne (fact.operands v (used named)) (others v (used named))

theorem forget_facts (facts : ∀ a ∈ available, Fact strings g a m) (passed : Machine.Passed ∅ g q x m n)
    (result : q.result = some r) : ∀ a ∈ forget available r, Fact strings g a n := by
  intro a listed
  simp only [forget, mentions, mem_filter, ne_eq, Bool.and_eq_true, decide_eq_true_eq,
    Bool.not_eq_true', contains_eq_mem, decide_eq_false_iff_not] at listed
  obtain ⟨listed, other, others⟩ := listed
  refine (facts a listed).kept passed ?_ fun v named same => ?_
  · rw [result]
    exact fun same => other (Option.some.inj same).symm
  · rw [result] at same
    exact others (Option.some.inj same ▸ named)

/-- A variable that was assigned an expression of other variables holds its value. -/
theorem fact_of_candidate (carries : m.Carries strings g q x n) (result : q.result = some r)
    (candidate : candidate? g.memoryResident r q = some e) (apart : mentions e r = false) :
    Fact strings g (e, r) n := by
  obtain ⟨op, shareable, resident, uses⟩ := candidate_eq_some candidate
  have plain : q.op.isCall = false := by
    rw [op]
    cases shareable <;> rfl
  obtain ⟨done, computed, valued⟩ := carries.yields plain
  rw [op, tick_effect] at computed
  obtain ⟨⟨y, rfl⟩, read⟩ := shareable.effect_value computed
  obtain rfl : some y = x := valued
  have hides : g.Private ∅ r := Graph.private_of_not_resident resident (carries.declared r result rfl)
  have operand {b : Arg} (listed : b ∈ e.args) {v : VarId} (named : v ∈ b.var?) : v ≠ r ∧ g.Private ∅ v := by
    have used : v ∈ (Quad.effect e).uses := mem_append_left _ (mem_filterMap.2 ⟨b, listed, named⟩)
    obtain ⟨z, value⟩ := read b listed
    refine ⟨fun same => ?_, Graph.private_of_not_resident (uses v ?_) (declared_of_arg value named)⟩
    · simp [mentions, ← same, used] at apart
    · rw [Quad.uses, op]
      exact used
  have unbased : (Quad.effect e).uses = e.args.filterMap Arg.var? := by
    cases shareable <;> exact append_nil _
  refine ⟨shareable, hides, fun v used => ?_, y, ?_, carries.top_result hides result⟩
  · rw [unbased] at used
    obtain ⟨b, listed, named⟩ := mem_filterMap.1 used
    exact (operand listed named).2
  · refine (shareable.effect_congr fun b listed => ?_).trans computed
    exact arg_congr_top (fun v named => (operand listed named).2) fun v named =>
      carries.top_of_ne (operand listed named).2 fun same =>
        (operand listed named).1 (Option.some.inj (same.symm.trans result))

theorem quad_facts (facts : ∀ a ∈ available, Fact strings g a m) (carries : m.Carries strings g q x n) :
    ∀ a ∈ (quad g.memoryResident available q).2.1, Fact strings g a n := by
  unfold quad
  split
  next result =>
    exact fun a listed => (facts a listed).kept carries.toPassed (by simp [result]) (by simp [result])
  next r result =>
    have forgotten := forget_facts facts carries.toPassed result
    dsimp only
    split
    · exact forgotten
    next e candidate =>
      split
      · split <;> exact forgotten
      · dsimp only
        split
        · exact forgotten
        next apart =>
          exact forall_mem_cons.2
            ⟨fact_of_candidate carries result candidate (Bool.eq_false_iff.2 apart), forgotten⟩

/-- Where a variable holds the value of the expression, reading it is computing the expression. -/
theorem quad_standsIn (facts : ∀ a ∈ available, Fact strings g a m) (commutes : m.Commutes g q) :
    m.StandsIn True strings g q (quad g.memoryResident available q).1 := by
  unfold quad
  split
  · exact .refl ..
  next r result =>
    dsimp only
    split
    · exact .refl ..
    next e candidate =>
      obtain ⟨op, shareable, -⟩ := candidate_eq_some candidate
      split
      next h found =>
        split
        · exact .refl ..
        · obtain ⟨a, first, rfl⟩ := Option.map_eq_some_iff.1 found
          have fact := facts a (mem_of_find?_eq_some first)
          have alike : same e a.1 := by simpa using find?_some first
          obtain ⟨y, computed, here⟩ := fact.held
          have again : m.effect strings g e = .ok (.value y) := effect_of_same alike q.result (by rwa [← op]) computed
          have read : m.effect strings g (.assign (.var a.2)) = .ok (.value y) := by
            simp only [effect, arg, (varValue_of_top fact.hides).2 here]
            rfl
          refine .act ?_ rfl (.of_eq ?_)
          · rw [op]
            cases shareable <;> rfl
          · unfold act
            rw [op, tick_effect, tick_effect, read, again]
      · exact .refl ..

end Sharing

/-! ## The pass -/

/-- Sharing subexpressions recasts a function. -/
theorem graph_recasts {g : Graph} (linked : g.Linked) (strings : StringPool) :
    ∃ knows, g.Recasts strings (fun m q => m.Commutes g q) knows (graph g).1 := by
  have made := linked.transformBlocks (block g.memoryResident)
  refine ⟨_, Graph.recasts_of_table (quad g.memoryResident) (Fact strings g) made.alike made.entry
    (fun b laid => ?_) (fun b laid m facts => ?_) (fun available m q _ => quad_standsIn)
    fun available m n q x => quad_facts⟩
  · exact congrArg Block.body (made.blocks b laid)
  · rw [show (graph g).1.tail b = g.tail b from (congrArg Block.tail (made.blocks b laid) :)]

/-- What the pass does to the work at hand. -/
theorem gives_pass {w w' : Work} {changed : Bool} : Gives pass w changed w' ↔
    changed = decide ((graph w.graph).2 > 0) ∧ w' = ⟨(graph w.graph).1,
      { w.context with stats := w.context.stats.add "cse.replaced" (graph w.graph).2 }, w.supply⟩ := by
  have ran : outcome pass w = (.ok (decide ((graph w.graph).2 > 0)), ⟨(graph w.graph).1,
      { w.context with stats := w.context.stats.add "cse.replaced" (graph w.graph).2 }, w.supply⟩) :=
    rfl
  simp [Gives, ran, eq_comm]

/-- Sharing the subexpressions of one function of a module changes no run on which pointers lead only to
globals and to variables whose address the owner of the frame takes, and floats are added and multiplied only
where the order does not matter: it gives the same outcome or the same error. -/
theorem sharing_keeps_run {program : Module} {before after : List Graph} {w : Work}
    (listed : program.graphs = before ++ w.graph :: after) (linked : w.graph.Linked)
    (stores : ∀ q ∈ w.graph.bodies, w.graph.StoresToMemory q) {entry : Label} {args : List Value} {input : List Int32}
    (commutes : ∀ p, program.Comes entry args input p → p.Commutes)
    (confined : ∀ p, program.Comes entry args input p → p.Confined) :
    ∃ changed w', Gives pass w changed w' ∧
      Module.run { program with graphs := before ++ w'.graph :: after } entry args input =
        program.run entry args input := by
  obtain ⟨knows, recasts⟩ := graph_recasts linked program.strings
  refine ⟨_, _, gives_pass.2 ⟨rfl, rfl⟩, recasts.run listed linked stores fun p comes => ?_⟩
  exact ⟨confined p comes, fun here q next => here ▸ commutes p comes q next⟩

/-- The function with its subexpressions shared. -/
def shared (f : Function) : Graph := (graph f.graph).1

/-- Stores a product through the pointer it is given. -/
def squaring : Function where
  name := "squaring"
  vars := #[.declare "q" (.pointer .int) .param, .declare "t" .int .local, .declare "u" .int .local]
  params := [0]
  quads := [
    ⟨some 1, .deref 0⟩,
    ⟨some 2, .binOp .mul (.var 1) (.var 1)⟩,
    .effect (.derefStore 0 (.var 2)),
    .effect (.ret none)]

/-- Computes sums of ints and of floats, a comparison and a division more than once, in either order, over
changes of the operands and a call that changes `x`. The variables `a`, `b`, `s`, `t`, `f`, `u`, `x` and `p`
are 0 to 7; the floats are 1 and 2. -/
def repeating : Function where
  name := "main"
  vars := #[.declare "a" .int .local, .declare "b" .int .local, .declare "s" .int .local,
    .declare "t" .int .local, .declare "f" .float .local, .declare "u" .float .local,
    .declare "x" .int .local, .declare "p" (.pointer .int) .local]
  quads := [
    ⟨some 0, .assign (.const (.int 3))⟩,
    ⟨some 1, .assign (.const (.int 4))⟩,
    ⟨some 7, .address 6⟩,
    ⟨some 2, .binOp .add (.var 0) (.var 1)⟩,
    .effect (.derefStore 7 (.var 2)),
    ⟨some 3, .binOp .add (.var 1) (.var 0)⟩,
    .effect (.print (.var 3)),
    ⟨some 2, .cmp .lt (.var 0) (.var 1)⟩,
    .effect (.call "squaring" [.var 7]),
    ⟨some 3, .cmp .gt (.var 1) (.var 0)⟩,
    .effect (.print (.var 3)),
    ⟨some 1, .binOp .add (.var 1) (.const (.int 1))⟩,
    ⟨some 3, .binOp .add (.var 1) (.var 0)⟩,
    .effect (.print (.var 3)),
    ⟨some 4, .assign (.const (.float ⟨0x3ff0000000000000⟩))⟩,
    ⟨some 5, .binOp .add (.var 4) (.const (.float ⟨0x4000000000000000⟩))⟩,
    ⟨some 4, .binOp .add (.const (.float ⟨0x4000000000000000⟩)) (.var 4)⟩,
    ⟨some 2, .cmp .eq (.var 4) (.var 5)⟩,
    .effect (.print (.var 2)),
    ⟨some 2, .binOp .div (.var 6) (.var 0)⟩,
    ⟨some 3, .binOp .div (.var 6) (.var 0)⟩,
    .effect (.ret (some (.var 3)))]

theorem repeating_keeps_run : (repeating.module [squaring]).run "main" [] [] = .ok ⟨some (.int 16), "7181"⟩ ∧
      shared repeating ≠ repeating.graph ∧
      Module.run { repeating.module [squaring] with graphs := [shared repeating, squaring.graph] } "main" [] [] =
        .ok ⟨some (.int 16), "7181"⟩ := by
  have ran : (repeating.module [squaring]).run "main" [] [] = .ok ⟨some (.int 16), "7181"⟩ := by
    decide +kernel
  have watched : ∀ p ∈ (repeating.module [squaring]).trace "main" [] [], p.Commutes ∧ p.Confined := by
    decide +kernel
  have listed : (repeating.module [squaring]).graphs = [] ++ repeating.graph :: [squaring.graph] := rfl
  obtain ⟨_, _, given, same⟩ := sharing_keeps_run (w := ⟨repeating.graph, {}, {}⟩) listed
    (repeating.graph_linked rfl) (by decide +kernel)
    (fun p comes => (watched p comes.mem_trace).1) fun p comes => (watched p comes.mem_trace).2
  obtain ⟨-, rfl⟩ := gives_pass.1 given
  exact ⟨ran, by decide +kernel, same.trans ran⟩

end CommonSubexpressions

end Quadcode
