import Quadcode.Proofs.Flow.ConstantSweeps
import Quadcode.Proofs.Flow.Liveness
import Quadcode.Proofs.Graph.Built

/-!
# The solver comes to an end

On every built function the sweeps for live variables end, and so do the sweeps for constants when
the paths to each arithmetic quadruple agree on which operands are assigned. Without that agreement
the sweeps for constants may go round in a circle: while an operand is unknown its quadruple makes a
variable vary, later it does not, and a loop that exchanges two variables keeps the difference alive.
-/

namespace Quadcode

open Constants

namespace Problem

variable {α : Type} [DecidableEq α] {p : Problem α} {g : Graph} {states : List (BlockMap α × BlockMap α)}
  {x : BlockMap α × BlockMap α}

/-- From some number of sweeps on the solver gives one answer, and sweeping over that answer changes
neither its near nor its far sides. -/
def Converges (p : Problem α) (g : Graph) : Prop := ∃ limit sol, (∀ more, p.solveWithin g (limit + more) = .ok sol) ∧
    p.sweep g sol.near sol.far = .ok ⟨sol.near, sol.far, false⟩

theorem Ascent.converges (A : p.Ascent g) (linked : g.Linked) : p.Converges g := by
  obtain ⟨sol, solved⟩ := A.solves linked
  exact ⟨_, sol, fun _ => iterate_more solved, (solveWithin_solves solved).sweep⟩

/-! ## Circles -/

/-- Near and far sides, with those that sweep after sweep makes of them. -/
def trail (p : Problem α) (g : Graph) : Nat → BlockMap α × BlockMap α → List (BlockMap α × BlockMap α)
  | 0, x => [x]
  | k + 1, x => x :: match p.sweep g x.1 x.2 with
    | .ok s => trail p g k (s.near, s.far)
    | .error _ => []

/-- Every sweep from one of the states changes something and leads to one of them. -/
def Circular (p : Problem α) (g : Graph) (states : List (BlockMap α × BlockMap α)) : Prop :=
  ∀ x ∈ states, match p.sweep g x.1 x.2 with
    | .ok s => s.changed = true ∧ (s.near, s.far) ∈ states
    | .error _ => False

instance (states : List (BlockMap α × BlockMap α)) : Decidable (Circular p g states) :=
  have (x : BlockMap α × BlockMap α) : Decidable (match p.sweep g x.1 x.2 with
      | .ok s => s.changed = true ∧ (s.near, s.far) ∈ states
      | .error _ => False) := by
    split <;> infer_instance
  List.decidableBAll _ states

theorem Circular.sweep (circular : Circular p g states) (member : x ∈ states) {s : Sweep α}
    (run : p.sweep g x.1 x.2 = .ok s) : s.changed = true ∧ (s.near, s.far) ∈ states := by
  have step := circular x member
  rw [run] at step
  exact step

theorem Circular.iterate_ne (circular : Circular p g states) (member : x ∈ states)
    (rest done : Nat) (sol : Solution α) : p.iterate g rest done x.1 x.2 ≠ .ok sol := by
  intro solved
  induction rest generalizing x done with (
    unfold iterate at solved
    obtain ⟨s, run, last⟩ := bind_eq_ok.1 solved)
  | zero =>
    rw [if_pos (circular.sweep member run).1] at last
    cases last
  | succ rest ih =>
    obtain ⟨changed, next⟩ := circular.sweep member run
    rw [if_pos changed] at last
    exact ih next _ last

end Problem

/-- The solver comes to an end on every built function: always for live variables, and for constants
when the function is settled. -/
theorem built_sweeps_converge {f : Function} {s s' : Supply} {g : Graph} (built : Graph.build f s = .ok (g, s')) :
    (Liveness.problem g).Converges g ∧ (Constants.Settled g → (problem g).Converges g) := by
  have linked := Graph.build_linked built
  exact ⟨(Liveness.ascent linked).converges linked, fun settled => (ascent linked settled).converges linked⟩

/-- Adds up to `n` in a loop; `n`, `i` and `s` are variables 0, 1 and 2. -/
def summing : Function where
  name := "main"
  vars := #[.declare "n" .int .param, .declare "i" .int .local, .declare "s" .int .local]
  params := [0]
  quads := [
    ⟨some 1, .assign (.const (.int 0))⟩,
    ⟨some 2, .assign (.const (.int 0))⟩,
    .effect (.label "head"),
    .effect (.jumpIfNot .lt (.var 1) (.var 0) "exit"),
    ⟨some 1, .binOp .add (.var 1) (.const (.int 1))⟩,
    ⟨some 2, .binOp .add (.var 2) (.var 1)⟩,
    .effect (.goto "head"),
    .effect (.label "exit"),
    .effect (.ret (some (.var 2)))]

theorem summing_converges : Graph.build summing {} = .ok (summing.graph, ⟨2⟩) ∧ Constants.Settled summing.graph ∧
    (Liveness.problem summing.graph).Converges summing.graph ∧
    (problem summing.graph).Converges summing.graph := by
  have built : Graph.build summing {} = .ok (summing.graph, ⟨2⟩) := by rfl
  have assigned : Constants.Assigned summing.graph fun b => if b = 0 then [0] else [0, 1, 2] :=
    ⟨by decide +kernel, by decide +kernel, by decide +kernel⟩
  have settled := assigned.settled (Graph.build_linked built)
  obtain ⟨live, constants⟩ := built_sweeps_converge built
  exact ⟨built, settled, live, constants settled⟩

/-- Exchanges `a` and `b` in a loop, having put into `a` on one way through it a sum with an operand
that the loop assigns below. The variables `n`, `a`, `b`, `c`, `d` and `t` are 0 to 5. -/
def exchanging : Function where
  name := "main"
  vars := #[.declare "n" .int .param, .declare "a" .int .local, .declare "b" .int .local,
    .declare "c" .int .local, .declare "d" .int .local, .declare "t" .int .local]
  params := [0]
  quads := [
    ⟨some 1, .assign (.const (.int 1))⟩,
    ⟨some 2, .assign (.const (.int 1))⟩,
    .effect (.label "head"),
    ⟨some 3, .binOp .add (.var 4) (.const (.int 1))⟩,
    .effect (.jumpIf .lt (.var 0) (.const (.int 10)) "swap"),
    ⟨some 1, .assign (.var 3)⟩,
    .effect (.label "swap"),
    ⟨some 5, .assign (.var 1)⟩,
    ⟨some 1, .assign (.var 2)⟩,
    ⟨some 2, .assign (.var 5)⟩,
    ⟨some 4, .assign (.const (.int 0))⟩,
    .effect (.jumpIf .lt (.var 0) (.const (.int 20)) "head"),
    .effect (.ret (some (.var 1)))]

/-- On this function the sweeps for constants come back to where they were, and never end. -/
theorem exchanging_never_converges : Graph.build exchanging {} = .ok (exchanging.graph, ⟨3⟩) ∧
    ∀ limit sol, (problem exchanging.graph).solveWithin exchanging.graph limit ≠
      .ok sol := by
  let p := problem exchanging.graph
  let start : BlockMap Facts :=
    (p.order exchanging.graph).foldl (fun m b => m.insert b p.initial) ∅
  have circular : p.Circular exchanging.graph (p.trail exchanging.graph 4 (start, start)) := by
    decide +kernel
  exact ⟨by rfl, fun limit => circular.iterate_ne List.mem_cons_self limit 0⟩

end Quadcode
