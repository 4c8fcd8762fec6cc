import Quadcode.Proofs.Flow.Termination
import Quadcode.Proofs.Graph.Normal

/-!
# The equations of a problem

What the solver returns, read off by the starts and ends of blocks: a forward problem meets the ends of the
predecessors at the start of a block and takes the result to its end, a backward problem meets the starts of the
successors at its end and takes the result to its start. Nothing is asked of the meet or of the code.
-/

namespace Quadcode

namespace Problem

variable {α : Type} {p : Problem α} {g : Graph} {sol : Solution α} {b : BlockId}

/-- The near value of a block is met from the far sides of its neighbours, one after the other. -/
theorem gather_eq_ok {far : BlockMap α} {v : α} : p.gather g far b = .ok v ↔
    ∃ values, (p.neighbours g b).mapM (fun c => orFault far[c]?) = .ok values ∧
      v = values.foldl p.meet (if p.atBoundary g b then p.boundary else p.initial) := by
  unfold gather
  generalize (if p.atBoundary g b then p.boundary else p.initial) = start
  generalize p.neighbours g b = cs
  induction cs generalizing start with
  | nil =>
    rw [List.foldlM_nil, List.mapM_nil, pure_eq_ok]
    constructor
    · rintro rfl
      exact ⟨[], rfl, rfl⟩
    · rintro ⟨_, ⟨⟩, rfl⟩
      rfl
  | cons c rest ih =>
    simp only [List.foldlM_cons, List.mapM_cons, bind_eq_ok, pure_eq_ok, ih]
    constructor
    · rintro ⟨_, ⟨x, found, rfl⟩, values, others, rfl⟩
      exact ⟨x :: values, ⟨x, found, values, others, rfl⟩, rfl⟩
    · rintro ⟨_, ⟨x, found, values, others, rfl⟩, rfl⟩
      exact ⟨_, ⟨x, found, rfl⟩, values, others, rfl⟩

/-- Starts and ends of blocks that satisfy the equations of a problem at a block. -/
def Balanced (p : Problem α) (g : Graph) (sol : Solution α) (b : BlockId) (start stop : α) : Prop :=
  match p.direction with
  | .forward =>
    (∃ ends, (g.preds b).mapM sol.blockOut = .ok ends ∧
      start = ends.foldl p.meet (if b = g.entry then p.boundary else p.initial)) ∧
    stop = p.tail (g.tail b) ((g.body b).foldl (fun v q => p.quad q v) start)
  | .backward =>
    (∃ starts, (g.succs b).mapM sol.blockIn = .ok starts ∧
      stop = starts.foldl p.meet (if (g.tail b).isReturn then p.boundary else p.initial)) ∧
    start = (g.body b).foldr p.quad (p.tail (g.tail b) stop)

theorem Solves.balanced (equations : p.Solves g sol.near sol.far) (direction : sol.direction = p.direction)
    (member : b ∈ p.order g) :
    ∃ start stop, sol.blockIn b = .ok start ∧ sol.blockOut b = .ok stop ∧ p.Balanced g sol b start stop := by
  obtain ⟨v, gathered, near, far⟩ := equations b member
  obtain ⟨values, found, met⟩ := gather_eq_ok.1 gathered
  unfold Balanced
  cases way : p.direction with
  | forward =>
    have ends : sol.blockOut = fun c => orFault sol.far[c]? := by
      funext c
      rw [Solution.blockOut, direction, way]
    simp only [neighbours, atBoundary, way, beq_iff_eq] at found met
    simp only [through, way] at far
    refine ⟨v, _, ?_, ?_, ⟨values, ends ▸ found, met⟩, rfl⟩
    · rw [Solution.blockIn, direction, way, near]
      rfl
    · rw [Solution.blockOut, direction, way, far]
      rfl
  | backward =>
    have starts : sol.blockIn = fun c => orFault sol.far[c]? := by
      funext c
      rw [Solution.blockIn, direction, way]
    simp only [neighbours, atBoundary, way] at found met
    simp only [through, way] at far
    refine ⟨_, v, ?_, ?_, ⟨values, starts ▸ found, met⟩, rfl⟩
    · rw [Solution.blockIn, direction, way, far]
      rfl
    · rw [Solution.blockOut, direction, way, near]
      rfl

/-- Every solution that the solver returns satisfies the equations of its problem at every laid-out block. -/
theorem solve_balances [DecidableEq α] (normal : g.Normal) (solved : p.solve g = .ok sol) :
    ∀ b ∈ g.layout, ∃ start stop, sol.blockIn b = .ok start ∧ sol.blockOut b = .ok stop ∧
      p.Balanced g sol b start stop := fun _ member =>
  (solveWithin_solves solved).balanced (iterate_direction solved) ((mem_order normal.toLinked).2 member)

end Problem

/-- Each quadruple turns the value over, and of several predecessors the last one counts: the code is not
monotone, and the meet depends on the order. -/
def flipping : Problem Bool where
  direction := .forward
  stage := "flipping"
  boundary := true
  initial := false
  meet := fun _ v => v
  quad := fun _ v => !v
  tail := fun _ v => v

theorem flipping_balances : summing.graph.Normal ∧ ∃ sol, flipping.solve summing.graph = .ok sol ∧
    sol.sweeps = 2 ∧ ∀ b ∈ [0, 1, 2, 3], ∃ start stop, sol.blockIn b = .ok start ∧ sol.blockOut b = .ok stop ∧
      flipping.Balanced summing.graph sol b start stop := by
  have normal := summing.graph_normal rfl (by decide)
  have answers : (flipping.solve summing.graph).map (·.sweeps) = .ok 2 := by decide +kernel
  have laid : summing.graph.layout = [0, 1, 2, 3] := by decide +kernel
  obtain ⟨sol, solved, sweeps⟩ := map_eq_ok.1 answers
  exact ⟨normal, sol, solved, sweeps, laid ▸ flipping.solve_balances normal solved⟩

end Quadcode
