import Quadcode.Proofs.Eval.Tracing
import Quadcode.Proofs.Flow.ConstantPoints
import Quadcode.Proofs.Graph.Normal

/-!
# Constant facts in programs without stores

Variables change only by assignment where no quadruple stores to memory. Then nothing happens behind
the back of the analysis, and its facts are true wherever any run comes, whatever undefined values it
reads and whatever pointers it follows.
-/

namespace Quadcode

open List Problem

variable {g : Graph} {strings : StringPool} {b : BlockId} {offset : Nat} {x : Value}

/-! ## Code that does not store -/

/-- The operation writes to memory. -/
def Op.isStore : Op → Bool
  | .store .. | .derefStore .. => true
  | _ => false

/-- No block that control can come to has a store. -/
def Graph.StoreFree (g : Graph) : Prop := ∀ b, g.Reaches g.entry b → ∀ q ∈ g.body b, q.op.isStore = false

theorem Graph.storeFree_of_blocks (plain : ∀ block ∈ g.blocks, ∀ q ∈ block.body, q.op.isStore = false) :
    g.StoreFree := by
  intro b _ q member
  by_cases inside : b < g.blocks.size
  · refine plain g.blocks[b] (Array.getElem_mem inside) q ?_
    simpa [Graph.body, Graph.block, inside] using member
  · rw [show g.body b = [] by simp [Graph.body, Graph.block, inside]; rfl] at member
    cases member

theorem Machine.isStore_of_write {m : Machine} {op : Op} {p : Place}
    (stored : m.effect strings g op = .ok (.write p offset x)) : op.isStore = true := by
  cases op with
  | store | derefStore => rfl
  | print value =>
    simp only [effect, bind_eq_ok] at stored
    obtain ⟨y, -, printed⟩ := stored
    cases y <;> simp at printed
  | read =>
    simp only [effect] at stored
    split at stored <;> simp at stored
  | _ => simp [effect] at stored

/-! ## Points of a run -/

/-- The point is in the code of a function of the program, at a place that control can come to. -/
structure Point.Within (program : Module) (p : Point) : Prop where
  listed : p.graph ∈ program.graphs
  reached : p.graph.Reaches p.graph.entry p.block
  index_le : p.index ≤ (p.graph.body p.block).length

namespace Point

variable {program : Module} {p r : Point}

theorem within_start {name : Label} {h : Graph} (found : program.graph? name = some h) (callers : List Graph)
    (m : Machine) (frame : Frame) : (start callers h m frame).Within program :=
  ⟨mem_of_find?_eq_some found, .refl, Nat.zero_le _⟩

variable (within : p.Within program) {q : Quad}
include within

theorem Within.goto (jumped : p.machine.tick.next p.graph p.tail = .ok (.inl b)) : (p.goto b).Within program :=
  ⟨within.listed, within.reached.tail (Machine.next_target jumped), Nat.zero_le _⟩

theorem Within.advance (next : p.quad? = some q) (m : Machine) : (p.advance m).Within program :=
  ⟨within.listed, within.reached, (List.getElem?_eq_some_iff.1 next).1⟩

/-- A run stays in the code of the program. -/
theorem Within.visits (visits : Visits program p r) : r.Within program := by
  induction visits with
  | here => exact within
  | jump _ _ jumped _ ih => exact ih (within.goto jumped)
  | act next _ _ _ _ ih => exact ih (within.advance next _)
  | into _ _ _ _ found _ _ ih => exact ih (within_start found _ _ _)
  | past next _ _ _ _ _ _ _ _ ih => exact ih (within.advance next _)

variable (plain : ∀ h ∈ program.graphs, h.StoreFree)
include plain

/-- Where there are no stores, nothing is stored. -/
theorem Within.not_write (next : p.quad? = some q) {place : Place}
    : p.machine.effect strings p.graph q.op ≠ .ok (.write place offset x) := by
  intro stored
  have store := Machine.isStore_of_write stored
  rw [plain p.graph within.listed p.block within.reached q (mem_of_getElem? next)] at store
  cases store

theorem Within.contained : p.Contained ∅ program.strings :=
  fun _ next _ _ _ stored => (within.not_write plain next stored).elim

theorem Within.noticed (g : Graph) (near : BlockMap Facts) : Constants.Noticed program g near p := by
  intro here q next v _ overwrites
  unfold Machine.overwrites at overwrites
  split at overwrites
  next stored =>
    rw [← here] at stored
    exact (within.not_write plain next stored).elim
  · cases overwrites

end Point

/-! ## The facts of a solution -/

namespace Constants

variable {i : Nat} {sol : Solution Facts}

theorem pointsBefore_getElem? {body : List Quad} {facts : Facts} (inside : i ≤ body.length) :
    ((problem g).pointsBefore body facts)[i]? = some (upTo g (body.take i) facts) := by
  induction body generalizing i facts with
  | nil =>
    obtain rfl : i = 0 := Nat.le_zero.1 inside
    rfl
  | cons q rest ih =>
    cases i with
    | zero => rfl
    | succ i =>
      rw [Problem.pointsBefore, getElem?_cons_succ, ih (Nat.le_of_succ_le_succ inside)]
      rfl

/-- The facts before the quadruples of a block and before its tail. -/
theorem points_eq (linked : g.Linked) (solved : g.constants = .ok sol) (member : b ∈ g.layout) :
    ∃ points, g.constantPoints sol b = .ok points ∧
      ∀ i ≤ (g.body b).length, points[i]? = some (factsAt g sol.near b i) := by
  obtain ⟨facts, -, found, -⟩ := solveWithin_solves solved b ((mem_order linked).2 member)
  refine ⟨(problem g).pointsBefore (g.body b) facts, ?_, fun i inside => ?_⟩
  · rw [Graph.constantPoints, Problem.points, found]
    rfl
  · rw [pointsBefore_getElem? inside, factsAt, found, Option.getD_some]

end Constants

/-- Wherever a run of a program without stores comes in a function, each variable is as the facts of
that point say: undefined or the constant if they know a constant, and undefined if they know of no
assignment. -/
theorem Module.constants_true {program : Module} (plain : ∀ h ∈ program.graphs, h.StoreFree) {g : Graph}
    (normal : g.Normal) (once : g.NamesGlobalsOnce) {sol : Solution Facts} (solved : g.constants = .ok sol)
    {entry : Label} {args : List Value} {input : List Int32} {p : Point} (comes : program.Comes entry args input p)
    (here : p.graph = g) :
    ∃ points facts, g.constantPoints sol p.block = .ok points ∧ points[p.index]? = some facts ∧
      ∀ v x, p.machine.varValue g v = .ok x → (∀ c, facts.lookup v = .constant c → x = .undef ∨ x = .ofConst c) ∧
        (facts.lookup v = .unknown → x = .undef) := by
  have linked := normal.toLinked
  have equations := solveWithin_solves solved
  obtain ⟨m, h, frame, started, found, entered, visits⟩ := comes
  have within : ∀ r, Visits program (.start [] h m frame) r → r.Within program :=
    fun r visits => (Point.within_start found [] m frame).visits visits
  have holds : Constants.TrueAt g sol.near p :=
    (Constants.trueAt_start linked equations entered [] m).visits_contained linked once equations
      visits (Point.framed_start started h frame) fun r visits =>
        ⟨(within r visits).contained plain, (within r visits).noticed plain g sol.near⟩
  obtain ⟨member, hold⟩ := holds here
  obtain ⟨points, given, all⟩ := Constants.points_eq linked solved member
  have inside := (within p visits).index_le
  rw [here] at inside
  refine ⟨points, _, given, all p.index inside, fun v x valued => ?_⟩
  have admitted := hold v x valued
  constructor
  · intro c constant
    rw [constant] at admitted
    exact admitted.symm
  · intro unknown
    rw [unknown] at admitted
    exact admitted

/-- Adds 2 to the global `total` as often as `n` says, by recursion. The variables `n`, `total`,
`step`, `rest` and `spare` are 0 to 4, and nothing assigns `spare`. -/
def doubling : Function where
  name := "doubling"
  vars := #[.declare "n" .int .param, .declare "total" .int .global, .declare "step" .int .local,
    .declare "rest" .int .local, .declare "spare" .int .local]
  params := [0]
  quads := [
    ⟨some 2, .assign (.const (.int 2))⟩,
    .effect (.jumpIf .lt (.var 0) (.const (.int 1)) "done"),
    ⟨some 3, .binOp .sub (.var 0) (.const (.int 1))⟩,
    .effect (.call "doubling" [.var 3]),
    ⟨some 1, .binOp .add (.var 1) (.var 2)⟩,
    .effect (.label "done"),
    .effect (.ret (some (.var 1)))]

def doublings : Module := ⟨[⟨"total", .int, none⟩], .empty, [doubling.graph]⟩

/-- Behind the call in an inner activation, the step is known and the spare variable unassigned. -/
theorem doubling_constants_true : (∀ h ∈ doublings.graphs, h.StoreFree) ∧ doubling.graph.Normal ∧
    doubling.graph.NamesGlobalsOnce ∧ ∃ sol p, doubling.graph.constants = .ok sol ∧
      doublings.Comes "doubling" [.int 2] [] p ∧
      (p.graph = doubling.graph ∧ p.callers.length = 1 ∧ p.block = 2 ∧ p.index = 0) ∧
      ∃ points facts, doubling.graph.constantPoints sol p.block = .ok points ∧ points[p.index]? = some facts ∧
        (facts.lookup 2 = .constant (.int 2) ∧ facts.lookup 4 = .unknown) ∧
        ∀ v x, p.machine.varValue doubling.graph v = .ok x →
          (∀ c, facts.lookup v = .constant c → x = .undef ∨ x = .ofConst c) ∧
          (facts.lookup v = .unknown → x = .undef) := by
  have plain : ∀ h ∈ doublings.graphs, h.StoreFree := by
    intro h listed
    obtain rfl : h = doubling.graph := mem_singleton.1 listed
    exact Graph.storeFree_of_blocks (by decide +kernel)
  have normal := doubling.graph_normal rfl (by decide)
  have once : doubling.graph.NamesGlobalsOnce := by decide +kernel
  have answers : (doubling.graph.constants.bind fun sol => do
      pure ((← doubling.graph.constantPoints sol 2)[0]?.map fun facts =>
        (facts.lookup 2, facts.lookup 4))) = .ok (some (.constant (.int 2), .unknown)) := by
    decide +kernel
  have listed : ∃ p ∈ doublings.trace "doubling" [.int 2] [],
      p.graph = doubling.graph ∧ p.callers.length = 1 ∧ p.block = 2 ∧ p.index = 0 := by
    decide +kernel
  obtain ⟨sol, solved, known⟩ := bind_eq_ok.1 answers
  obtain ⟨p, member, here, depth, block, index⟩ := listed
  have comes := Module.Comes.of_mem_trace member
  obtain ⟨points, facts, given, there, true_⟩ :=
    Module.constants_true plain normal once solved comes here
  refine ⟨plain, normal, once, sol, p, solved, comes, ⟨here, depth, block, index⟩, points, facts, given,
    there, ?_, true_⟩
  rw [block] at given
  rw [index] at there
  rw [given] at known
  simpa [there] using known

end Quadcode
