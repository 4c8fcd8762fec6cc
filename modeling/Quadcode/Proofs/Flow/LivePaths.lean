import Quadcode.Proofs.Flow.LivePoints
import Quadcode.Proofs.Flow.Termination
import Quadcode.Proofs.Graph.Normal

/-!
# Live variables and paths

A variable is live at a spot of a function when some path from there uses it before any quadruple
assigns it. The solver finds exactly these variables. Every solution contains them, by induction on
the path; and nothing else, because the sweeps start from empty sets and a visit adds a variable only
where a path bears it out.
-/

namespace Quadcode

open List Option Std.ExtTreeSet Quadcode.Graph Liveness Problem

variable {g : Graph}

/-! ## Paths -/

/-- A place between the steps of a function. The steps of a block are its quadruples and its tail;
`⟨b, i⟩` is before the `i`-th of them, and `⟨b, (g.body b).length + 1⟩` at the end of the block. -/
structure Spot where
  block : BlockId
  index : Nat

namespace Graph

/-- Control can pass from one spot to another. -/
inductive Flows (g : Graph) : Spot → Spot → Prop where
  | step {b : BlockId} {i : Nat} (inside : i ≤ (g.body b).length) : Flows g ⟨b, i⟩ ⟨b, i + 1⟩
  | edge {b c : BlockId} (leads : c ∈ g.targets b) : Flows g ⟨b, (g.body b).length + 1⟩ ⟨c, 0⟩

/-- The step after a spot assigns a variable. -/
def Assigns (g : Graph) (v : VarId) (s : Spot) : Prop := ∃ q, (g.body s.block)[s.index]? = some q ∧ q.result = some v

/-- What comes right after a spot uses a variable: a quadruple or a tail reads it, or the function
has returned and the variable is a global. -/
inductive Uses (g : Graph) (v : VarId) : Spot → Prop where
  | quad {b : BlockId} {i : Nat} {q : Quad} (here : (g.body b)[i]? = some q)
    (read : Liveness.Reads (.ofList g.globals) g.addressTaken q v) : Uses g v ⟨b, i⟩
  | tail {b : BlockId} (read : v ∈ (g.tail b).uses) : Uses g v ⟨b, (g.body b).length⟩
  | returned {b : BlockId} (returns : (g.tail b).isReturn) (global : v ∈ g.globals) :
    Uses g v ⟨b, (g.body b).length + 1⟩

/-- Some path from a spot uses a variable before any quadruple assigns it. -/
def LiveFrom (g : Graph) (v : VarId) (s : Spot) : Prop :=
  ∃ t, Relation.ReflTransGen (fun s t => g.Flows s t ∧ ¬g.Assigns v s) s t ∧ g.Uses v t

variable {v : VarId} {s t : Spot}

theorem Flows.mem_layout (linked : g.Linked) (flows : g.Flows s t) (member : s.block ∈ g.layout) :
    t.block ∈ g.layout := by
  cases flows with
  | step => exact member
  | edge leads => exact linked.target_mem member leads

variable {b : BlockId}

theorem uses_quad {i : Nat} {q : Quad} (here : (g.body b)[i]? = some q) :
    g.Uses v ⟨b, i⟩ ↔ Liveness.Reads (.ofList g.globals) g.addressTaken q v := by
  refine ⟨fun used => ?_, .quad here⟩
  have within := (List.getElem?_eq_some_iff.1 here).1
  generalize same : (⟨b, i⟩ : Spot) = s at used
  cases used with
  | quad here' read =>
    cases same
    exact Option.some.inj (here.symm.trans here') ▸ read
  | tail | returned =>
    cases same
    omega

theorem uses_tail : g.Uses v ⟨b, (g.body b).length⟩ ↔ v ∈ (g.tail b).uses := by
  refine ⟨fun used => ?_, .tail⟩
  generalize same : (⟨b, (g.body b).length⟩ : Spot) = s at used
  cases used with
  | quad here =>
    cases same
    cases (getElem?_eq_none le_rfl).symm.trans here
  | tail read =>
    cases same
    exact read
  | returned =>
    injection same with block index
    subst block
    omega

theorem not_assigns_of_ended {i : Nat} (ended : (g.body b)[i]? = none) : ¬g.Assigns v ⟨b, i⟩ := by
  rintro ⟨q, here, -⟩
  cases ended.symm.trans here

theorem Uses.liveFrom (used : g.Uses v s) : g.LiveFrom v s := ⟨s, .refl, used⟩

theorem LiveFrom.back (live : g.LiveFrom v t) (flows : g.Flows s t) (kept : ¬g.Assigns v s) : g.LiveFrom v s := by
  obtain ⟨u, path, used⟩ := live
  exact ⟨u, path.head ⟨flows, kept⟩, used⟩

end Graph

namespace Liveness

variable {near far : BlockMap VarSet} {b : BlockId} {i : Nat} {v : VarId} {s t : Spot}

/-- What a solution says at a spot. -/
def atSpot (g : Graph) (near : BlockMap VarSet) (s : Spot) : VarSet :=
  if s.index ≤ (g.body s.block).length then liveAt g near s.block s.index
  else near[s.block]?.getD ∅

theorem atSpot_start : atSpot g near ⟨b, 0⟩ = liveAt g near b 0 := if_pos (Nat.zero_le _)

theorem atSpot_end : atSpot g near ⟨b, (g.body b).length + 1⟩ = near[b]?.getD ∅ := if_neg (Nat.not_succ_le_self _)

/-- A step of a block: what is live before it is what it reads, and what is live after it and not
assigned by it. -/
theorem mem_atSpot (inside : i ≤ (g.body b).length) : v ∈ atSpot g near ⟨b, i⟩ ↔
      g.Uses v ⟨b, i⟩ ∨ (v ∈ atSpot g near ⟨b, i + 1⟩ ∧ ¬g.Assigns v ⟨b, i⟩) := by
  rw [atSpot, if_pos inside]
  rcases inside.lt_or_eq with within | rfl
  · have here : (g.body b)[i]? = some (g.body b)[i] := getElem?_eq_getElem within
    have assigns : g.Assigns v ⟨b, i⟩ ↔ (g.body b)[i].result = some v := by
      simp [Graph.Assigns, here]
    rw [mem_liveAt here, uses_quad here, assigns, or_comm, atSpot, if_pos (by exact within)]
  · have ended : (g.body b)[(g.body b).length]? = none := getElem?_eq_none le_rfl
    rw [mem_liveAt_end ended, uses_tail, or_comm, atSpot_end, and_iff_left (not_assigns_of_ended ended)]

/-! ## A solution contains every path -/

/-- What is used once a block has ended is live there. -/
theorem mem_near_of_return (linked : g.Linked) (solved : (problem g).Solves g near far) (member : b ∈ g.layout)
    (returns : (g.tail b).isReturn) (global : v ∈ g.globals) : v ∈ near[b]?.getD ∅ := by
  obtain ⟨w, gathered, found, -⟩ := solved b ((mem_order linked).2 member)
  rw [found, getD_some, inflow_of_gather gathered]
  refine inflow_holds (v ∈ ·) ?_ fun c _ w held => mem_union_iff.2 (.inl held)
  have boundary : (problem g).atBoundary g b = true := returns
  rw [if_pos boundary]
  exact mem_ofList.2 (contains_iff_mem.2 global)

theorem mem_atSpot_of_uses (linked : g.Linked) (solved : (problem g).Solves g near far) (member : s.block ∈ g.layout)
    (used : g.Uses v s) : v ∈ atSpot g near s := by
  cases used with
  | quad here read =>
    have inside := (List.getElem?_eq_some_iff.1 here).1
    exact (mem_atSpot inside.le).2 (.inl (.quad here read))
  | tail read => exact (mem_atSpot le_rfl).2 (.inl (.tail read))
  | returned returns global =>
    rw [atSpot_end]
    exact mem_near_of_return linked solved member returns global

theorem mem_atSpot_of_flows (linked : g.Linked) (solved : (problem g).Solves g near far) (member : s.block ∈ g.layout)
    (flows : g.Flows s t) (kept : ¬g.Assigns v s) (live : v ∈ atSpot g near t) : v ∈ atSpot g near s := by
  cases flows with
  | step inside => exact (mem_atSpot inside).2 (.inr ⟨live, kept⟩)
  | @edge b c leads =>
    rw [atSpot_start] at live
    rw [atSpot_end]
    exact mem_near_edge linked solved member leads live

theorem mem_atSpot_of_liveFrom (linked : g.Linked) (solved : (problem g).Solves g near far)
    (member : s.block ∈ g.layout) (live : g.LiveFrom v s) : v ∈ atSpot g near s := by
  obtain ⟨t, path, used⟩ := live
  induction path using Relation.ReflTransGen.head_induction_on with
  | refl => exact mem_atSpot_of_uses linked solved member used
  | head first _ ih =>
    obtain ⟨flows, kept⟩ := first
    have later := ih (flows.mem_layout linked member)
    exact mem_atSpot_of_flows linked solved member flows kept later

/-! ## A solution contains nothing else -/

/-- If paths bear out what is said at the end of a block, they bear out what its code makes of that. -/
theorem liveFrom_of_end (ended : ∀ v ∈ near[b]?.getD ∅, g.LiveFrom v ⟨b, (g.body b).length + 1⟩)
    (inside : i ≤ (g.body b).length + 1) (live : v ∈ atSpot g near ⟨b, i⟩) : g.LiveFrom v ⟨b, i⟩ := by
  induction inside using Nat.decreasingInduction with
  | self => exact ended v (atSpot_end ▸ live)
  | of_succ i within ih =>
    have inside : i ≤ (g.body b).length := Nat.le_of_lt_succ within
    rcases (mem_atSpot inside).1 live with used | ⟨later, kept⟩
    · exact used.liveFrom
    · exact (ih later).back (.step inside) kept

/-- What flows into the end of a block is borne out by paths if the far sides are. -/
theorem liveFrom_of_inflow (linked : g.Linked) {value : BlockId → VarSet} (member : b ∈ g.layout)
    (before : ∀ c, ∀ v ∈ value c, g.LiveFrom v ⟨c, 0⟩) :
    ∀ v ∈ (problem g).inflow g value b, g.LiveFrom v ⟨b, (g.body b).length + 1⟩ := by
  refine inflow_holds
    (fun live : VarSet => ∀ v ∈ live, g.LiveFrom v ⟨b, (g.body b).length + 1⟩) ?_ fun c edge live held v met => ?_
  · intro v initial
    split at initial
    next returns =>
      have global : v ∈ g.globals := contains_iff_mem.1 (mem_ofList.1 initial)
      exact (Graph.Uses.returned returns global).liveFrom
    · simp [problem] at initial
  · have kept : ¬g.Assigns v ⟨b, (g.body b).length + 1⟩ :=
      not_assigns_of_ended (getElem?_eq_none (Nat.le_succ _))
    rcases mem_union_iff.1 met with old | new
    · exact held v old
    · have leads : c ∈ g.targets b := linked.succs_eq member ▸ edge
      exact (before c v new).back (.edge leads) kept

variable {sol : Solution VarSet}

/-- Every variable in a far side is live at the top of the block. -/
theorem liveFrom_of_far (linked : g.Linked) (solved : g.liveness = .ok sol) (b : BlockId) :
    ∀ v ∈ (problem g).values sol.far b, g.LiveFrom v ⟨b, 0⟩ := by
  refine solveWithin_holds (fun b live => ∀ v ∈ live, g.LiveFrom v ⟨b, 0⟩) ?_ ?_ solved b
  · intro value b visited before v live
    have member := (mem_order linked).1 visited
    -- The visit is a walk through the block from the value it gathered.
    let near : BlockMap VarSet := (∅ : BlockMap VarSet).insert b ((problem g).inflow g value b)
    have found : near[b]?.getD ∅ = (problem g).inflow g value b := by
      simp [near]
    refine @liveFrom_of_end g near b 0 v ?_ (Nat.zero_le _) ?_
    · rw [found]
      exact liveFrom_of_inflow linked member before
    · rw [atSpot_start, liveAt, found]
      exact live
  · intro b v initial
    simp [problem] at initial

theorem liveFrom_of_mem_atSpot (linked : g.Linked) (solved : g.liveness = .ok sol) (member : b ∈ g.layout)
    (inside : i ≤ (g.body b).length + 1) (live : v ∈ atSpot g sol.near ⟨b, i⟩) : g.LiveFrom v ⟨b, i⟩ := by
  obtain ⟨w, gathered, found, -⟩ := solveWithin_solves solved b ((mem_order linked).2 member)
  refine liveFrom_of_end ?_ inside live
  rw [found, getD_some, inflow_of_gather gathered]
  exact liveFrom_of_inflow linked member (liveFrom_of_far linked solved)

/-- The sets of a solution are the variables that are live by a path. -/
theorem mem_atSpot_iff (linked : g.Linked) (solved : g.liveness = .ok sol) (member : b ∈ g.layout)
    (inside : i ≤ (g.body b).length + 1) : v ∈ atSpot g sol.near ⟨b, i⟩ ↔ g.LiveFrom v ⟨b, i⟩ :=
  ⟨liveFrom_of_mem_atSpot linked solved member inside, mem_atSpot_of_liveFrom linked (solveWithin_solves solved) member⟩

theorem points_atSpot {points : List VarSet} {live : VarSet} (given : g.livePoints sol b = .ok points)
    (there : points[i]? = some live) : i + 1 ≤ (g.body b).length + 1 ∧ live = atSpot g sol.near ⟨b, i + 1⟩ := by
  have bound : i < points.length := (List.getElem?_eq_some_iff.1 there).1
  rw [points_length given] at bound
  refine ⟨bound, Option.some.inj (there.symm.trans ?_)⟩
  rcases (Nat.le_of_lt_succ bound).lt_or_eq with within | rfl
  · rw [points_getElem? given (getElem?_eq_getElem within), atSpot, if_pos (by exact within)]
  · rw [points_getElem?_end given, atSpot_end]

theorem livePoints_ok (linked : g.Linked) (solved : g.liveness = .ok sol) (member : b ∈ g.layout) :
    ∃ points, g.livePoints sol b = .ok points := by
  obtain ⟨w, -, found, -⟩ := solveWithin_solves solved b ((mem_order linked).2 member)
  refine ⟨((problem g).pointsAfter (g.tail b) w (g.body b)).1, ?_⟩
  rw [Graph.livePoints, Problem.points, found]
  rfl

end Liveness

/-- The solver finds the variables that are live by a path: after each step of a block, and at its
top. -/
theorem Graph.liveness_eq_paths {g : Graph} (normal : g.Normal) {sol : Solution VarSet} (solved : g.liveness = .ok sol)
    {b : BlockId} (member : b ∈ g.layout) :
    (∃ points, g.livePoints sol b = .ok points ∧ points.length = (g.body b).length + 1 ∧
      ∀ i live, points[i]? = some live → ∀ v, v ∈ live ↔ g.LiveFrom v ⟨b, i + 1⟩) ∧
    ∃ live, sol.blockIn b = .ok live ∧ ∀ v, v ∈ live ↔ g.LiveFrom v ⟨b, 0⟩ := by
  have linked := normal.toLinked
  constructor
  · obtain ⟨points, given⟩ := livePoints_ok linked solved member
    refine ⟨points, given, points_length given, fun i live there v => ?_⟩
    obtain ⟨inside, rfl⟩ := points_atSpot given there
    exact mem_atSpot_iff linked solved member inside
  · refine ⟨_, blockIn_eq linked solved member, fun v => ?_⟩
    rw [← atSpot_start]
    exact mem_atSpot_iff linked solved member (Nat.zero_le _)

/-- The counter and the sum of the loop are live at its bottom, where another round may begin, and
neither is live at the top of the function. -/
theorem summing_live_paths : summing.graph.Normal ∧ 2 ∈ summing.graph.layout ∧
    0 ∈ summing.graph.layout ∧ (∃ sol, summing.graph.liveness = .ok sol) ∧
    (summing.graph.LiveFrom 1 ⟨2, 3⟩ ∧ summing.graph.LiveFrom 2 ⟨2, 3⟩) ∧
    ¬summing.graph.LiveFrom 1 ⟨0, 0⟩ ∧ ¬summing.graph.LiveFrom 2 ⟨0, 0⟩ := by
  have normal := summing.graph_normal rfl (by decide)
  have bottom : 2 ∈ summing.graph.layout := by decide +kernel
  have top : 0 ∈ summing.graph.layout := by decide +kernel
  have answers : (summing.graph.liveness.bind fun sol => do
      pure ((← summing.graph.livePoints sol 2)[2]?.map (·.toList), (← sol.blockIn 0).toList)) =
        .ok (some [0, 1, 2], [0]) := by decide +kernel
  obtain ⟨sol, solved, answers⟩ := bind_eq_ok.1 answers
  simp only [bind_eq_ok, pure_eq_ok, Prod.mk.injEq] at answers
  obtain ⟨points, given, start, entered, there, first⟩ := answers
  obtain ⟨⟨points', given', -, after⟩, -⟩ := liveness_eq_paths normal solved bottom
  obtain ⟨-, start', entered', before⟩ := liveness_eq_paths normal solved top
  obtain rfl : points = points' := Except.ok.inj (given.symm.trans given')
  obtain rfl : start = start' := Except.ok.inj (entered.symm.trans entered')
  obtain ⟨live, there, listed⟩ := map_eq_some_iff.1 there
  have mem_live : ∀ v, v ∈ [0, 1, 2] ↔ summing.graph.LiveFrom v ⟨2, 3⟩ := fun v =>
    listed ▸ mem_toList.trans (after 2 live there v)
  have mem_start : ∀ v, v ∈ [0] ↔ summing.graph.LiveFrom v ⟨0, 0⟩ := fun v =>
    first ▸ mem_toList.trans (before v)
  refine ⟨normal, bottom, top, ⟨sol, solved⟩, ⟨?_, ?_⟩, ?_, ?_⟩
  · exact (mem_live 1).1 (by decide)
  · exact (mem_live 2).1 (by decide)
  · exact mt (mem_start 1).2 (by decide)
  · exact mt (mem_start 2).2 (by decide)

end Quadcode
