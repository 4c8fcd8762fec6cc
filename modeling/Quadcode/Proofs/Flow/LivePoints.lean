import Quadcode.Proofs.Flow.Liveness

/-!
# Live variables at the points of a block

A solution says what is live at the end of each block, and the code of the block takes that to each
point before. What is live where a block is entered is live at the end of every block that leads
there.
-/

namespace Quadcode.Liveness

open List Option Std.ExtTreeSet Problem

variable {g : Graph} {near far : BlockMap VarSet} {b c : BlockId} {i : Nat} {q : Quad} {v : VarId}

/-- What a solution says before the `i`-th quadruple of a block. -/
def liveAt (g : Graph) (near : BlockMap VarSet) (b : BlockId) (i : Nat) : VarSet :=
  ((g.body b).drop i).foldr (problem g).quad ((problem g).tail (g.tail b) (near[b]?.getD ∅))

theorem liveAt_eq (here : (g.body b)[i]? = some q) :
    liveAt g near b i = (problem g).quad q (liveAt g near b (i + 1)) := by
  obtain ⟨inside, rfl⟩ := List.getElem?_eq_some_iff.1 here
  rw [liveAt, drop_eq_getElem_cons inside]
  rfl

theorem mem_liveAt (here : (g.body b)[i]? = some q) :
    v ∈ liveAt g near b i ↔ (v ∈ liveAt g near b (i + 1) ∧ q.result ≠ some v) ∨
      Reads (.ofList g.globals) g.addressTaken q v := by
  rw [liveAt_eq here]
  exact mem_before

theorem mem_liveAt_end (ended : (g.body b)[i]? = none) :
    v ∈ liveAt g near b i ↔ v ∈ near[b]?.getD ∅ ∨ v ∈ (g.tail b).uses := by
  rw [liveAt, drop_of_length_le (getElem?_eq_none_iff.1 ended)]
  exact VarSet.mem_addAll

theorem pointsAfter_eq (tail : Tail) (live : VarSet) (body : List Quad) : ((problem g).pointsAfter tail live body).2 =
      body.foldr (problem g).quad ((problem g).tail tail live) := by
  induction body with
  | nil => rfl
  | cons q rest ih =>
    rw [pointsAfter, foldr_cons, ← ih]

variable {s : Solution VarSet} {points : List VarSet}

/-- The sets after the quadruples are those before what follows them. -/
theorem points_getElem? (given : (problem g).points g s b = .ok points) (here : (g.body b)[i]? = some q) :
    points[i]? = some (liveAt g s.near b (i + 1)) := by
  unfold Problem.points at given
  simp only [problem, bind_eq_ok, orFault_eq_ok, pure_eq_ok] at given
  obtain ⟨live, found, rfl⟩ := given
  rw [liveAt, found, getD_some]
  change ((problem g).pointsAfter _ _ _).1[i]? = _
  generalize g.body b = body at here
  induction body generalizing i with
  | nil => cases here
  | cons q rest ih =>
    cases i with
    | zero =>
      rw [pointsAfter, getElem?_cons_zero, pointsAfter_eq]
      rfl
    | succ i => exact ih here

/-- The set after the tail is what the solution says at the end of the block. -/
theorem points_getElem?_end (given : (problem g).points g s b = .ok points) :
    points[(g.body b).length]? = some (s.near[b]?.getD ∅) := by
  unfold Problem.points at given
  simp only [problem, bind_eq_ok, orFault_eq_ok, pure_eq_ok] at given
  obtain ⟨live, found, rfl⟩ := given
  rw [found, getD_some]
  change ((problem g).pointsAfter _ _ _).1[_]? = _
  generalize g.body b = body
  induction body with
  | nil => rfl
  | cons q rest ih => exact ih

/-- What is live where a tail leads is live at the end of its block. -/
theorem mem_near_edge (linked : g.Linked) (solved : (problem g).Solves g near far) (member : b ∈ g.layout)
    (edge : c ∈ g.targets b) (live : v ∈ liveAt g near c 0) : v ∈ near[b]?.getD ∅ := by
  obtain ⟨w, gathered, found, -⟩ := solved b ((mem_order linked).2 member)
  obtain ⟨u, -, found', passed⟩ := solved c ((mem_order linked).2 (linked.target_mem member edge))
  have neighbour : c ∈ (problem g).neighbours g b := by
    change c ∈ g.succs b
    rwa [linked.succs_eq member]
  have value : (problem g).values far c = liveAt g near c 0 := by
    rw [values, passed, liveAt, found']
    rfl
  rw [found, getD_some, inflow_of_gather gathered]
  refine inflow_of_neighbour (v ∈ ·) neighbour ?_ ?_
  · exact fun w => mem_union_iff.2 (.inr (value ▸ live))
  · exact fun w w' held => mem_union_iff.2 (.inl held)

/-- What is live where a tail leads is live before it. -/
theorem mem_liveAt_edge (linked : g.Linked) (solved : (problem g).Solves g near far) (member : b ∈ g.layout)
    (edge : c ∈ g.targets b) (ended : (g.body b)[i]? = none) (live : v ∈ liveAt g near c 0) : v ∈ liveAt g near b i :=
  (mem_liveAt_end ended).2 (.inl (mem_near_edge linked solved member edge live))

theorem blockIn_eq (linked : g.Linked) (solved : g.liveness = .ok s) (member : b ∈ g.layout) :
    s.blockIn b = .ok (liveAt g s.near b 0) := by
  have direction : s.direction = .backward := iterate_direction solved
  obtain ⟨u, -, found, passed⟩ := solveWithin_solves solved b ((mem_order linked).2 member)
  rw [Solution.blockIn, direction, liveAt, found, drop_zero]
  simp only [passed]
  rfl

end Quadcode.Liveness
