import Quadcode.Flow.Dataflow
import Quadcode.Proofs.Graph.Edges
import Quadcode.Proofs.Outcome

/-!
# Solutions satisfy the equations

The solver stops at a sweep that changed no far side. All near values of that sweep were gathered
from the same far sides, so the two together satisfy the equations, and another sweep would leave
both as they are.
-/

namespace Quadcode

variable {b : BlockId} {α : Type} {p : Problem α} {g : Graph}

/-- One entry of a map after a write. -/
theorem BlockMap.getElem?_insert (m : BlockMap α) (b c : BlockId) (a : α) :
    (m.insert b a)[c]? = if b = c then some a else m[c]? := by
  rw [Std.ExtTreeMap.getElem?_insert]
  simp only [Nat.compare_eq_eq]

theorem BlockMap.insert_eq_self {m : BlockMap α} {a : α} (present : m[b]? = some a) : m.insert b a = m := by
  apply Std.ExtTreeMap.ext_getElem?
  intro c
  rw [BlockMap.getElem?_insert]
  split
  next same => rw [← same, present]
  · rfl

theorem BlockMap.getElem?_foldl_insert (l : List BlockId) (v : α) (m : BlockMap α) (b : BlockId) :
    (l.foldl (fun m b => m.insert b v) m)[b]? = if b ∈ l then some v else m[b]? := by
  induction l generalizing m with
  | nil => simp
  | cons c rest ih =>
    rw [List.foldl_cons, ih, BlockMap.getElem?_insert]
    by_cases member : b ∈ rest
    · simp [member]
    · simp [member, eq_comm (a := c)]

/-- There is one point more than there are quadruples. -/
theorem Problem.points_length {s : Solution α} {points : List α} (found : p.points g s b = .ok points) :
    points.length = (g.body b).length + 1 := by
  have before (quads : List Quad) (v : α) : (p.pointsBefore quads v).length = quads.length + 1 := by
    induction quads generalizing v with
    | nil => rfl
    | cons q rest ih => rw [pointsBefore, List.length_cons, ih, List.length_cons]
  have after (quads : List Quad) (v : α) : (p.pointsAfter (g.tail b) v quads).1.length = quads.length + 1 := by
    induction quads with
    | nil => rfl
    | cons q rest ih => rw [pointsAfter, List.length_cons, ih, List.length_cons]
  unfold Problem.points at found
  split at found
  all_goals
    simp only [bind_eq_ok, pure_eq_ok] at found
    obtain ⟨v, -, rfl⟩ := found
  · exact before _ v
  · exact after _ v

namespace Problem

/-- The near value of each block is gathered from the far sides, and its code takes it to its own
far side. -/
def Solves (p : Problem α) (g : Graph) (near far : BlockMap α) : Prop :=
  ∀ b ∈ p.order g, ∃ v, p.gather g far b = .ok v ∧ near[b]? = some v ∧ far[b]? = some (p.through g b v)

theorem mem_order (linked : g.Linked) : b ∈ p.order g ↔ b ∈ g.layout := by
  rw [← linked.mem_reversePostorder, order]
  cases p.direction with
  | forward => rfl
  | backward => exact List.mem_reverse

theorem order_nodup (linked : g.Linked) : (p.order g).Nodup := by
  rw [order]
  cases p.direction with
  | forward => exact linked.inside.reversePostorder_nodup
  | backward => exact List.nodup_reverse.2 linked.inside.reversePostorder_nodup

/-- What flows into a laid-out block comes from laid-out blocks. -/
theorem neighbour_mem (linked : g.Linked) {c : BlockId} (member : b ∈ g.layout) (edge : c ∈ p.neighbours g b) :
    c ∈ g.layout := by
  unfold neighbours at edge
  split at edge
  · exact ((linked.mem_preds b member c).1 edge).1
  · exact linked.target_mem member (linked.succs_eq member ▸ edge)

section Sweeps

variable [DecidableEq α] {near far : BlockMap α} {s s' : Sweep α}

/-- What visiting a block did. -/
theorem visit_eq_ok : p.visit g s b = .ok s' ↔ ∃ v, p.gather g s.far b = .ok v ∧
      s' = ⟨s.near.insert b v, s.far.insert b (p.through g b v),
        s.changed || decide (s.far[b]? ≠ some (p.through g b v))⟩ := by
  unfold visit
  simp only [bind_eq_ok]
  refine exists_congr fun v => and_congr_right fun _ => ?_
  split
  next same => simp [BlockMap.insert_eq_self same, same, eq_comm (b := s')]
  next different => simp [different, eq_comm (b := s')]

/-- A sweep that changed nothing found a solution. -/
theorem sweep_solves (quiet : p.sweep g near far = .ok s) (unchanged : s.changed = false) :
    p.Solves g s.near s.far := by
  have loop := foldlM_ok (fun done t => t.changed = false → t.far = far ∧ ∀ b ∈ done, ∃ v,
      p.gather g far b = .ok v ∧ t.near[b]? = some v ∧ far[b]? = some (p.through g b v))
    (by simp) ?_ quiet
  · obtain ⟨same, all⟩ := loop unchanged
    rw [same]
    exact all
  · intro done b rest t t' _ before step
    obtain ⟨v, gathered, rfl⟩ := visit_eq_ok.1 step
    simp only [Bool.or_eq_false_iff, decide_eq_false_iff_not, not_not]
    rintro ⟨quiet, same⟩
    obtain ⟨rfl, all⟩ := before quiet
    refine ⟨BlockMap.insert_eq_self same, fun c member => ?_⟩
    by_cases here : b = c
    · subst here
      exact ⟨v, gathered, by simp, same⟩
    · have earlier : c ∈ done := by
        rcases List.mem_append.1 member with earlier | last
        · exact earlier
        · exact absurd (List.mem_singleton.1 last).symm here
      obtain ⟨u, gathered', nearside, farside⟩ := all c earlier
      exact ⟨u, gathered', by rw [BlockMap.getElem?_insert, if_neg here, nearside], farside⟩

/-- Sweeping over a solution changes neither side. -/
theorem Solves.sweep (solved : p.Solves g near far) : p.sweep g near far = .ok ⟨near, far, false⟩ := by
  have step : ∀ done b rest s, p.order g = done ++ b :: rest → s = ⟨near, far, false⟩ →
      ∃ s', p.visit g s b = .ok s' ∧ s' = ⟨near, far, false⟩ := by
    rintro done b rest s split rfl
    obtain ⟨v, gathered, nearside, farside⟩ := solved b (by simp [split])
    refine ⟨_, visit_eq_ok.2 ⟨v, gathered, rfl⟩, ?_⟩
    simp [BlockMap.insert_eq_self nearside, BlockMap.insert_eq_self farside, farside]
  obtain ⟨s, run, rfl⟩ := foldlM_succeeds (fun _ (s : Sweep α) => s = ⟨near, far, false⟩) rfl step
  exact run

variable {rest done : Nat} {sol : Solution α}

theorem iterate_solves (solved : p.iterate g rest done near far = .ok sol) : p.Solves g sol.near sol.far := by
  induction rest generalizing done near far with (
    unfold iterate at solved
    obtain ⟨s, run, last⟩ := bind_eq_ok.1 solved)
  | zero =>
    split at last
    · cases last
    next quiet =>
      cases last
      exact sweep_solves run (by simpa using quiet)
  | succ rest ih =>
    split at last
    · exact ih last
    next quiet =>
      cases last
      exact sweep_solves run (by simpa using quiet)

/-- An iteration that ends does so whatever more it is allowed. -/
theorem iterate_more {more : Nat} (solved : p.iterate g rest done near far = .ok sol) :
    p.iterate g (rest + more) done near far = .ok sol := by
  induction rest generalizing done near far with
  | zero =>
    unfold iterate at solved ⊢
    obtain ⟨s, run, last⟩ := bind_eq_ok.1 solved
    rw [run]
    split at last
    · cases last
    next quiet => exact (if_neg quiet).trans last
  | succ rest ih =>
    rw [Nat.add_right_comm]
    unfold iterate at solved ⊢
    obtain ⟨s, run, last⟩ := bind_eq_ok.1 solved
    rw [run]
    split at last
    next changed => exact (if_pos changed).trans (ih last)
    next quiet => exact (if_neg quiet).trans last

theorem solveWithin_solves {limit : Nat} (solved : p.solveWithin g limit = .ok sol) : p.Solves g sol.near sol.far :=
  iterate_solves solved

theorem iterate_direction (solved : p.iterate g rest done near far = .ok sol) : sol.direction = p.direction := by
  induction rest generalizing done near far with (
    unfold iterate at solved
    obtain ⟨s, -, last⟩ := bind_eq_ok.1 solved)
  | zero =>
    split at last
    · cases last
    · cases last
      rfl
  | succ rest ih =>
    split at last
    · exact ih last
    · cases last
      rfl

end Sweeps

end Problem

end Quadcode
