import Quadcode.Flow.Loops
import Quadcode.Proofs.Graph.Edges
import Quadcode.Proofs.Outcome

/-!
# Headers

The header of a loop belongs to the loop, and to the layout of a graph with fresh edges.
-/

namespace Quadcode

open Array Std.ExtTreeSet

variable {g : Graph} {d : Dominators} {l : Loop}

/-- What was entered stays entered. -/
theorem Walk.mem_entered_visit {next : BlockId → List BlockId} {depth : Nat} {b x : BlockId} {w : Walk}
    (entered : x ∈ w.entered) : x ∈ (visit next depth b w).entered := by
  induction depth generalizing b w with
  | zero => exact entered
  | succ depth ih =>
    rw [visit]
    split
    · exact entered
    · refine List.foldlRecOn (motive := fun w : Walk => x ∈ w.entered) _ _ ?_
        fun w before s _ => ih before
      exact mem_insert.2 (.inr entered)

theorem Dominators.compute_order (computed : compute g = .ok d) : d.order = g.reversePostorder.toArray := by
  simp only [compute, bind_eq_ok, pure_eq_ok] at computed
  obtain ⟨_, -, _, -, rfl⟩ := computed
  rfl

namespace Loops

theorem header_mem_naturalLoop (g : Graph) (header latch : BlockId) : header ∈ naturalLoop g header latch :=
  Walk.mem_entered_visit mem_insert_self

/-- A loop whose header is in it, behind one of some blocks. -/
structure Headed (g : Graph) (blocks : List BlockId) (l : Loop) : Prop where
  inside : l.header ∈ l.blocks
  behind : ∃ b ∈ blocks, l.header ∈ g.succs b

theorem addEdge_headed {blocks : List BlockId} {loops : Array Loop} {header latch : BlockId}
    (old : ∀ l ∈ loops, Headed g blocks l) (member : latch ∈ blocks) (edge : header ∈ g.succs latch) :
    ∀ l ∈ addEdge g loops header latch, Headed g blocks l := by
  intro l listed
  unfold addEdge at listed
  dsimp only at listed
  split at listed
  · obtain ⟨i, bound, rfl⟩ := getElem_of_mem listed
    rw [getElem_modify]
    rw [size_modify] at bound
    have headed := old _ (getElem_mem bound)
    split
    · exact ⟨mem_union_iff.2 (.inl headed.inside), headed.behind⟩
    · exact headed
  · rcases mem_push.1 listed with before | rfl
    · exact old l before
    · exact ⟨header_mem_naturalLoop g header latch, latch, member, edge⟩

theorem detect_headed (member : l ∈ (detect g d).toList) : Headed g d.order.toList l := by
  let loops := d.order.foldl (fun loops b =>
    (g.succs b).foldl (fun loops h =>
      if d.dominates h b then addEdge g loops h b else loops) loops) #[]
  have found : ∀ l ∈ loops, Headed g d.order.toList l := by
    unfold loops
    rw [← foldl_toList]
    refine List.foldlRecOn (motive := fun loops : Array Loop => ∀ l ∈ loops, Headed g d.order.toList l)
      _ _ (by simp) fun loops old b listed => ?_
    refine List.foldlRecOn (motive := fun loops : Array Loop => ∀ l ∈ loops, Headed g d.order.toList l)
      _ _ old fun loops old h edge => ?_
    split
    · exact addEdge_headed old listed edge
    · exact old
  obtain ⟨i, bound, rfl⟩ := mem_mapIdx.1 (mem_toList_iff.1 member)
  have headed := found _ (getElem_mem bound)
  exact ⟨headed.inside, headed.behind⟩

end Loops

namespace Graph

/-- A loop of a graph. -/
def HasLoop (g : Graph) (l : Loop) : Prop := ∃ d, g.dominators = .ok d ∧ l ∈ (Loops.detect g d).toList

namespace HasLoop

variable (loop : g.HasLoop l)
include loop

theorem header_mem : l.header ∈ l.blocks := by
  obtain ⟨d, -, member⟩ := loop
  exact (Loops.detect_headed member).inside

theorem header_mem_layout (linked : g.Linked) : l.header ∈ g.layout := by
  obtain ⟨d, computed, member⟩ := loop
  obtain ⟨b, listed, edge⟩ := (Loops.detect_headed member).behind
  rw [Dominators.compute_order computed, List.toList_toArray, linked.mem_reversePostorder] at listed
  rw [linked.succs_eq listed] at edge
  exact linked.target_mem listed edge

end HasLoop

end Graph

end Quadcode
