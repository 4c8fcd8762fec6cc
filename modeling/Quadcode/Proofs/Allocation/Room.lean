import Quadcode.Proofs.Allocation.Assignment
import Quadcode.Proofs.Flow.Dominators
import Quadcode.Proofs.Lowering.Reports
import Quadcode.Proofs.Optimizer.LoopPasses

/-!
# Room for variables

Where sizes are known and keep clear of the limit, every frame is laid out or reported.
-/

namespace Quadcode

open Liveness Allocation Interference

open X86 (slotBytes argumentBase calleeSaved)

section Places

variable {g : Graph} {live : Solution VarSet} {loops : Loops} {v : VarId} {b : BlockId}

/-- Sweeps that come to an end are given up before that at worst. -/
theorem Problem.calm_iterate {α : Type} [DecidableEq α] {p : Problem α} {rest more done : Nat} {near far : BlockMap α}
    {sol : Solution α} (solved : p.iterate g (rest + more) done near far = .ok sol) :
    Calm (p.iterate g rest done near far) := by
  induction rest generalizing done near far with
  | zero =>
    unfold iterate at solved ⊢
    obtain ⟨s, run, -⟩ := bind_eq_ok.1 solved
    simp [run]
  | succ rest ih =>
    rw [Nat.add_right_comm] at solved
    unfold iterate at solved ⊢
    obtain ⟨s, run, last⟩ := bind_eq_ok.1 solved
    rw [run]
    split at last
    next changed => simpa [changed, bind, Except.bind] using ih last
    next quiet => simp [quiet, bind, Except.bind]

theorem calm_liveness (linked : g.Linked) : Calm g.liveness := by
  obtain ⟨limit, sol, solved, -⟩ := (ascent linked).converges linked
  have solved := solved sweepLimit
  rw [Nat.add_comm] at solved
  exact Problem.calm_iterate solved

theorem calm_dominators (linked : g.Linked) : Calm g.dominators := by
  unfold Graph.dominators
  rcases Dominators.compute_ends linked with ⟨sets, computed, -⟩ | ⟨sweeps, computed⟩
  · simp [computed]
  · simp [computed, Dominators.fail]

section Solved

variable (linked : g.Linked) (solved : g.liveness = .ok live)
include linked solved

theorem calm_build (candidates : VarSet) : Calm (build g live candidates) := by
  have entry {b : BlockId} (member : b ∈ g.layout) := blockIn_eq linked solved member
  have blocks (i : Interference) : Calm (g.layout.foldlM (block candidates g (problem g) live) i) := by
    refine calm_foldlM (fun b member i => ?_) i
    obtain ⟨points, pointed⟩ := livePoints_ok linked solved member
    rw [Graph.livePoints] at pointed
    simp [block, entry member, pointed]
  simp only [build]
  split <;> simp [entry linked.entry_mem, blocks]

theorem calm_order (candidates : VarSet) : Calm (Priority.order g live loops candidates) := by
  simp only [Priority.order, failsOnly_bind, FailsOnly.pure, implies_true, and_true]
  refine calm_foldlM (fun b member t => ?_) _
  obtain ⟨points, pointed⟩ := livePoints_ok linked solved member
  rw [Graph.livePoints] at pointed
  simp [Priority.Tally.block, pointed]

end Solved

/-- The element that a quadruple reads or writes, where its index is known. -/
def Quad.element? (q : Quad) : Option (VarId × Int32) :=
  match q.op with
  | .load base (.const (.int i)) | .store base (.const (.int i)) _ => some (base, i)
  | _ => none

/-- The numbers that addresses are made of have room: there are few arguments, the size of what needs room in the frame
is a word, the frame has room for all variables or not even for those that live in memory, and elements come after what
they are elements of, or they are not too far before it. -/
structure Graph.Compact (g : Graph) : Prop where
  arguments : argumentBase + slotBytes * g.params.length ≤ frameLimit
  sizes : ∀ v ∈ residents g, ∀ x ∈ g.vars[v]?, x.isGlobal ∨ (incoming? g v).isSome ∨ x.ty.slots?.isSome
  frame : mostFrame g < frameLimit ∨ frameLimit ≤ leastFrame g
  indices : ∀ q ∈ g.bodies, ∀ e ∈ q.element?, ∀ x ∈ g.vars[e.1]?, 0 ≤ e.2.toInt ∨ x.isGlobal ∧ ¬x.ty.isPointer ∨
    (if x.ty.isPointer then 0 else mostFrame g) < frameLimit + slotBytes * e.2.toInt

namespace Allocation

variable {p : Progress} {i : Interference}

theorem calm_reserve (slots : Nat) : Calm (p.reserve g v slots) := by
  unfold Progress.reserve
  split <;> simp [unplaceable]

theorem calm_placeInMemory (compact : g.Compact) (member : v ∈ residents g) : Calm (placeInMemory g p v) := by
  simp only [placeInMemory, failsOnly_bind, calm_orFault, orFault_eq_ok, calm_if]
  refine ⟨by simpa using (List.mem_filter.1 member).1, fun x declared => ⟨by simp, fun own => ?_⟩⟩
  have sized := (compact.sizes v member x declared).resolve_left own
  split
  · simp
  next outside => simp [sized.resolve_left (by simp [outside]), calm_reserve]

theorem calm_placeCandidate (inside : v < g.vars.size) : Calm (placeCandidate g i p v) := by
  simp only [placeCandidate, failsOnly_bind, calm_orFault]
  refine ⟨by simpa using inside, fun x _ => ?_⟩
  split
  · simp
  · split <;> simp [calm_reserve]

theorem calm_align {frame saved : Nat} (reachable : frame + slotBytes * saved < frameLimit) :
    Calm (align g frame saved) := by
  simp only [align, if_neg (Nat.not_le.2 reachable)]
  split
  · simp
  · split <;> simp [unplaceable]

end Allocation

open Allocation in
theorem calm_allocate (linked : g.Linked) (solved : g.liveness = .ok live) (compact : g.Compact) :
    Calm (allocate g live loops) := by
  unfold allocate
  simp only [failsOnly_bind, FailsOnly.pure]
  refine ⟨calm_build linked solved _, fun i _ => ⟨calm_order linked solved _, fun order ordered => ?_⟩⟩
  obtain ⟨distinct, members⟩ := order_spec ordered
  refine ⟨by simp [Progress.start, compact.arguments], fun start started => ⟨?_, fun p first => ?_⟩⟩
  · exact calm_foldlM (fun v member p => calm_placeInMemory compact member) start
  refine ⟨calm_foldlM (fun v member p => calm_placeCandidate (mem_candidates.1 (members v member)).1) p,
    fun q second => ?_⟩
  refine ⟨calm_mapM fun v _ => by split <;> simp [unplaceable],
    fun locations listed => ⟨calm_align ?_, fun _ _ => trivial⟩⟩
  obtain ⟨rs, filled⟩ := filled_of_placed started first members second
  have few : (calleeSaved.filter fun r => locations.contains (.reg r)).length ≤ rs.length := by
    have distinct : (calleeSaved.filter fun r => locations.contains (.reg r)).Nodup := .filter _ (by decide)
    refine (List.subperm_of_subset distinct fun r member => ?_).length_le
    have held : .reg r ∈ locations := by simpa using (List.mem_filter.1 member).2
    obtain ⟨v, -, found⟩ := mem_of_mapM listed held
    split at found <;> cases found
    next there => exact filled.registers v r there
  have most := length_le_candidates distinct members
  have reachable := filled.reachable
  have low := filled.low
  have high := filled.high
  have fits := compact.frame
  simp only [slotBytes] at *
  omega

end Places

end Quadcode
