import Quadcode.Proofs.Allocation.Storage
import Quadcode.Proofs.Lowering.Activation

/-!
# The places of integer functions

An allocation of a function that computes with integers gives every variable a register or a word of
the stack, and never the same one to two variables of which one is assigned while the other is live.
-/

namespace Quadcode

open X86 Allocation

namespace Graph.Integral

variable {g : Graph} {v : VarId} {x : Variable}

theorem declared (integral : g.Integral) (here : g.vars[v]? = some x) :
    (x.ty = .int ∨ x.ty = .bool) ∧ x.isGlobal = false :=
  integral.vars x (Array.mem_of_getElem? here)

theorem not_isFloat (integral : g.Integral) (here : g.vars[v]? = some x) : x.ty.isFloat = false := by
  rcases (integral.declared here).1 with same | same <;> rw [same] <;> rfl

/-- No variable has to live in memory. -/
theorem not_memoryResident (integral : g.Integral) : v ∉ g.memoryResident := by
  rw [Graph.mem_memoryResident, Graph.mem_addressTaken]
  rintro (⟨q, member, taken⟩ | ⟨x, here, kind⟩)
  · obtain ⟨b, inside, listed⟩ := List.mem_flatMap.1 member
    have computes := integral.body b inside q listed
    simp [Quad.isIntegral, taken, Op.isIntegral] at computes
  · obtain ⟨scalar, «local»⟩ := integral.declared here
    rcases scalar with same | same <;> simp [same, «local», Ty.isScalar] at kind

end Graph.Integral

namespace Lowering

variable {g : Graph} {a : Allocation} {near : BlockMap VarSet} {p : Allocation.Progress}
  {depth : VarId → Nat} {u v : VarId} {l : Location} {o : Int32}

theorem usable_of_result (integral : g.Integral) (result : Allocation.Result g near a p depth)
    (here : a.locations[v]? = some l) : l.Usable := by
  cases l with
  | reg r => exact (result.general here).1
  | xmm r =>
    obtain ⟨-, x, declared, float⟩ := result.float here
    simp [integral.not_isFloat declared] at float
  | stack o =>
    change o.toInt % slotBytes = 0
    rcases result.stack_cases here with ⟨k, -, offset⟩ | ⟨-, lies, offset⟩
    · rw [offset]
      simp only [argumentBase, slotBytes]
      omega
    · have aligned := lies.aligned
      rw [offset]
      simp only [slotBytes] at *
      omega
  | global name =>
    obtain ⟨x, declared, isGlobal⟩ := result.named here
    simp [(integral.declared declared).2] at isGlobal

/-- A word of the stack belongs to one variable. -/
theorem stack_inj (integral : g.Integral) (result : Allocation.Result g near a p depth)
    (first : a.locations[u]? = some (.stack o)) (second : a.locations[v]? = some (.stack o)) : u = v := by
  by_contra different
  have apart := result.word_apart different integral.not_memoryResident first second
  simp only [slotBytes] at apart
  omega

/-- What code generation relies on. -/
structure Settled (s : Site) (near : BlockMap VarSet) : Prop where
  site : s.Integral
  bounded : s.Bounded
  saved : ∀ r ∈ s.allocation.calleeSaved, r ∈ X86.calleeSaved
  assigned : ∀ b ∈ s.graph.layout, ∀ k q d v l, (s.graph.body b)[k]? = some q → q.result = some d →
    v ∈ Liveness.liveAt s.graph near b (k + 1) → d ≠ v → s.allocation.locations[d]? = some l →
    s.allocation.locations[v]? ≠ some l
  entered : ∀ p ∈ s.graph.params, ∀ v ∈ Liveness.liveAt s.graph near s.graph.entry 0, p ≠ v →
    ∀ l, s.allocation.locations[p]? = some l → s.allocation.locations[v]? ≠ some l
  argument : ∀ k p l, s.graph.params[k]? = some p → s.allocation.locations[p]? = some l →
    l.isRegister = false → l = incoming k

/-- Joined variables have two places. -/
theorem Joins.apart (integral : g.Integral) (result : Allocation.Result g near a p depth)
    (joined : a.interference.Joins u v) (different : u ≠ v) (first : a.locations[u]? = some l) :
    a.locations[v]? ≠ some l := by
  intro second
  have usable := usable_of_result integral result first
  cases l with
  | reg r =>
    cases result.sound.apart u v _ joined different (result.placed u _ first) (result.placed v _ second)
  | stack o => exact different (stack_inj integral result first second)
  | xmm | global => exact usable.elim

theorem allocate_settled {live : Solution VarSet} {loops : Loops} (integral : g.Integral) (linked : g.Linked)
    (solved : g.liveness = .ok live) (allocated : allocate g live loops = .ok a) : Settled ⟨g, a⟩ live.near := by
  obtain ⟨p, depth, result⟩ := allocate_result linked solved allocated
  have candidate : ∀ {v l}, a.locations[v]? = some l → v ∈ candidates g := by
    intro v l here
    have inside := (Array.getElem?_eq_some_iff.1 here).1
    rw [result.size] at inside
    exact mem_candidates.2 ⟨inside, integral.not_memoryResident⟩
  refine ⟨⟨fun v l => usable_of_result integral result, fun v x => integral.not_isFloat⟩, ⟨result.frame_lt, ?_,
    result.saved.length_le, result.reachable⟩, fun r member => result.saved.subset member, ?_, ?_, ?_⟩
  · have aligned := result.aligned
    simp only [slotBytes, stackAlignment] at *
    omega
  · intro b member k q d v l here assigned live different first second
    exact Joins.apart integral result (result.complete.assigned b member k q d v here assigned
      (candidate first) live (candidate second) different) different first second
  · intro p member v live different l first second
    exact Joins.apart integral result (result.complete.entered p member (candidate first) v live
      (candidate second) different) different first second
  · intro k p l here placed memory
    have usable := usable_of_result integral result placed
    have own := incoming?_eq integral.params here
    cases l with
    | stack o =>
      rcases result.sound.stack p o (result.placed p _ placed) with argument | ⟨outside, -⟩
      · exact Option.some.inj (argument.symm.trans own)
      · simp [own] at outside
    | reg => cases memory
    | xmm | global => exact usable.elim

end Lowering

end Quadcode
