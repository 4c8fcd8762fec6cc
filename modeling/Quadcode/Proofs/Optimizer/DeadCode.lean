import Quadcode.Proofs.Eval.Thinning
import Quadcode.Proofs.Eval.Tracing
import Quadcode.Proofs.Optimizer.BlockTables
import Quadcode.Proofs.Optimizer.Coherence
import Quadcode.Proofs.Optimizer.Passes

/-!
# Running a function without its dead code

What is not live may have any value. So a function without its dead code thins out the function it was: the
two agree on the private variables that are live, and on everything that is not private. Dead code may have
failed, and a result that gets no value keeps the one it had, so this is about runs that succeed and that give
every result a value.
-/

namespace Quadcode.DeadCode

open Liveness PassM

/-! ## Fates -/

section Fates

variable {memory live : VarSet} {q : Quad}

/-- A quadruple goes if it does nothing, or if it only computes what nobody reads. -/
theorem of_removed (removed : fate memory live q = .removed) : q.op = .nop ∨ (∃ r, q = ⟨some r, .assign (.var r)⟩) ∨
      q.op.hasEffect = false ∧ ∃ r, q.result = some r ∧ r ∉ memory ∧ r ∉ live := by
  unfold fate at removed
  split at removed
  next nop => exact .inl nop
  · split at removed
    · cases removed
    next r result =>
      split at removed
      next self => exact .inr (.inl ⟨r, by rw [← result, ← self]⟩)
      · split at removed
        · cases removed
        next dead =>
          split at removed
          · cases removed
          next idle => exact .inr (.inr ⟨by simpa using idle, r, result, by simpa using dead⟩)

/-- A quadruple loses a result that nobody reads. -/
theorem of_unbound (unbound : fate memory live q = .unbound) : ∃ r, q.result = some r ∧ r ∉ memory ∧ r ∉ live := by
  unfold fate at unbound
  split at unbound
  · cases unbound
  · split at unbound
    · cases unbound
    next r result =>
      split at unbound
      · cases unbound
      · split at unbound
        · cases unbound
        next dead => exact ⟨r, result, by simpa using dead⟩

end Fates

/-- What is left of a quadruple. -/
def left (memory live : VarSet) (q : Quad) : Option Quad :=
  match fate memory live q with
  | .removed => none
  | .unbound => some { q with result := none }
  | .kept => some q

theorem body_eq (memory : VarSet) (live : Nat → VarSet) {quads : List Quad} {points : List VarSet} {k : Nat}
    (given : ∀ i q, quads[i]? = some q → points[i]? = some (live (k + i + 1))) :
    (body memory quads points).1 = thinned (fun i => left memory (live (i + 1))) k quads := by
  induction quads generalizing points k with
  | nil => rfl
  | cons q rest ih =>
    cases points with
    | nil => cases given 0 q rfl
    | cons here more =>
      obtain rfl : here = live (k + 1) := Option.some.inj (given 0 q rfl)
      have later : (body memory rest more).1 = thinned (fun i => left memory (live (i + 1))) (k + 1) rest := by
        refine ih fun i q' inside => ?_
        rw [show k + 1 + i + 1 = k + (i + 1) + 1 by omega]
        exact given (i + 1) q' inside
      rw [thinned, left, ← later]
      simp only [body]
      cases fate memory (live (k + 1)) q <;> rfl

/-! ## The thinning -/

section Sound

variable {g : Graph} {near far : BlockMap VarSet} {s : Spot} {q : Quad} {v r : VarId}

/-- The block without what is dead in it. -/
def Swept (g : Graph) (near : BlockMap VarSet) (b : BlockId) (x y : Block) : Prop :=
  y = { x with body := thinned (fun i => left g.memoryResident (liveAt g near b (i + 1))) 0 x.body }

/-- Private variables that are not live are hidden. -/
def thinning (g : Graph) (near : BlockMap VarSet) : Thinning where
  among b := b ∈ g.layout
  hidden s v := g.Private ∅ v ∧ v ∉ liveAt g near s.block s.index
  keep s := left g.memoryResident (liveAt g near s.block (s.index + 1))

variable (here : (g.body s.block)[s.index]? = some q)
include here

theorem not_hidden_of_uses (named : v ∈ q.uses) : ¬(thinning g near).hidden s v :=
  fun out => out.2 ((mem_liveAt here).2 (.inr (.inl named)))

theorem hidden_next (out : (thinning g near).hidden s v) : (thinning g near).hidden s.next v ∨ q.result = some v := by
  by_cases result : q.result = some v
  · exact .inr result
  · exact .inl ⟨out.1, fun live => out.2 ((mem_liveAt here).2 (.inl ⟨live, result⟩))⟩

/-- The result of a quadruple may be hidden after it if it is not live there. -/
theorem hidden_result (result : q.result = some r) (dead : r ∉ liveAt g near s.block (s.index + 1)) :
    ∀ v, (thinning g near).hidden s v → (thinning g near).hidden s.next v := by
  intro v out
  rcases hidden_next here out with later | same
  · exact later
  · cases result.symm.trans same
    exact ⟨out.1, dead⟩

theorem fits : (thinning g near).Fits g s q ((thinning g near).keep s q) := by
  have lost {r : VarId} (result : q.result = some r) (resident : r ∉ g.memoryResident)
      (dead : r ∉ liveAt g near s.block (s.index + 1)) :
      ∀ r' ∈ q.result, r' < g.vars.size → (thinning g near).hidden s.next r' := by
    intro r' same declared
    cases result.symm.trans same
    exact ⟨Graph.private_of_not_resident resident declared, dead⟩
  change (thinning g near).Fits g s q (left _ _ q)
  unfold left
  split
  next removed =>
    rcases of_removed removed with nop | ⟨r, self⟩ | ⟨idle, r, result, resident, dead⟩
    · refine .nop nop fun result v out => (hidden_next here out).resolve_right fun same => ?_
      cases result.symm.trans same
    · refine .self self fun v out => (hidden_next here out).resolve_right fun same => ?_
      refine not_hidden_of_uses here ?_ out
      subst self
      cases same
      simp [Quad.uses, Op.args, Arg.var?]
    · exact .unread idle (hidden_result here result dead) (lost result resident dead)
  next unbound =>
    obtain ⟨r, result, resident, dead⟩ := of_unbound unbound
    exact .unbound (fun v => not_hidden_of_uses here) (hidden_result here result dead) (lost result resident dead)
  · exact .kept (fun v => not_hidden_of_uses here) fun v => hidden_next here

omit here

theorem thinning_sound {g' : Graph} (linked : g.Linked) (solved : (problem g).Solves g near far)
    (made : g.Reworked (Swept g near) g.layout g') : (thinning g near).Sound g g' where
  alike := made.alike
  entry := made.entry
  covers _ _ out := out.1
  start := linked.entry_mem
  closed _ laid _ target := linked.target_mem laid target
  body b laid := congrArg Block.body (made.blocks b laid)
  tail b laid := (congrArg Block.tail (made.blocks b laid) :)
  quad _ _ _ here := fits here
  seen _ _ ended _ named out := out.2 ((mem_liveAt_end ended).2 (.inr named))
  edge _ laid ended _ target _ out := ⟨out.1, fun live => out.2 (mem_liveAt_edge linked solved laid target ended live)⟩

end Sound

/-- The pass goes through all blocks. -/
theorem graph_reworked {g : Graph} {sol : Solution VarSet} {r : Graph × Nat × Nat} (linked : g.Linked)
    (done : graph sol g = .ok r) : g.Reworked (Swept g sol.near) g.layout r.1 := by
  unfold graph at done
  refine foldlM_ok (fun done (r : Graph × Nat × Nat) => g.Reworked (Swept g sol.near) done r.1) (.refl _ g) ?_ done
  rintro done b rest ⟨h, n, k⟩ r' split before step
  simp only [bind_eq_ok, pure_eq_ok] at step
  obtain ⟨points, found, rfl⟩ := step
  obtain ⟨laid, fresh⟩ := linked.fresh split
  have same := before.others b fresh
  have found : (problem g).points g sol b = .ok points := by
    rwa [Problem.points, Graph.body, Graph.tail, same] at found
  refine before.modifyBlock (linked.lt_size laid) fresh ?_
  rw [Swept, show h.body b = (g.block b).body from congrArg Block.body same, body_eq _ (liveAt g sol.near b) (k := 0)]
  intro i q inside
  rw [Nat.zero_add]
  exact points_getElem? found inside

/-- The pass thins out the function. -/
theorem pass_thins {w w' : Work} {changed : Bool} (linked : w.graph.Linked) (fresh : w.context.analyses = {})
    (given : Gives pass w changed w') : ∃ t : Thinning, t.Sound w.graph w'.graph := by
  have coherent : w.Coherent w.context := ⟨fresh ▸ .empty _, rfl, fun _ => .inl⟩
  simp only [pass, gives_bind, gives_graph, gives_ofExcept, gives_setGraph, gives_count, gives_pure] at given
  obtain ⟨sol, w₁, answered, g, _, ⟨rfl, rfl⟩, r, _, ⟨done, rfl⟩, _, _, rfl, _, _, rfl, -, rfl⟩ := given
  obtain ⟨solved, asked⟩ := (ensures_liveness coherent).of_gives answered
  rw [asked.graph] at done
  exact ⟨_, thinning_sound linked (Problem.solveWithin_solves solved) (graph_reworked linked done)⟩

/-- Removing the dead code of one function of a module changes no successful run on which every quadruple with
a result gets a value and pointers lead only to globals and to variables whose address the owner of the frame
takes. -/
theorem sweeping_keeps_outcome {program : Module} {before after : List Graph} {w w' : Work} {changed : Bool}
    (listed : program.graphs = before ++ w.graph :: after) (linked : w.graph.Linked) (fresh : w.context.analyses = {})
    (given : Gives pass w changed w') {entry : Label} {args : List Value} {input : List Int32} {outcome : Outcome}
    (ran : program.run entry args input = .ok outcome)
    (productive : ∀ p, program.Comes entry args input p → p.Productive program)
    (confined : ∀ p, program.Comes entry args input p → p.Confined) :
    Module.run { program with graphs := before ++ w'.graph :: after } entry args input = .ok outcome := by
  obtain ⟨t, sound⟩ := pass_thins linked fresh given
  exact sound.run listed ran productive confined

/-- The function without its dead code. -/
def swept (f : Function) : Graph := (outcome pass ⟨f.graph, {}, {}⟩).2.graph

/-- Prints its parameter and gives it back. -/
def echoing : Function where
  name := "echoing"
  vars := #[.declare "n" .int .param]
  params := [0]
  quads := [
    .effect (.print (.var 0)),
    .effect (.ret (some (.var 0)))]

/-- Stores to `x` through `p` and counts down. On the way it divides, calls, reads the input and does nothing,
without looking at what comes of it. The variables `i`, `t`, `u`, `x` and `p` are 0 to 4. -/
def dawdling : Function where
  name := "main"
  vars := #[.declare "i" .int .local, .declare "t" .int .local, .declare "u" .int .local,
    .declare "x" .int .local, .declare "p" (.pointer .int) .local]
  quads := [
    ⟨some 0, .assign (.const (.int 3))⟩,
    ⟨some 4, .address 3⟩,
    .effect (.derefStore 4 (.var 0)),
    .effect (.label "head"),
    .effect (.jumpIf .le (.var 0) (.const (.int 0)) "exit"),
    ⟨some 1, .binOp .div (.const (.int 12)) (.var 0)⟩,
    ⟨some 2, .call "echoing" [.var 0]⟩,
    ⟨some 1, .read⟩,
    .effect .nop,
    ⟨some 0, .assign (.var 0)⟩,
    ⟨some 0, .binOp .sub (.var 0) (.const (.int 1))⟩,
    .effect (.goto "head"),
    .effect (.label "exit"),
    ⟨some 1, .assign (.var 3)⟩,
    ⟨some 2, .read⟩,
    .effect (.print (.var 2)),
    .effect (.ret (some (.var 1)))]

theorem dawdling_keeps_outcome : (dawdling.module [echoing]).run "main" [] [7, 8, 9, 5] = .ok ⟨some (.int 3), "3215"⟩ ∧
      swept dawdling ≠ dawdling.graph ∧
      Module.run { dawdling.module [echoing] with graphs := [swept dawdling, echoing.graph] } "main" []
        [7, 8, 9, 5] = .ok ⟨some (.int 3), "3215"⟩ := by
  have ran : (dawdling.module [echoing]).run "main" [] [7, 8, 9, 5] = .ok ⟨some (.int 3), "3215"⟩ := by
    decide +kernel
  have watched : ∀ p ∈ (dawdling.module [echoing]).trace "main" [] [7, 8, 9, 5],
      p.Productive (dawdling.module [echoing]) ∧ p.Confined := by
    decide +kernel
  have given : Gives pass ⟨dawdling.graph, {}, {}⟩ true (outcome pass ⟨dawdling.graph, {}, {}⟩).2 :=
    gives_of_ok (by decide +kernel)
  have listed : (dawdling.module [echoing]).graphs = [] ++ dawdling.graph :: [echoing.graph] := rfl
  refine ⟨ran, by decide +kernel, ?_⟩
  exact sweeping_keeps_outcome (w := ⟨dawdling.graph, {}, {}⟩) listed (dawdling.graph_linked rfl) rfl given ran
    (fun p comes => (watched p comes.mem_trace).1) fun p comes => (watched p comes.mem_trace).2

end Quadcode.DeadCode
