import Quadcode.Optimizer.Pipeline
import Quadcode.Proofs.Flow.Loops
import Quadcode.Proofs.Graph.Built
import Quadcode.Proofs.Optimizer.Coherence
import Quadcode.Proofs.Optimizer.LocalEdits

/-!
# What all passes keep

A property of graphs that every single edit keeps is kept by every pass, because a pass edits only by
what it knows of the graph at hand: its analyses are coherent whenever it asks for one. The analyses
that are left when a pass is done, less those that its change has made stale, are coherent again.
-/

namespace Quadcode

open List Option PassM Unswitching Unrolling InvariantMotion JumpSkipping ConstantFolding

variable {old : Context} {g h : Graph} {n : Nat}

theorem JumpSkipping.graph_eq_self {d : Dominators} (none : (graph d g).2 = 0) : (graph d g).1 = g := by
  unfold graph at *
  dsimp only at *
  revert none
  refine List.foldlRecOn (motive := fun r : Graph × Nat => r.2 = 0 → r.1 = g) _ _ (fun _ => rfl) ?_
  rintro ⟨h, n⟩ before b -
  dsimp only
  split
  · exact before
  · exact nofun

/-- Merging goes on while there is something to merge. -/
theorem BlockMerging.mergeAll_ok (holds : Graph → Prop)
    (steps : ∀ g b c, holds g → find? g = some (b, c) → holds (merge g b c)) {fuel : Nat} {k : Nat} (start : holds g)
    (done : mergeAll fuel g n = .ok (h, k)) : holds h ∧ n ≤ k ∧ (k = n → h = g) := by
  fun_induction mergeAll fuel g n with
  | case1 =>
    cases done
    exact ⟨start, le_refl _, fun _ => rfl⟩
  | case2 => cases done
  | case3 g n b c fuel found ih =>
    obtain ⟨kept, more, -⟩ := ih (steps g b c start found) done
    exact ⟨kept, by omega, by omega⟩

/-- The block in front of a loop, made if there is none; the edges are stale if it was made. -/
def Graph.fronted (g : Graph) (l : Loop) (s : Supply) : BlockId × Graph × Supply :=
  match l.preheader? g with
  | some p => (p, g, s)
  | none => g.insertPreheader l s

/-- A property of a graph and the names drawn so far that every edit of the optimizer keeps. The second
one is what is left of it when an edit fails. -/
structure Kept (I E : Graph → Supply → Prop) : Prop where
  fails : ∀ {g s}, I g s → E g s
  reshaped : ∀ {g h s}, I g s → g.SameShape h → I h s
  folded : ∀ {g h s facts n}, I g s → ConstantFolding.graph facts g = .ok (h, n) → 0 < n.branches → I h.relink s
  skipped : ∀ {g s d}, I g s → g.dominators = .ok d → I (graph d g).1.relink s
  merged : ∀ {g s b c}, I g s → BlockMerging.find? g = some (b, c) → I (BlockMerging.merge g b c) s
  fronted : ∀ {g s l}, I g s → g.HasLoop l → I (g.insertPreheader l s).2.1.relink (g.insertPreheader l s).2.2
  straightened : ∀ {g s l} {c : Unrolling.Counted}, I g s → g.HasLoop l →
    (∃ t, Unrolling.ExitTest.of? g l = some t ∧ t.exit = c.exit) → I (straighten g l c s).1 (straighten g l c s).2
  unswitched : ∀ {g s l w memory}, I g s → g.HasLoop l → switch? g l memory = some w → let (pre, g, s) := g.fronted l s
    let (copies, g, s) := g.cloneBlocks (l.blocksInLayout g) s
    match split g l w pre copies with
    | .ok h => I h s
    | .error _ => E g s

namespace Work

variable {I E : Graph → Supply → Prop}

/-- The property holds and the analyses are coherent. -/
structure Holds (I : Graph → Supply → Prop) (old : Context) (w : Work) : Prop where
  kept : I w.graph w.supply
  coherent : w.Coherent old

/-- What is left after a failure. -/
structure Left (E : Graph → Supply → Prop) (old : Context) (w : Work) : Prop where
  kept : E w.graph w.supply
  fresh : w.FreshSince old

/-- Part of a pass keeps the property. -/
abbrev Keeps {α : Type} (I E : Graph → Supply → Prop) (old : Context) (w : Work) (x : PassM α) : Prop :=
  Ensures x w (fun _ => Work.Holds I old) (Work.Left E old)

/-- What is left after a pass, if what a change makes stale is still kept. -/
structure Settled (I : Graph → Supply → Prop) (old : Context) (stale : Staleness) (changed : Bool)
    (w : Work) : Prop where
  kept : I w.graph w.supply
  fresh : w.FreshSince old
  current : (if changed then w.context.invalidate stale else w.context).analyses.Match w.graph

end Work

/-- A pass keeps the property, and its staleness says what it has made stale. -/
def Pass.Keeps (I E : Graph → Supply → Prop) (old : Context) (p : Pass) : Prop :=
  ∀ w : Work, w.Holds I old → Ensures p.run w (Work.Settled I old p.staleness) (Work.Left E old)

section

variable {I E : Graph → Supply → Prop} {w w' : Work} {c : Context}

namespace Work.Holds

theorem asked (holds : w.Holds I old) (asked : PassM.Asked old w w') : w'.Holds I old := by
  refine ⟨?_, asked.coherent⟩
  rw [asked.graph, asked.supply]
  exact holds.kept

variable (fails : ∀ {g s}, I g s → E g s)
include fails

theorem left (holds : w.Holds I old) : w.Left E old := ⟨fails holds.kept, holds.coherent.fresh⟩

theorem refused (holds : w.Holds I old) (refused : PassM.Refused old w w') : w'.Left E old := by
  refine ⟨?_, refused.fresh⟩
  rw [refused.graph, refused.supply]
  exact fails holds.kept

/-- Goes on with an analysis that was asked for. -/
theorem ask {α β : Type} {x : PassM α} {f : α → PassM β} {right : α → Prop} {after : β → Work → Prop}
    (holds : w.Holds I old) (asks : Ensures x w (fun a w' => right a ∧ PassM.Asked old w w') (PassM.Refused old w))
    (rest : ∀ a w', right a → w'.graph = w.graph → w'.Holds I old → Ensures (f a) w' after (Work.Left E old)) :
    Ensures (x >>= f) w after (Work.Left E old) :=
  ensures_bind.2 (asks.mono (fun a w' ⟨correct, asked⟩ =>
    rest a w' correct asked.graph (holds.asked asked))
    fun _ => holds.refused fails)

end Work.Holds

namespace Kept

variable (keeping : Kept I E) {changed : Bool}
include keeping

/-! ## Passes within a block -/

/-- After an edit that keeps the shape, all but dominators and loops is stale. -/
theorem settled_edited (holds : w.Holds I old) (edited : w.graph.Edited h n)
    (analyses : c.analyses = w.context.analyses) (fresh : Work.FreshSince old ⟨h, c, w.supply⟩) :
    Work.Settled I old .quadsOnly (decide (n > 0)) ⟨h, c, w.supply⟩ := by
  refine ⟨keeping.reshaped holds.kept edited.shape, fresh, ?_⟩
  · have current : c.analyses.Match w.graph := analyses ▸ holds.coherent.current
    split
    · exact current.quadsOnly edited.shape
    next unchanged =>
      have none : n = 0 := by simpa using unchanged
      rw [edited.same none]
      exact current

theorem copyPropagation : Pass.Keeps I E old ⟨"copy_prop", CopyPropagation.pass, .quadsOnly, 1⟩ := by
  intro w holds
  simp only [CopyPropagation.pass, ensures_bind, ensures_graph, ensures_setGraph, ensures_count, ensures_pure]
  exact keeping.settled_edited holds (CopyPropagation.graph_edited w.graph) rfl holds.coherent.fresh

theorem commonSubexpressions : Pass.Keeps I E old ⟨"cse", CommonSubexpressions.pass, .quadsOnly, 1⟩ := by
  intro w holds
  simp only [CommonSubexpressions.pass, ensures_bind, ensures_graph, ensures_setGraph, ensures_count, ensures_pure]
  exact keeping.settled_edited holds (CommonSubexpressions.graph_edited w.graph) rfl holds.coherent.fresh

theorem aliases : Pass.Keeps I E old ⟨"resolve_aliases", Aliases.pass, .quadsOnly, 1⟩ := by
  intro w holds
  simp only [Aliases.pass, ensures_bind, ensures_graph, ensures_ofExcept, ensures_setGraph, ensures_count, ensures_pure]
  exact ⟨fun _ done => keeping.settled_edited holds (Aliases.graph_edited done) rfl holds.coherent.fresh,
    fun _ _ => holds.left keeping.fails⟩

theorem deadCode : Pass.Keeps I E old ⟨"dead_code", DeadCode.pass, .quadsOnly, 1⟩ := by
  intro w holds
  refine holds.ask keeping.fails (ensures_liveness holds.coherent) fun live w' _ _ holds => ?_
  simp only [ensures_bind, ensures_graph, ensures_ofExcept, ensures_setGraph, ensures_count, ensures_pure]
  exact ⟨fun _ done => keeping.settled_edited holds (DeadCode.graph_edited done) rfl holds.coherent.fresh,
    fun _ _ => holds.left keeping.fails⟩

/-! ## Passes that change edges -/

omit keeping in
/-- After other edits everything is stale. -/
theorem settled_everything (kept : I h w.supply) (fresh : Work.FreshSince old ⟨h, c, w.supply⟩)
    (same : changed = false → h = w.graph ∧ c.analyses = w.context.analyses ∧ w.Coherent old) :
    Work.Settled I old .everything changed ⟨h, c, w.supply⟩ := by
  refine ⟨kept, fresh, ?_⟩
  cases changed with
  | true => exact .everything
  | false =>
    obtain ⟨rfl, analyses, coherent⟩ := same rfl
    exact show c.analyses.Match w.graph from analyses ▸ coherent.current

theorem constantFolding : Pass.Keeps I E old ⟨"const_prop", ConstantFolding.pass, .everything, 1⟩ := by
  intro w holds
  refine holds.ask keeping.fails (ensures_constants holds.coherent) fun facts w' _ _ holds => ?_
  simp only [ensures_bind, ensures_graph, ensures_ofExcept, ensures_setGraph, ensures_count, ensures_pure]
  refine ⟨fun r done => ?_, fun _ _ => holds.left keeping.fails⟩
  obtain ⟨h, n⟩ := r
  refine settled_everything ?_ holds.coherent.fresh fun unchanged => ?_
  · dsimp only
    split
    next decided => exact keeping.folded holds.kept done decided
    next undecided =>
      exact keeping.reshaped holds.kept (graph_edited done (Nat.eq_zero_of_not_pos undecided)).shape
  · have none : n.substituted + n.folded + n.branches = 0 := by simpa using unchanged
    have undecided : n.branches = 0 := by omega
    have same := (graph_edited done undecided).same (by omega)
    refine ⟨?_, rfl, holds.coherent⟩
    dsimp only
    rw [if_neg (by omega), same]

theorem jumpSkipping : Pass.Keeps I E old ⟨"skip_jumps", JumpSkipping.pass, .everything, 1⟩ := by
  intro w holds
  refine holds.ask keeping.fails (ensures_dominators holds.coherent) fun d w' computed same holds => ?_
  simp only [ensures_bind, ensures_graph, ensures_setGraph, ensures_count, ensures_pure]
  refine settled_everything ?_ holds.coherent.fresh fun unchanged => ?_
  · split
    · exact keeping.skipped holds.kept (same ▸ computed)
    next none =>
      rw [graph_eq_self (Nat.eq_zero_of_not_pos none)]
      exact holds.kept
  · have none : (graph d w'.graph).2 = 0 := by simpa using unchanged
    refine ⟨?_, rfl, holds.coherent⟩
    rw [none, graph_eq_self none, if_neg (lt_irrefl 0)]

theorem blockMerging : Pass.Keeps I E old ⟨"merge_blocks", BlockMerging.pass, .everything, 1⟩ := by
  intro w holds
  simp only [BlockMerging.pass, ensures_bind, ensures_graph, ensures_ofExcept,
    ensures_setGraph, ensures_count, ensures_pure]
  refine ⟨fun r done => ?_, fun _ _ => holds.left keeping.fails⟩
  obtain ⟨kept, -, same⟩ := BlockMerging.mergeAll_ok (I · w.supply) (fun g b c => keeping.merged) holds.kept done
  refine settled_everything kept holds.coherent.fresh fun unchanged => ?_
  exact ⟨same (by simpa using unchanged), rfl, holds.coherent⟩

/-! ## Passes on loops -/

variable {l : Loop} {memory : VarSet} {switch : Unswitching.Switch} {passes : List Pass} {ls : List Loop} {p : Pass}

omit keeping in
theorem ensures_preheader {post : BlockId × Bool → Work → Prop} {failed : Work → Prop} :
    Ensures (PassM.preheader l) w post failed ↔ post ((w.graph.fronted l w.supply).1, (l.preheader? w.graph).isNone)
        { w with
          graph := (w.graph.fronted l w.supply).2.1
          supply := (w.graph.fronted l w.supply).2.2 } := by
  unfold Graph.fronted PassM.preheader
  rw [ensures_bind, ensures_graph]
  cases l.preheader? w.graph <;> exact .rfl

omit keeping in
theorem hasLoop {ls : Loops} (right : (Analysis.loops ls).Of g) (member : l ∈ ls.innermostFirst) : g.HasLoop l := by
  obtain ⟨d, computed, rfl⟩ := right
  exact ⟨d, computed, mem_sortBy.1 member⟩

omit keeping in
theorem move_sameShape (g : Graph) (spots : List InvariantMotion.Spot) (pre : BlockId) :
    g.SameShape (move g spots pre) := by
  unfold move
  refine .trans ?_ (.setBody _ pre _)
  exact List.foldlRecOn (motive := g.SameShape) _ _ (.refl g) fun h before b _ =>
    before.trans (.setBody h b _)

/-- Moved code makes stale what depends on code. -/
theorem moved (spots : List InvariantMotion.Spot) (pre : BlockId) (holds : w.Holds I old) :
    Work.Holds I old ⟨InvariantMotion.move w.graph spots pre, w.context.invalidate .quadsOnly, w.supply⟩ := by
  have shape := move_sameShape w.graph spots pre
  exact ⟨keeping.reshaped holds.kept shape, holds.coherent.current.quadsOnly shape, holds.coherent.fresh⟩

theorem hoist (memory : VarSet) (holds : w.Holds I old) (loop : w.graph.HasLoop l) :
    w.Keeps I E old (InvariantMotion.hoist memory l) := by
  refine holds.ask keeping.fails (ensures_dominators holds.coherent) fun d w₁ _ same₁ holds => ?_
  refine holds.ask keeping.fails (ensures_liveness holds.coherent) fun live w₂ _ same₂ holds => ?_
  have loop : w₂.graph.HasLoop l := same₂ ▸ same₁ ▸ loop
  simp only [ensures_bind, ensures_graph, ensures_ofExcept]
  refine ⟨fun spots _ => ?_, fun _ _ => holds.left keeping.fails⟩
  split
  · exact holds
  · rw [ensures_bind, ensures_preheader, Graph.fronted]
    cases l.preheader? w₂.graph with
    | some p => exact keeping.moved spots p holds
    | none =>
      have front : Work.Holds I old ⟨(w₂.graph.insertPreheader l w₂.supply).2.1.relink,
          w₂.context.invalidate .everything, (w₂.graph.insertPreheader l w₂.supply).2.2⟩ :=
        ⟨keeping.fronted holds.kept loop, .everything, holds.coherent.fresh⟩
      exact keeping.moved spots _ front

omit keeping in
/-- What one loop after the other keeps, all of them keep. -/
theorem visitLoops (fails : ∀ {g s}, I g s → E g s)
    (each : ∀ {w : Work} {l}, w.Holds I old → w.graph.HasLoop l → w.Keeps I E old (InvariantMotion.hoist memory l))
    (fuel : Nat) (visited : List Label) (total : Nat) (holds : w.Holds I old) :
    w.Keeps I E old (InvariantMotion.visitLoops memory fuel visited total) := by
  induction fuel generalizing visited total w with (
    rw [InvariantMotion.visitLoops]
    refine holds.ask fails (ensures_loops holds.coherent) fun ls w' right same holds => ?_
    simp only [ensures_bind, ensures_graph])
  | zero =>
    split
    · exact holds
    · exact holds.left fails
  | succ fuel ih =>
    split
    · exact holds
    next l found =>
      have loop : w'.graph.HasLoop l := same ▸ hasLoop right (mem_of_find?_eq_some found)
      exact (each holds loop).bind fun _ _ holds => ih _ _ holds

omit keeping in
/-- A pass that leaves the analyses coherent may report what it likes. -/
theorem settled_holds (holds : w.Holds I old) (analyses : c.analyses = w.context.analyses)
    (fresh : Work.FreshSince old ⟨w.graph, c, w.supply⟩) :
    Work.Settled I old .everything changed ⟨w.graph, c, w.supply⟩ :=
  settled_everything holds.kept fresh fun _ => ⟨rfl, analyses, holds.coherent⟩

theorem invariantMotion : Pass.Keeps I E old ⟨"licm", InvariantMotion.pass, .everything, 2⟩ := by
  intro w holds
  simp only [InvariantMotion.pass]
  rw [ensures_bind, ensures_graph]
  refine (visitLoops keeping.fails (keeping.hoist _) _ _ _ holds).bind fun total w' holds => ?_
  exact settled_holds holds rfl holds.coherent.fresh

/-! ### Unswitching -/

theorem unswitch (holds : w.Holds I old) (loop : w.graph.HasLoop l)
    (found : Unswitching.switch? w.graph l memory = some switch) :
    w.Keeps I E old (Unswitching.unswitch l switch) := by
  have edited := keeping.unswitched holds.kept loop found
  simp only [Unswitching.unswitch, ensures_bind, ensures_preheader, ensures_edit,
    ensures_graph, ensures_ofExcept, ensures_setGraph, ensures_invalidate]
  refine ⟨fun h done => ?_, fun e failed => ?_⟩
  · simp only [done] at edited
    exact ⟨edited, .everything, holds.coherent.fresh⟩
  · simp only [failed] at edited
    exact ⟨edited, holds.coherent.fresh⟩

omit keeping in
theorem find_switch {max : Nat} (found : find? g memory max ls = some (l, switch)) :
    l ∈ ls ∧ switch? g l memory = some switch := by
  obtain ⟨l', member, here⟩ := exists_of_findSome?_eq_some found
  split at here
  · cases here
  · obtain ⟨_, switched, eq⟩ := map_eq_some_iff.1 here
    cases eq
    exact ⟨member, switched⟩

omit keeping in
theorem unswitchSearch (fails : ∀ {g s}, I g s → E g s)
    (each : ∀ {w : Work} {l switch}, w.Holds I old → w.graph.HasLoop l →
      Unswitching.switch? w.graph l memory = some switch → w.Keeps I E old (Unswitching.unswitch l switch))
    (fuel count : Nat) (holds : w.Holds I old) : w.Keeps I E old (search memory fuel count) := by
  induction fuel generalizing count w with (
    rw [Unswitching.search]
    refine holds.ask fails (ensures_loops holds.coherent) fun ls w' right same holds => ?_
    simp only [ensures_bind, ensures_config, ensures_graph])
  | zero =>
    split
    · exact holds
    · exact holds.left fails
  | succ fuel ih =>
    split
    · exact holds
    next l switch found =>
      obtain ⟨member, switched⟩ := find_switch found
      have loop : w'.graph.HasLoop l := same ▸ hasLoop right member
      exact (each holds loop switched).bind fun _ _ holds => ih _ holds

theorem unswitching : Pass.Keeps I E old ⟨"unswitch", Unswitching.pass, .everything, 2⟩ := by
  intro w holds
  simp only [Unswitching.pass]
  rw [ensures_bind, ensures_graph]
  refine (unswitchSearch keeping.fails keeping.unswitch _ _ holds).bind fun n w' holds => ?_
  exact settled_holds holds rfl holds.coherent.fresh

/-! ### Unrolling -/

omit keeping in
theorem exitTest_of_counting {t : Unrolling.ExitTest} {cycle : List BlockId} {b : BlockId} {step : Int32}
    (counting : counting? g l = some (t, cycle, b, step)) : Unrolling.ExitTest.of? g l = some t := by
  unfold counting? at counting
  obtain ⟨t', tested, rest⟩ := bind_eq_some_iff.1 counting
  split at rest
  · cases rest
  · obtain ⟨_, -, rest⟩ := bind_eq_some_iff.1 rest
    split at rest
    · cases rest
    · obtain ⟨_, -, rest⟩ := bind_eq_some_iff.1 rest
      cases rest
      exact tested

/-- Counting the runs of a loop changes nothing. -/
theorem analyze (l : Loop) (limit : Nat) (holds : w.Holds I old) : Ensures (analyze l limit) w
      (fun c w' => w'.graph = w.graph ∧ w'.Holds I old ∧ ∀ counted, c = some counted →
        ∃ t, Unrolling.ExitTest.of? w.graph l = some t ∧ t.exit = counted.exit)
      (Work.Left E old) := by
  unfold Unrolling.analyze
  rw [ensures_bind, ensures_graph]
  split
  · exact ⟨rfl, holds, nofun⟩
  next t cycle b step counting =>
    have test := exitTest_of_counting counting
    refine holds.ask keeping.fails (ensures_constants holds.coherent) fun facts w' _ same holds => ?_
    simp only [ensures_bind, ensures_ofExcept]
    refine ⟨fun start _ => ?_, fun _ _ => holds.left keeping.fails⟩
    split
    · exact ⟨same, holds, nofun⟩
    · refine ⟨same, holds, fun counted eq => ⟨t, test, ?_⟩⟩
      obtain ⟨trips, -, rfl⟩ := map_eq_some_iff.1 eq
      rfl

theorem unrollPartially (l : Loop) (holds : w.Holds I old) : Ensures (unrollPartially l) w
      (fun extent w' => w'.Holds I old ∧ (extent = none → w'.graph = w.graph))
      (Work.Left E old) := by
  unfold Unrolling.unrollPartially
  rw [ensures_bind, ensures_get]
  dsimp only
  split
  · exact ⟨holds, fun _ => rfl⟩
  · refine (keeping.analyze l _ holds).bind fun c w' ⟨same, holds, _⟩ => ?_
    cases c with
    | none => exact ⟨holds, fun _ => same⟩
    | some c =>
      dsimp only
      split
      · exact ⟨holds, fun _ => same⟩
      next k _ =>
        have shape := Graph.SameShape.setBody w'.graph l.header (List.replicate k (w'.graph.body l.header)).flatten
        exact ⟨⟨keeping.reshaped holds.kept shape, holds.coherent.current.quadsOnly shape, holds.coherent.fresh⟩, nofun⟩

theorem unroll (holds : w.Holds I old) (loop : w.graph.HasLoop l) : Ensures (unroll l) w
      (fun extent w' => w'.Holds I old ∧ (extent = none → w'.graph = w.graph))
      (Work.Left E old) := by
  unfold Unrolling.unroll
  rw [ensures_bind, ensures_config]
  refine (keeping.analyze l _ holds).bind fun c w' ⟨same, holds, exit⟩ => ?_
  cases c with
  | none => exact same ▸ keeping.unrollPartially l holds
  | some c =>
    rw [ensures_bind, ensures_graph]
    split
    · have kept := keeping.straightened holds.kept (same ▸ loop) (same ▸ exit c rfl)
      exact ⟨⟨kept, .everything, holds.coherent.fresh⟩, nofun⟩
    · exact same ▸ keeping.unrollPartially l holds

theorem unrollFirst (holds : w.Holds I old) (loops : ∀ l ∈ ls, w.graph.HasLoop l) :
    w.Keeps I E old (Unrolling.unrollFirst ls) := by
  induction ls generalizing w with
  | nil => exact holds
  | cons l rest ih =>
    refine (keeping.unroll holds (loops l mem_cons_self)).bind fun extent w' ⟨holds, same⟩ => ?_
    cases extent with
    | some extent => exact holds
    | none =>
      refine ih holds fun l' member => ?_
      rw [same rfl]
      exact loops l' (mem_cons_of_mem l member)

theorem unrollSearch (fuel complete part : Nat) (holds : w.Holds I old) :
    w.Keeps I E old (search fuel complete part) := by
  induction fuel generalizing complete part w with (
    rw [Unrolling.search]
    refine holds.ask keeping.fails (ensures_loops holds.coherent) fun ls w' right same holds => ?_
    refine (keeping.unrollFirst holds fun l member => same ▸ hasLoop right member).bind
      fun extent w'' holds => ?_
    rcases extent with _ | extent
    · exact holds)
  | zero => exact holds.left keeping.fails
  | succ fuel ih => cases extent <;> exact ih _ _ holds

theorem unrolling : Pass.Keeps I E old ⟨"unroll", Unrolling.pass, .everything, 2⟩ := by
  intro w holds
  simp only [Unrolling.pass]
  rw [ensures_bind, ensures_graph]
  refine (keeping.unrollSearch _ _ _ holds).bind fun n w' holds => ?_
  simp only [ensures_bind, ensures_count, ensures_pure]
  exact settled_holds holds rfl holds.coherent.fresh

/-! ## All passes -/

theorem pass (member : p ∈ Pass.all) : p.Keeps I E old := by
  simp only [Pass.all, mem_cons, not_mem_nil, or_false] at member
  rcases member with rfl | rfl | rfl | rfl | rfl | rfl | rfl | rfl | rfl | rfl
  · exact keeping.constantFolding
  · exact keeping.copyPropagation
  · exact keeping.aliases
  · exact keeping.commonSubexpressions
  · exact keeping.deadCode
  · exact keeping.jumpSkipping
  · exact keeping.blockMerging
  · exact keeping.invariantMotion
  · exact keeping.unswitching
  · exact keeping.unrolling

theorem perform (member : p ∈ Pass.all) (holds : w.Holds I old) : w.Keeps I E old p.perform := by
  refine (keeping.pass member w holds).bind fun changed w' settled => ?_
  cases changed <;> exact ⟨settled.kept, settled.current, settled.fresh⟩

theorem round (members : ∀ p ∈ passes, p ∈ Pass.all) (holds : w.Holds I old) : w.Keeps I E old (Pass.round passes) := by
  induction passes generalizing w with
  | nil => exact holds
  | cons p rest ih =>
    refine (keeping.perform (members p mem_cons_self) holds).bind fun changed w' holds => ?_
    refine (ih (fun p' member => members p' (mem_cons_of_mem p member)) holds).bind
      fun more w'' holds => ?_
    exact holds

theorem rounds (members : ∀ p ∈ passes, p ∈ Pass.all) (left : Nat) (changed : Bool) (holds : w.Holds I old) :
    w.Keeps I E old (Pass.rounds passes left changed) := by
  induction left generalizing changed w with
  | zero => exact holds.left keeping.fails
  | succ left ih =>
    refine (keeping.round members holds).bind fun more w' holds => ?_
    cases more with
    | true => exact ih true holds
    | false => exact holds

/-- The whole optimization of a function keeps the property, and hands out fresh analyses only. -/
theorem optimizeGraph (holds : w.Holds I old) : w.Keeps I E old Quadcode.optimizeGraph := by
  unfold Work.Keeps Quadcode.optimizeGraph
  rw [ensures_bind, ensures_config]
  dsimp only
  split
  · exact holds
  · exact keeping.rounds (fun p member => (mem_filter.1 member).1) _ _ holds

end Kept

end

/-! ## Nothing stale is handed out -/

theorem kept_true : Kept (fun _ _ => True) (fun _ _ => True) where
  fails _ := trivial
  reshaped _ _ := trivial
  folded _ _ _ := trivial
  skipped _ _ := trivial
  merged _ _ := trivial
  fronted _ _ := trivial
  straightened _ _ _ := trivial
  unswitched _ _ _ := by
    dsimp only
    split <;> trivial

/-- Whenever a pass asks for an analysis while a function is optimized, from no kept analyses on, it is
handed what a new analysis of the graph at that moment would say, whether the optimization succeeds in
the end or not. -/
theorem optimizeGraph_gives_fresh (g : Graph) (config : Config) (stats : Statistics) (unrolled : List Label)
    (s : Supply) : ∀ x ∈ (outcome optimizeGraph ⟨g, { config, stats, unrolled }, s⟩).2.context.given, x.Fresh := by
  have start : Work.Holds (fun _ _ => True) { config } ⟨g, { config, stats, unrolled }, s⟩ :=
    ⟨trivial, .empty g, rfl, nofun⟩
  have ends : Ensures optimizeGraph ⟨g, { config, stats, unrolled }, s⟩
      (fun _ => Work.FreshSince { config }) (Work.FreshSince { config }) :=
    (kept_true.optimizeGraph start).mono (fun _ _ holds => holds.coherent.fresh) fun _ left => left.fresh
  intro x member
  exact (ends.outcome.2 x member).resolve_left nofun

/-- Computes the same product in every run of its loop. -/
def accumulating : Function where
  name := "accumulating"
  vars := #[.declare "n" .int .param, .declare "i" .int .param, .declare "t" .int .temporary]
  params := [0, 1]
  quads := [
    .effect (.label "test"),
    .effect (.jumpIf .ge (.var 1) (.var 0) "done"),
    ⟨some 2, .binOp .mul (.var 0) (.var 0)⟩,
    ⟨some 1, .binOp .add (.var 1) (.var 2)⟩,
    .effect (.goto "test"),
    .effect (.label "done"),
    .effect (.ret (some (.var 1)))]

theorem accumulating_gives_fresh : accumulating.graph.layout.length = 3 ∧
      ∃ x ∈ (outcome optimizeGraph ⟨accumulating.graph, {}, ⟨1⟩⟩).2.context.given,
        x.graph.layout.length = 4 ∧ x.Fresh := by
  refine ⟨by decide +kernel, ?_⟩
  have latest : ((outcome optimizeGraph ⟨accumulating.graph, {}, ⟨1⟩⟩).2.context.given.head?).map
      (·.graph.layout.length) = some 4 := by decide +kernel
  obtain ⟨x, head, size⟩ := map_eq_some_iff.1 latest
  have member := mem_of_mem_head? head
  exact ⟨x, member, size, optimizeGraph_gives_fresh accumulating.graph {} {} [] ⟨1⟩ x member⟩

end Quadcode
