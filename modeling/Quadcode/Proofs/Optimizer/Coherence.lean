import Quadcode.Optimizer.LoopEdit
import Quadcode.Proofs.Graph.Shape
import Quadcode.Proofs.Outcome

/-!
# Analyses that are kept

A kept analysis is coherent when it says what a new one would say of the graph at hand. Asking for an
analysis keeps the kept ones coherent, and hands out one that is.
-/

namespace Quadcode

/-- What the analysis says is what a new one would say. -/
def Analysis.Of (g : Graph) : Analysis → Prop
  | .dominators d => g.dominators = .ok d
  | .loops l => ∃ d, g.dominators = .ok d ∧ l = Loops.detect g d
  | .liveness s => g.liveness = .ok s
  | .constants s => g.constants = .ok s

/-- The analysis was one of the graph when it was handed out. -/
def Given.Fresh (x : Given) : Prop := x.analysis.Of x.graph

/-- All kept analyses are of one graph. -/
structure Analyses.Match (a : Analyses) (g : Graph) : Prop where
  dominators : ∀ d, a.dominators = some d → (Analysis.dominators d).Of g
  loops : ∀ l, a.loops = some l → (Analysis.loops l).Of g
  liveness : ∀ s, a.liveness = some s → (Analysis.liveness s).Of g
  constants : ∀ s, a.constants = some s → (Analysis.constants s).Of g

namespace Analyses.Match

variable {c : Context} {g h : Graph}

theorem empty (g : Graph) : Match {} g := ⟨nofun, nofun, nofun, nofun⟩

/-- Nothing is left to be stale. -/
theorem everything : (c.invalidate .everything).analyses.Match g := ⟨nofun, nofun, nofun, nofun⟩

/-- Dominators and loops outlive every edit that keeps the shape. -/
theorem quadsOnly (current : c.analyses.Match g) (shape : g.SameShape h) :
    (c.invalidate .quadsOnly).analyses.Match h where
  dominators d kept := shape.dominators.trans (current.dominators d kept)
  loops l kept := by
    obtain ⟨d, computed, eq⟩ := current.loops l kept
    exact ⟨d, shape.dominators.trans computed, eq.trans (shape.detect d).symm⟩
  liveness := nofun
  constants := nofun

end Analyses.Match

namespace Work

/-- The configuration is that of `old`, and everything handed out since then was fresh. -/
def FreshSince (old : Context) (w : Work) : Prop :=
  w.context.config = old.config ∧ ∀ x ∈ w.context.given, x ∈ old.given ∨ x.Fresh

structure Coherent (old : Context) (w : Work) : Prop where
  current : w.context.analyses.Match w.graph
  fresh : w.FreshSince old

end Work

namespace PassM

variable {α : Type} {w : Work} {g : Graph} {failed : Work → Prop}

/-! ## The operations of a pass -/

@[simp]
theorem ensures_ofExcept {e : Except Failure α} {post : α → Work → Prop} :
    Ensures (ofExcept e) w post failed ↔ (∀ a, e = .ok a → post a w) ∧ (∀ x, e = .error x → failed w) := by
  cases e <;> simp [ofExcept]

@[simp]
theorem ensures_graph {post : Graph → Work → Prop} : Ensures graph w post failed ↔ post w.graph w := .rfl

variable {post : Unit → Work → Prop}

@[simp]
theorem ensures_setGraph : Ensures (setGraph g) w post failed ↔ post () { w with graph := g } := .rfl

@[simp]
theorem ensures_config {post : Config → Work → Prop} : Ensures config w post failed ↔ post w.context.config w := .rfl

@[simp]
theorem ensures_count {name : String} {n : Nat} : Ensures (count name n) w post failed ↔
      post () { w with context := { w.context with stats := w.context.stats.add name n } } := .rfl

@[simp]
theorem ensures_invalidate {s : Staleness} : Ensures (invalidate s) w post failed ↔
      post () { w with context := w.context.invalidate s } := .rfl

@[simp]
theorem ensures_setAnalyses {f : Analyses → Analyses} : Ensures (setAnalyses f) w post failed ↔
      post () { w with context := { w.context with analyses := f w.context.analyses } } := .rfl

@[simp]
theorem ensures_edit {f : Graph → Supply → α × Graph × Supply} {post : α → Work → Prop} :
    Ensures (edit f) w post failed ↔ post (f w.graph w.supply).1
        { w with graph := (f w.graph w.supply).2.1, supply := (f w.graph w.supply).2.2 } := .rfl

/-! ## Asking for an analysis -/

variable {old : Context}

/-- What a request leaves behind: the graph and the names as they were, and coherence. -/
structure Asked (old : Context) (w w' : Work) : Prop where
  graph : w'.graph = w.graph
  supply : w'.supply = w.supply
  coherent : w'.Coherent old

/-- The same without an answer. -/
structure Refused (old : Context) (w w' : Work) : Prop where
  graph : w'.graph = w.graph
  supply : w'.supply = w.supply
  fresh : w'.FreshSince old

variable (coherent : w.Coherent old)
include coherent

theorem ensures_analysis {kind : α → Analysis} {kept? : Analyses → Option α} {keep : α → Analyses → Analyses}
    {compute : PassM α} (known : ∀ a, kept? w.context.analyses = some a → (kind a).Of w.graph)
    (computes : Ensures compute w (fun a w' => (kind a).Of w.graph ∧ Asked old w w') (Refused old w))
    (keeps : ∀ a (as : Analyses), as.Match w.graph → (kind a).Of w.graph → (keep a as).Match w.graph) :
    Ensures (analysis kind kept? keep compute) w
      (fun a w' => (kind a).Of w.graph ∧ Asked old w w') (Refused old w) := by
  have found : Ensures (keptOr kept? keep compute) w
      (fun a w' => (kind a).Of w.graph ∧ Asked old w w') (Refused old w) := by
    rw [keptOr, ensures_bind, ensures_get]
    split
    next a found => exact ⟨known a found, rfl, rfl, coherent⟩
    · refine computes.bind fun a w' ⟨right, asked⟩ => ?_
      simp only [ensures_bind, ensures_setAnalyses, ensures_pure]
      have current := asked.graph ▸ asked.coherent.current
      exact ⟨right, asked.graph, asked.supply, asked.graph ▸ keeps a _ current right, asked.coherent.fresh⟩
  refine found.bind fun a w' ⟨right, asked⟩ => ?_
  simp only [ensures_bind, ensures_modify, ensures_pure]
  refine ⟨right, asked.graph, asked.supply, asked.coherent.current, asked.coherent.fresh.1, fun x member => ?_⟩
  rcases List.mem_cons.1 member with rfl | earlier
  · exact .inr (show (kind a).Of w'.graph from asked.graph ▸ right)
  · exact asked.coherent.fresh.2 x earlier

theorem ensures_dominators : Ensures dominators w (fun d w' => w.graph.dominators = .ok d ∧ Asked old w w')
      (Refused old w) := by
  refine ensures_analysis coherent coherent.current.dominators ?_ fun d as current right =>
    ⟨fun d' kept => Option.some.inj kept ▸ right, current.loops, current.liveness, current.constants⟩
  simp only [ensures_bind, ensures_graph, ensures_ofExcept]
  exact ⟨fun d computed => ⟨computed, rfl, rfl, coherent⟩, fun _ _ => ⟨rfl, rfl, coherent.fresh⟩⟩

theorem ensures_loops : Ensures loops w (fun l w' => (Analysis.loops l).Of w.graph ∧ Asked old w w')
      (Refused old w) := by
  refine ensures_analysis coherent coherent.current.loops ?_ fun l as current right =>
    ⟨current.dominators, fun l' kept => Option.some.inj kept ▸ right, current.liveness, current.constants⟩
  refine (ensures_dominators coherent).bind fun d w' ⟨computed, asked⟩ => ?_
  simp only [ensures_bind, ensures_graph, ensures_pure]
  exact ⟨⟨d, computed, by rw [asked.graph]⟩, asked⟩

theorem ensures_liveness :
    Ensures liveness w (fun s w' => w.graph.liveness = .ok s ∧ Asked old w w') (Refused old w) := by
  refine ensures_analysis coherent coherent.current.liveness ?_ fun s as current right =>
    ⟨current.dominators, current.loops, fun s' kept => Option.some.inj kept ▸ right, current.constants⟩
  simp only [ensures_bind, ensures_graph, ensures_ofExcept]
  exact ⟨fun s computed => ⟨computed, rfl, rfl, coherent⟩, fun _ _ => ⟨rfl, rfl, coherent.fresh⟩⟩

theorem ensures_constants : Ensures constants w (fun s w' => w.graph.constants = .ok s ∧ Asked old w w')
      (Refused old w) := by
  refine ensures_analysis coherent coherent.current.constants ?_ fun s as current right =>
    ⟨current.dominators, current.loops, current.liveness, fun s' kept => Option.some.inj kept ▸ right⟩
  simp only [ensures_bind, ensures_graph, ensures_ofExcept]
  exact ⟨fun s computed => ⟨computed, rfl, rfl, coherent⟩, fun _ _ => ⟨rfl, rfl, coherent.fresh⟩⟩

end PassM

end Quadcode
