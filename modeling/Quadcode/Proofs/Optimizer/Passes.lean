import Quadcode.Optimizer.Context
import Quadcode.Proofs.Outcome

/-!
# Passes that succeed

What each operation of a pass does to the work at hand when it succeeds.
-/

namespace Quadcode

namespace PassM

variable {α β : Type} {w w' : Work} {a : α} {b : β} {g : Graph} {u : Unit}

@[simp]
theorem gives_ofExcept {e : Except Failure α} : Gives (ofExcept e) w a w' ↔ e = .ok a ∧ w' = w := by
  cases e with
  | error e => simp [ofExcept]
  | ok c => simp [ofExcept, eq_comm (b := a)]

@[simp]
theorem gives_graph : Gives graph w g w' ↔ g = w.graph ∧ w' = w := by
  have ran : outcome graph w = (.ok w.graph, w) := rfl
  simp [Gives, ran, eq_comm]

@[simp]
theorem gives_config {c : Config} : Gives config w c w' ↔ c = w.context.config ∧ w' = w := by
  have ran : outcome config w = (.ok w.context.config, w) := rfl
  simp [Gives, ran, eq_comm]

@[simp]
theorem gives_setGraph : Gives (setGraph g) w u w' ↔ w' = { w with graph := g } := by
  simp [setGraph]

@[simp]
theorem gives_count {name : String} {n : Nat} : Gives (count name n) w u w' ↔
    w' = { w with context := { w.context with stats := w.context.stats.add name n } } := by
  simp [count]

/-- Without a kept solution, the constants are those of the graph at hand. -/
theorem gives_constants {s : Solution Facts} (fresh : w.context.analyses.constants = none) :
    Gives constants w s w' → w.graph.constants = .ok s ∧ w'.graph = w.graph := by
  intro given
  simp only [constants, analysis, keptOr, gives_bind, gives_modify, gives_pure, gives_get] at given
  obtain ⟨c, _, ⟨_, _, ⟨rfl, rfl⟩, handed⟩, _, _, rfl, rfl, rfl⟩ := given
  rw [fresh] at handed
  simp only [gives_bind, gives_ofExcept, gives_graph, setAnalyses, gives_modify, gives_pure] at handed
  obtain ⟨_, _, ⟨_, _, ⟨rfl, rfl⟩, solved, rfl⟩, _, _, rfl, rfl, rfl⟩ := handed
  exact ⟨solved, rfl⟩

end PassM

end Quadcode
