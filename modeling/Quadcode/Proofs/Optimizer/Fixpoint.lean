import Quadcode.Proofs.Optimizer.Settling

/-!
# Rounds until nothing changes

The last round of an optimization has changed nothing. Every pass of it therefore saw the same, and would
find nothing to do again; so would another optimization, which goes by the same configuration because no
pass touches it.
-/

namespace Quadcode

open List

variable {old : Context} {changed : Bool}

/-! ## The last round -/

namespace Pass

variable {v : View} {w w' : Work} {p : Pass} {passes : List Pass}

theorem steady (member : p ∈ all) : Steady p.run v false := by
  simp only [all, mem_cons, not_mem_nil, or_false] at member
  rcases member with rfl | rfl | rfl | rfl | rfl | rfl | rfl | rfl | rfl | rfl
  · exact ConstantFolding.steady
  · exact CopyPropagation.steady
  · exact Aliases.steady
  · exact CommonSubexpressions.steady
  · exact DeadCode.steady
  · exact JumpSkipping.steady
  · exact BlockMerging.steady
  · exact InvariantMotion.steady
  · exact Unswitching.steady
  · exact Unrolling.steady

theorem gives_perform_false : Gives p.perform w false w' ↔ Gives p.run w false w' := by
  simp only [perform, gives_bind]
  constructor
  · rintro ⟨changed, w₁, ran, rest⟩
    cases changed with
    | false => exact (gives_pure.1 rest).2 ▸ ran
    | true =>
      obtain ⟨_, _, -, impossible⟩ := gives_bind.1 rest
      cases (gives_pure.1 impossible).1
  · exact fun ran => ⟨false, w', ran, gives_pure.2 ⟨rfl, rfl⟩⟩

/-- In a round without a change no pass has made one. -/
theorem settles_of_round (members : ∀ p ∈ passes, p ∈ all) (shows : w.Shows v)
    (given : Gives (round passes) w false w') : ∀ p ∈ passes, Settles p.run v false := by
  induction passes generalizing w with
  | nil => exact nofun
  | cons p rest ih =>
    simp only [round, gives_bind, gives_pure] at given
    obtain ⟨changed, _, ran, more, _, later, none, rfl⟩ := given
    obtain ⟨rfl, rfl⟩ : changed = false ∧ more = false := by simpa using none.symm
    have ran := gives_perform_false.1 ran
    have here := steady (members p mem_cons_self) _ _ shows ran
    have others := ih (fun p' member => members p' (mem_cons_of_mem p member)) (here.shows shows ran) later
    exact forall_mem_cons.2 ⟨here, others⟩

theorem round_settles (still : ∀ p ∈ passes, Settles p.run v false) : Settles (round passes) v false := by
  induction passes with
  | nil => exact .pure false
  | cons p rest ih =>
    obtain ⟨here, others⟩ := forall_mem_cons.1 still
    have performed : Settles p.perform v false := here.bind (.pure false)
    exact performed.bind ((ih others).bind (.pure false))

/-- Rounds that come to an end come to one without a change. -/
theorem last_round {left : Nat} {result : Bool} (members : ∀ p ∈ passes, p ∈ all)
    (coherent : w.Coherent old) (given : Gives (rounds passes left changed) w result w') :
    0 < left ∧ ∃ w₁ : Work, w₁.Coherent old ∧ Gives (round passes) w₁ false w' := by
  induction left generalizing w changed with
  | zero =>
    obtain ⟨_, _, -, stuck⟩ := gives_bind.1 given
    exact (not_gives_throw stuck).elim
  | succ left ih =>
    refine ⟨Nat.succ_pos left, ?_⟩
    obtain ⟨more, w₂, ran, rest⟩ := gives_bind.1 given
    cases more with
    | false =>
      obtain ⟨-, rfl⟩ := gives_pure.1 rest
      exact ⟨w, coherent, ran⟩
    | true =>
      have holds := (kept_true.round members ⟨trivial, coherent⟩).of_gives ran
      exact (ih holds.coherent rest).2

end Pass

/-- The passes of the configured level find nothing to do. -/
theorem settled_of_optimizeGraph {w w' : Work} (coherent : w.Coherent old) (given : Gives optimizeGraph w changed w') :
    ∃ v, w'.Shows v ∧ v.config = w.context.config ∧
      (∀ p ∈ Pass.upTo v.config.level, Settles p.run v false) ∧ Settles optimizeGraph v false := by
  simp only [optimizeGraph, gives_bind, PassM.gives_config] at given
  obtain ⟨config, _, ⟨same, rfl⟩, given⟩ := given
  have members : ∀ p ∈ Pass.upTo config.level, p ∈ Pass.all := fun p member =>
    (mem_filter.1 member).1
  by_cases empty : Pass.upTo config.level = []
  · simp only [empty, isEmpty_nil, if_true, gives_pure] at given
    obtain ⟨-, rfl⟩ := given
    refine ⟨w'.view, coherent.shows, rfl, ?_, Settles.config.bind ?_⟩
    · rw [show w'.view.config = config from same.symm, empty]
      exact forall_mem_nil _
    · rw [show w'.view.config = config from same.symm, empty]
      exact .pure false
  · simp only [List.isEmpty_iff, empty, if_false] at given
    obtain ⟨positive, w₁, coherent₁, last⟩ := Pass.last_round members coherent given
    have same₁ : w₁.view.config = config := coherent₁.fresh.1.trans (coherent.fresh.1.symm.trans same.symm)
    have still := Pass.settles_of_round members coherent₁.shows last
    have round := Pass.round_settles still
    refine ⟨w₁.view, round.shows coherent₁.shows last, same₁.trans same, same₁ ▸ still, Settles.config.bind ?_⟩
    rw [same₁]
    simp only [List.isEmpty_iff, empty, if_false]
    obtain ⟨left, enough⟩ := Nat.exists_eq_succ_of_ne_zero positive.ne'
    rw [enough]
    exact round.bind (.pure false)

/-- An optimization that succeeds ends where nothing is left to do: done again in the context it has left,
it reports no change and makes none, and the same is true of each single pass of the configured level. -/
theorem optimizeGraph_settled {g : Graph} {config : Config} {s : Supply} {changed : Bool} {w : Work}
    (optimized : Gives optimizeGraph ⟨g, { config }, s⟩ changed w) :
    (∃ w', Gives optimizeGraph w false w' ∧ w'.graph = w.graph) ∧
      ∀ p ∈ Pass.upTo config.level, ∃ w', Gives p.run w false w' ∧ w'.graph = w.graph := by
  have coherent : Work.Coherent { config } ⟨g, { config }, s⟩ := ⟨.empty g, rfl, fun _ => .inl⟩
  obtain ⟨v, shows, rfl, passes, whole⟩ := settled_of_optimizeGraph coherent optimized
  constructor
  · obtain ⟨w', given, shows'⟩ := whole w shows
    exact ⟨w', given, shows'.graph.trans shows.graph.symm⟩
  · intro p member
    obtain ⟨w', given, shows'⟩ := passes p member w shows
    exact ⟨w', given, shows'.graph.trans shows.graph.symm⟩

theorem accumulating_settled : ∃ w, Gives optimizeGraph ⟨accumulating.graph, {}, ⟨1⟩⟩ true w ∧
      (∃ w', Gives optimizeGraph w false w' ∧ w'.graph = w.graph) ∧
      ∀ p ∈ Pass.all, ∃ w', Gives p.run w false w' ∧ w'.graph = w.graph := by
  have changes : (outcome optimizeGraph ⟨accumulating.graph, {}, ⟨1⟩⟩).1.toOption = some true := by
    decide +kernel
  rcases given : outcome optimizeGraph ⟨accumulating.graph, {}, ⟨1⟩⟩ with ⟨e | changed, w⟩
  · rw [given] at changes
    cases changes
  · rw [given] at changes
    obtain rfl : changed = true := Option.some.inj changes
    exact ⟨w, given, optimizeGraph_settled given⟩

end Quadcode
