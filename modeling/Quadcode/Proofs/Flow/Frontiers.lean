import Quadcode.Proofs.Flow.Dominators

/-!
# Dominance frontiers

A block is in the frontier of another if that one dominates some predecessor of the block, but does not strictly
dominate the block itself. The frontiers are found by climbing from each predecessor of a block with two or more of
them to the immediate dominator of the block. A block with one predecessor is in no frontier, unless it is the
entry, which control reaches without coming from any predecessor: what is missing from the frontiers is an entry
that has exactly one predecessor.
-/

namespace Quadcode

open List Quadcode.Graph Dominators

variable {g : Graph} {b p x y : BlockId}

namespace Graph

/-- Control comes to a block other than the entry for a first time, so the block cannot dominate all of its
predecessors. -/
theorem Linked.exists_pred (linked : g.Linked) (laid : y ∈ g.layout) (later : y ≠ g.entry) :
    ∃ p ∈ g.preds y, ¬g.Dominates y p := by
  by_contra never
  have above : ∀ p ∈ g.preds y, g.Dominates y p := fun p pred =>
    Classical.not_not.1 fun not_above => never ⟨p, pred, not_above⟩
  have avoided {b : BlockId} {path : List BlockId} (path_b : g.Path b path) : y ∉ path := by
    induction path_b with
    | entry => simpa using later
    | @step b c path before edge ih =>
      intro member
      rcases mem_cons.1 member with rfl | earlier
      · have pred := linked.pred_of_target ((linked.mem_layout b).2 before.reaches) edge
        exact ih (above b pred path before)
      · exact ih earlier
  obtain ⟨path, path_y⟩ := Reaches.exists_path ((linked.mem_layout y).1 laid)
  exact avoided path_y path_y.last_mem

/-- What dominates the only predecessor of a block other than the entry strictly dominates the block. -/
theorem Linked.dominates_of_pred (linked : g.Linked) (laid : y ∈ g.layout) (later : y ≠ g.entry)
    (only : g.preds y = [p]) (dominates : g.Dominates x p) : x ≠ y ∧ g.Dominates x y := by
  constructor
  · rintro rfl
    obtain ⟨q, pred, not_above⟩ := linked.exists_pred laid later
    rw [only, mem_singleton] at pred
    exact not_above (pred ▸ dominates)
  · intro path path_y
    cases path_y with
    | entry => exact absurd rfl later
    | @step q _ path before edge =>
      have pred : q ∈ g.preds y := linked.pred_of_target ((linked.mem_layout q).2 before.reaches) edge
      rw [only, mem_singleton] at pred
      exact mem_cons_of_mem y (dominates path (pred ▸ before))

/-- The strict dominators of a block are the dominators of the closest one. -/
theorem ImmediatelyDominates.dominates_iff {i : BlockId} (above : g.ImmediatelyDominates i y)
    (reached : g.Reaches g.entry y) : g.Dominates x i ↔ x ≠ y ∧ g.Dominates x y := by
  constructor
  · intro dominates
    refine ⟨?_, dominates.trans above.dominates⟩
    rintro rfl
    obtain ⟨path, path_x⟩ := reached.exists_path
    exact above.strict (above.dominates.antisymm dominates path_x)
  · rintro ⟨strict, dominates⟩
    exact above.closest x strict dominates

end Graph

namespace Dominators

variable {sets : Array Nat}

/-- A map of frontiers has `y` in that of `x`. -/
def InFrontier (m : BlockMap BlockSet) (x y : BlockId) : Prop := y ∈ m[x]?.getD ∅

variable {m : BlockMap BlockSet} {r : BlockId}

theorem inFrontier_insert :
    InFrontier (m.insert r ((m[r]?.getD ∅).insert b)) x y ↔ InFrontier m x y ∨ x = r ∧ y = b := by
  unfold InFrontier
  rw [BlockMap.getElem?_insert]
  by_cases here : r = x
  · subst here
    simp [Std.ExtTreeSet.mem_insert, or_comm, eq_comm (a := y)]
  · simp [here, Ne.symm here]

variable (exact_ : Exact g sets) (linked : g.Linked)
include exact_ linked

/-- Every step of a climb leaves the lowest dominator behind, and the climb ends below its stop. So it passes
the dominators of its start, up to those of the stop. -/
theorem Exact.climb_iff {stop : Option BlockId} {steps : Nat} (member : r ∈ g.layout)
    (above : ∀ i ∈ stop, g.Dominates i r) (enough : (g.dominatorsOf r).card ≤ steps) :
    InFrontier (climb (findIdoms (ordered g) sets) stop b steps (some r) m) x y ↔
      InFrontier m x y ∨ (g.Dominates x r ∧ ∀ i ∈ stop, ¬g.Dominates x i) ∧ y = b := by
  obtain ⟨path, path_r⟩ := Graph.Reaches.exists_path ((linked.mem_layout r).1 member)
  induction steps generalizing r path m with
  | zero =>
    have itself : r ∈ g.dominatorsOf r := mem_dominatorsOf.2 ⟨member, .refl r⟩
    have positive := Finset.card_pos.2 ⟨r, itself⟩
    omega
  | succ steps ih =>
    rw [climb]
    by_cases stopped : some r = stop
    · rw [if_pos stopped]
      subst stopped
      simp
    · -- Nothing that the climb stops at is dominated by `r`.
      have below : ∀ i ∈ stop, ¬g.Dominates r i := by
        intro i listed dominates
        apply stopped
        rw [Option.mem_def.1 listed, (above i listed).antisymm dominates path_r]
      rw [if_neg stopped]
      by_cases first : r = g.entry
      · subst first
        have top : (findIdoms (ordered g) sets)[g.entry]? = none := findIdoms_entry linked sets
        have finished : ∀ m, climb (findIdoms (ordered g) sets) stop b steps none m = m := by
          intro m
          cases steps <;> rfl
        rw [top, finished, inFrontier_insert]
        apply or_congr_right
        constructor
        · rintro ⟨rfl, same⟩
          exact ⟨⟨.refl _, below⟩, same⟩
        · rintro ⟨⟨dominates, -⟩, same⟩
          exact ⟨dominates_entry.1 dominates, same⟩
      · obtain ⟨i, laid, found, immediate⟩ := exact_.idom linked member first
        have found : (findIdoms (ordered g) sets)[r]? = some i := found
        have fewer := immediate.card_dominatorsOf linked member
        obtain ⟨path_i', path_i⟩ := Graph.Reaches.exists_path ((linked.mem_layout i).1 laid)
        have still : ∀ j ∈ stop, g.Dominates j i := by
          intro j listed
          apply immediate.closest j _ (above j listed)
          rintro rfl
          exact below j listed (.refl j)
        rw [found, ih laid still (by omega) path_i' path_i, inFrontier_insert, or_assoc]
        apply or_congr_right
        constructor
        · rintro (⟨rfl, same⟩ | ⟨⟨dominates, outside⟩, same⟩)
          · exact ⟨⟨.refl x, below⟩, same⟩
          · exact ⟨⟨dominates.trans immediate.dominates, outside⟩, same⟩
        · rintro ⟨⟨dominates, outside⟩, same⟩
          by_cases here : x = r
          · exact .inl ⟨here, same⟩
          · exact .inr ⟨⟨immediate.closest x here dominates, outside⟩, same⟩

/-- What the predecessors of one block add to the frontiers. -/
theorem Exact.foldl_climb_iff (member : b ∈ g.layout) {preds : List BlockId} (among : ∀ p ∈ preds, p ∈ g.preds b) :
    InFrontier (preds.foldl (fun m p => climb (findIdoms (ordered g) sets) (findIdoms (ordered g) sets)[b]? b
      ((ordered g).size + 1) (some p) m) m) x y ↔
      InFrontier m x y ∨ ((∃ p ∈ preds, g.Dominates x p) ∧ ¬(x ≠ b ∧ g.Dominates x b)) ∧ y = b := by
  have reached := (linked.mem_layout b).1 member
  have immediate : ∀ i ∈ (findIdoms (ordered g) sets)[b]?, g.ImmediatelyDominates i b := by
    intro i found
    by_cases first : b = g.entry
    · subst first
      cases (findIdoms_entry linked sets).symm.trans found
    · obtain ⟨j, -, found', immediate⟩ := exact_.idom linked member first
      cases found'.symm.trans found
      exact immediate
  have outside : (∀ i ∈ (findIdoms (ordered g) sets)[b]?, ¬g.Dominates x i) ↔ ¬(x ≠ b ∧ g.Dominates x b) := by
    constructor
    · rintro away ⟨strict, dominates⟩
      by_cases first : b = g.entry
      · subst first
        exact strict (dominates_entry.1 dominates)
      · obtain ⟨i, -, found, immediate⟩ := exact_.idom linked member first
        exact away i found (immediate.closest x strict dominates)
    · intro away i found dominates
      exact away (((immediate i found).dominates_iff reached).1 dominates)
  induction preds generalizing m with
  | nil => simp
  | cons p rest ih =>
    obtain ⟨laid, edge⟩ := (linked.mem_preds b member p).1 (among p mem_cons_self)
    have above : ∀ i ∈ (findIdoms (ordered g) sets)[b]?, g.Dominates i p := by
      intro i found
      exact (immediate i found).dominates.of_edge (immediate i found).strict edge
    have enough := Nat.le_succ_of_le (exact_.card_dominatorsOf_le linked laid)
    have others := fun q later => among q (mem_cons_of_mem p later)
    rw [foldl_cons]
    refine (ih others).trans ?_
    rw [exact_.climb_iff linked laid above enough, outside, or_assoc]
    simp only [mem_cons, exists_eq_or_imp]
    apply or_congr_right
    constructor
    · rintro (⟨⟨dominates, away⟩, same⟩ | ⟨⟨later, away⟩, same⟩)
      · exact ⟨⟨.inl dominates, away⟩, same⟩
      · exact ⟨⟨.inr later, away⟩, same⟩
    · rintro ⟨⟨dominates | later, away⟩, same⟩
      · exact .inl ⟨⟨dominates, away⟩, same⟩
      · exact .inr ⟨⟨later, away⟩, same⟩

/-- What the blocks of a list add to the frontiers. -/
theorem Exact.foldl_frontiers_iff {blocks : List BlockId} (laid : ∀ b ∈ blocks, b ∈ g.layout) :
    InFrontier (blocks.foldl (fun m b =>
      if (g.preds b).length < 2 then m
      else (g.preds b).foldl (fun m p => climb (findIdoms (ordered g) sets) (findIdoms (ordered g) sets)[b]? b
        ((ordered g).size + 1) (some p) m) m) m) x y ↔
      InFrontier m x y ∨ y ∈ blocks ∧ 2 ≤ (g.preds y).length ∧ (∃ p ∈ g.preds y, g.Dominates x p) ∧
        ¬(x ≠ y ∧ g.Dominates x y) := by
  induction blocks generalizing m with
  | nil => simp
  | cons b rest ih =>
    have later := fun c listed => laid c (mem_cons_of_mem b listed)
    rw [foldl_cons]
    refine (ih later).trans ?_
    by_cases few : (g.preds b).length < 2
    · rw [if_pos few, mem_cons]
      apply or_congr_right
      constructor
      · rintro ⟨listed, rest⟩
        exact ⟨.inr listed, rest⟩
      · rintro ⟨rfl | listed, many, rest⟩
        · omega
        · exact ⟨listed, many, rest⟩
    · rw [if_neg few, exact_.foldl_climb_iff linked (laid b mem_cons_self) fun p => id, mem_cons, or_assoc]
      apply or_congr_right
      constructor
      · rintro (⟨between, rfl⟩ | ⟨listed, rest⟩)
        · exact ⟨.inl rfl, Nat.le_of_not_lt few, between⟩
        · exact ⟨.inr listed, rest⟩
      · rintro ⟨rfl | listed, many, between⟩
        · exact .inl ⟨between, rfl⟩
        · exact .inr ⟨listed, many, between⟩

theorem Exact.mem_frontier : y ∈ (ofSets g sets).frontier x ↔ y ∈ g.layout ∧ 2 ≤ (g.preds y).length ∧
      (∃ p ∈ g.preds y, g.Dominates x p) ∧ ¬(x ≠ y ∧ g.Dominates x y) := by
  let start : BlockMap BlockSet := (ordered g).foldl (fun m b => m.insert b ∅) ∅
  have nothing : ¬InFrontier start x y := by
    refine Array.foldl_induction (motive := fun _ m => ¬InFrontier m x y) (by simp [InFrontier]) ?_
    intro i m before
    unfold InFrontier
    rw [BlockMap.getElem?_insert]
    split
    · simp
    · exact before
  have laid : ∀ b ∈ g.reversePostorder, b ∈ g.layout := fun b => linked.mem_reversePostorder.1
  have added := exact_.foldl_frontiers_iff linked laid (x := x) (y := y) (m := start)
  rw [or_iff_right nothing, linked.mem_reversePostorder, ← foldl_toArray] at added
  exact added

end Dominators

/-- A block is in the frontier of another exactly if that one dominates one of its predecessors and does not
strictly dominate the block, and the block is not an entry with a single predecessor. -/
theorem Graph.mem_frontier_iff {d : Dominators} (normal : g.Normal) (computed : g.dominators = .ok d)
    (laid : b ∈ g.layout) (laid_y : y ∈ g.layout) :
    y ∈ d.frontier b ↔ ((∃ p ∈ g.preds y, d.dominates b p) ∧ ¬d.strictlyDominates b y) ∧
      (y = g.entry → 2 ≤ (g.preds y).length) := by
  have linked := normal.toLinked
  obtain ⟨sets, computed', exact_⟩ | ⟨sweeps, failed⟩ := compute_ends linked
  · cases computed.symm.trans computed'
    have strictly : (ofSets g sets).strictlyDominates b y ↔ b ≠ y ∧ g.Dominates b y := by
      simp [strictlyDominates, exact_.dominates_iff linked laid laid_y]
    have above : (∃ p ∈ g.preds y, (ofSets g sets).dominates b p) ↔ ∃ p ∈ g.preds y, g.Dominates b p := by
      refine exists_congr fun p => and_congr_right fun pred => ?_
      exact exact_.dominates_iff linked laid ((linked.mem_preds y laid_y p).1 pred).1
    rw [exact_.mem_frontier linked, strictly, above]
    constructor
    · rintro ⟨-, many, between⟩
      exact ⟨between, fun _ => many⟩
    · rintro ⟨⟨⟨p, pred, dominates⟩, outside⟩, entry⟩
      refine ⟨laid_y, ?_, ⟨p, pred, dominates⟩, outside⟩
      -- A single predecessor would pass its dominators on to a block that is not the entry.
      by_contra few
      have later : y ≠ g.entry := fun first => few (entry first)
      have only : g.preds y = [p] := by
        obtain ⟨q, same⟩ := length_eq_one_iff.1
          (Nat.le_antisymm (Nat.le_of_lt_succ (Nat.lt_of_not_le few)) (length_pos_of_mem pred))
        rw [same, mem_singleton] at pred
        rw [same, pred]
      exact outside (linked.dominates_of_pred laid_y later only dominates)
  · cases computed.symm.trans failed

/-- Two ways back to the first block, of which the second is also the end of a branch. -/
def rejoining : Function where
  name := "rejoining"
  vars := #[.declare "n" .int .param]
  params := [0]
  quads := [
    .effect (.label "top"),
    .effect (.jumpIf .lt (.var 0) (.const (.int 5)) "right"),
    .effect (.print (.var 0)),
    .effect (.goto "join"),
    .effect (.label "right"),
    .effect (.jumpIf .lt (.var 0) (.const (.int 3)) "top"),
    .effect (.label "join"),
    .effect (.jumpIf .lt (.var 0) (.const (.int 9)) "top"),
    .effect (.ret none)]

theorem rejoining_frontiers : rejoining.graph.Normal ∧ ∃ d, rejoining.graph.dominators = .ok d ∧
    d.dominates 0 3 ∧ 0 ∈ d.frontier 0 ∧ d.dominates 2 2 ∧ ¬d.strictlyDominates 2 3 ∧ 3 ∈ d.frontier 2 := by
  have normal := rejoining.graph_normal rfl (by decide)
  have answers : (rejoining.graph.dominators.toOption.map fun d =>
      (d.dominates 0 3, d.strictlyDominates 0 0, d.dominates 2 2, d.strictlyDominates 2 3)) =
        some (true, false, true, false) := by decide +kernel
  obtain ⟨d, found, shown⟩ := toOption_map_eq_some.1 answers
  simp only [Prod.mk.injEq] at shown
  obtain ⟨top, itself, right, join⟩ := shown
  have entry := (mem_frontier_iff normal found (b := 0) (y := 0) (by decide +kernel) (by decide +kernel)).2
    ⟨⟨⟨3, by decide +kernel, top⟩, by simp [itself]⟩, by decide +kernel⟩
  have joined := (mem_frontier_iff normal found (b := 2) (y := 3) (by decide +kernel) (by decide +kernel)).2
    ⟨⟨⟨2, by decide +kernel, right⟩, by simp [join]⟩, by decide +kernel⟩
  exact ⟨normal, d, found, top, entry, right, by simp [join], joined⟩

/-- One way back to the first block. -/
def restarting : Function where
  name := "restarting"
  vars := #[.declare "n" .int .param]
  params := [0]
  quads := [
    .effect (.label "top"),
    .effect (.jumpIf .lt (.var 0) (.const (.int 5)) "out"),
    .effect (.print (.var 0)),
    .effect (.goto "top"),
    .effect (.label "out"),
    .effect (.ret none)]

theorem restarting_misses_entry : restarting.graph.Normal ∧ ∃ d, restarting.graph.dominators = .ok d ∧
    (∃ p ∈ restarting.graph.preds 0, d.dominates 0 p) ∧ ¬d.strictlyDominates 0 0 ∧ 0 ∉ d.frontier 0 := by
  have normal := restarting.graph_normal rfl (by decide)
  have answers : (restarting.graph.dominators.toOption.map fun d =>
      (d.dominates 0 1, d.strictlyDominates 0 0, decide (0 ∈ d.frontier 0))) = some (true, false, false) := by
    decide +kernel
  obtain ⟨d, found, shown⟩ := toOption_map_eq_some.1 answers
  simp only [Prod.mk.injEq, decide_eq_false_iff_not] at shown
  obtain ⟨body, itself, frontier⟩ := shown
  exact ⟨normal, d, found, ⟨1, by decide +kernel, body⟩, by simp [itself], frontier⟩

end Quadcode
