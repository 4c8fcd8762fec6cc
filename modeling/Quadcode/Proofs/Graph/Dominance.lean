import Quadcode.Proofs.Graph.Edges

/-!
# Dominance

A block dominates another when every path from the entry to the second passes through the first. Each
block that can be reached has its dominators in one line, the entry first and the block itself last.
-/

namespace Quadcode.Graph

open List

variable {g : Graph} {a b c d : BlockId} {path : List BlockId}

/-- The blocks on a path from the entry to a block, the last one first. -/
inductive Path (g : Graph) : BlockId → List BlockId → Prop
  | entry : Path g g.entry [g.entry]
  | step {b c : BlockId} {path : List BlockId} (before : Path g b path) (edge : c ∈ g.targets b) : Path g c (c :: path)

/-- Every path from the entry to `b` passes through `d`. -/
def Dominates (g : Graph) (d b : BlockId) : Prop := ∀ path, g.Path b path → d ∈ path

namespace Path

theorem last_mem (path_b : g.Path b path) : b ∈ path := by
  cases path_b <;> exact mem_cons_self

theorem reaches (path_b : g.Path b path) : g.Reaches g.entry b := by
  induction path_b with
  | entry => exact .refl
  | step _ edge ih => exact ih.tail edge

/-- A path has passed through each of its blocks by a path. -/
theorem upTo (path_b : g.Path b path) (member : d ∈ path) : ∃ front, g.Path d front ∧ front <:+ path := by
  induction path_b with
  | entry =>
    obtain rfl := mem_singleton.1 member
    exact ⟨_, .entry, suffix_rfl⟩
  | @step b c path before edge ih =>
    rcases mem_cons.1 member with rfl | earlier
    · exact ⟨_, .step before edge, suffix_rfl⟩
    · obtain ⟨front, path_d, suffix⟩ := ih earlier
      exact ⟨front, path_d, suffix.trans (suffix_cons c path)⟩

end Path

theorem Reaches.exists_path (reached : g.Reaches g.entry b) : ∃ path, g.Path b path := by
  induction reached with
  | refl => exact ⟨_, .entry⟩
  | tail _ edge ih =>
    obtain ⟨path, before⟩ := ih
    exact ⟨_, .step before edge⟩

theorem entry_dominates (b : BlockId) : g.Dominates g.entry b := by
  intro path path_b
  induction path_b with
  | entry => exact mem_cons_self
  | step _ _ ih => exact mem_cons_of_mem _ ih

theorem dominates_entry : g.Dominates d g.entry ↔ d = g.entry := by
  constructor
  · intro dominates
    exact mem_singleton.1 (dominates _ .entry)
  · rintro rfl
    exact entry_dominates _

namespace Dominates

theorem refl (b : BlockId) : g.Dominates b b := fun _ path_b => path_b.last_mem

theorem trans (first : g.Dominates a b) (second : g.Dominates b c) : g.Dominates a c := by
  intro path path_c
  obtain ⟨front, path_b, suffix⟩ := path_c.upTo (second path path_c)
  exact suffix.subset (first front path_b)

/-- A strict dominator of a block dominates each block that leads to it. -/
theorem of_edge (dominates : g.Dominates d c) (strict : d ≠ c) (edge : c ∈ g.targets b) : g.Dominates d b := by
  intro path path_b
  exact mem_of_ne_of_mem strict (dominates _ (.step path_b edge))

theorem reaches (dominates : g.Dominates d b) (reached : g.Reaches g.entry b) : g.Reaches g.entry d := by
  obtain ⟨path, path_b⟩ := reached.exists_path
  obtain ⟨front, path_d, -⟩ := path_b.upTo (dominates path path_b)
  exact path_d.reaches

/-- Two blocks that dominate each other are one: of two different ones, a path to either would have
passed through the other on a shorter path. -/
theorem antisymm {a b : BlockId} {path : List BlockId} (first : g.Dominates a b) (second : g.Dominates b a)
    (path_b : g.Path b path) : a = b := by
  obtain ⟨front, path_a, suffix⟩ := path_b.upTo (first path path_b)
  by_cases whole : front = path
  · subst whole
    cases path_a <;> cases path_b <;> rfl
  · have shorter : front.length < path.length :=
      Nat.lt_of_le_of_ne suffix.length_le fun same => whole (suffix.eq_of_length same)
    exact (antisymm second first path_a).symm
termination_by path.length

/-- Of two dominators of a block that is reached, one dominates the other. -/
theorem total (first : g.Dominates a c) (second : g.Dominates b c) (reached : g.Reaches g.entry c) :
    g.Dominates a b ∨ g.Dominates b a := by
  induction reached with
  | refl =>
    rw [dominates_entry.1 first, dominates_entry.1 second]
    exact .inl (refl _)
  | @tail c e _ edge ih =>
    by_cases last : a = e
    · exact .inr (last ▸ second)
    · by_cases last' : b = e
      · exact .inl (last' ▸ first)
      · exact ih (first.of_edge last edge) (second.of_edge last' edge)

end Dominates

/-! ## Counting dominators -/

open Classical in
/-- The laid-out blocks that dominate a block. -/
noncomputable def dominatorsOf (g : Graph) (b : BlockId) : Finset BlockId := g.layout.toFinset.filter (g.Dominates · b)

theorem mem_dominatorsOf : d ∈ g.dominatorsOf b ↔ d ∈ g.layout ∧ g.Dominates d b := by
  simp [dominatorsOf]

/-- A strict dominator of a block does not have the block among its own dominators. -/
theorem Linked.not_mem_dominatorsOf (linked : g.Linked) (member : b ∈ g.layout) (strict : d ≠ b)
    (dominates : g.Dominates d b) : b ∉ g.dominatorsOf d := by
  intro back
  obtain ⟨path, path_b⟩ := Reaches.exists_path ((linked.mem_layout b).1 member)
  exact strict (dominates.antisymm (mem_dominatorsOf.1 back).2 path_b)

/-- A strict dominator has fewer dominators. -/
theorem Linked.card_dominatorsOf_lt (linked : g.Linked) (member : b ∈ g.layout) (strict : d ≠ b)
    (dominates : g.Dominates d b) : (g.dominatorsOf d).card < (g.dominatorsOf b).card := by
  refine Finset.card_lt_card ⟨fun a above => ?_, fun sub => ?_⟩
  · obtain ⟨laid, dominates_d⟩ := mem_dominatorsOf.1 above
    exact mem_dominatorsOf.2 ⟨laid, dominates_d.trans dominates⟩
  · exact linked.not_mem_dominatorsOf member strict dominates (sub (mem_dominatorsOf.2 ⟨member, .refl b⟩))

/-- The strict dominator of a block that all the others dominate. -/
structure ImmediatelyDominates (g : Graph) (i b : BlockId) : Prop where
  strict : i ≠ b
  dominates : g.Dominates i b
  closest : ∀ d, d ≠ b → g.Dominates d b → g.Dominates d i

/-- The dominators of a block are the block and those of the closest strict one. -/
theorem ImmediatelyDominates.card_dominatorsOf {i : BlockId} (above : g.ImmediatelyDominates i b) (linked : g.Linked)
    (member : b ∈ g.layout) : (g.dominatorsOf b).card = (g.dominatorsOf i).card + 1 := by
  have same : g.dominatorsOf b = insert b (g.dominatorsOf i) := by
    ext d
    simp only [Finset.mem_insert, mem_dominatorsOf]
    constructor
    · rintro ⟨laid, dominates⟩
      by_cases here : d = b
      · exact .inl here
      · exact .inr ⟨laid, above.closest d here dominates⟩
    · rintro (rfl | ⟨laid, dominates⟩)
      · exact ⟨member, .refl d⟩
      · exact ⟨laid, dominates.trans above.dominates⟩
  rw [same, Finset.card_insert_of_notMem (linked.not_mem_dominatorsOf member above.strict above.dominates)]

theorem Linked.dominatorsOf_entry (linked : g.Linked) : g.dominatorsOf g.entry = {g.entry} := by
  ext d
  rw [mem_dominatorsOf, dominates_entry, Finset.mem_singleton]
  exact ⟨And.right, fun same => ⟨same ▸ linked.entry_mem, same⟩⟩

end Quadcode.Graph
