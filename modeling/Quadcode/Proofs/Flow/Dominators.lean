import Mathlib.Data.Nat.Count
import Quadcode.Proofs.Graph.Dominance
import Quadcode.Proofs.Graph.Normal

/-!
# The dominators that are computed

The sets start out full and only lose members. None loses a dominator of its block, and sets that no
sweep changes have nothing but dominators, however tangled the graph is. The dominators of a block
form a line, so the one with the largest set is the closest, and the steps up from a block to the
entry count its strict dominators.
-/

namespace Quadcode

open List Array Quadcode.Graph BlockMap

namespace Dominators

variable {g : Graph} {sets : Array Nat} {b d : BlockId} {j : Nat}

/-! ## Numbers -/

/-- The blocks in the order of their numbers. -/
def ordered (g : Graph) : Array BlockId := g.reversePostorder.toArray

def numbering (g : Graph) : BlockMap Nat :=
  (List.range (ordered g).size).foldl (fun m i => m.insert ((ordered g).getD i 0) i) ∅

/-- The number of a block. -/
def position (g : Graph) (b : BlockId) : Nat := g.reversePostorder.idxOf b

section

variable (linked : g.Linked)
include linked

theorem position_lt (member : b ∈ g.layout) : position g b < (ordered g).size :=
  idxOf_lt_length_of_mem (linked.mem_reversePostorder.2 member)

theorem ordered_position (member : b ∈ g.layout) : (ordered g).getD (position g b) 0 = b := by
  have bound := position_lt linked member
  rw [Array.getD_eq_getD_getElem?, Array.getElem?_eq_getElem bound, Option.getD_some]
  exact List.getElem_idxOf bound

variable {i : Nat}

theorem position_ordered (bound : i < (ordered g).size) : position g ((ordered g).getD i 0) = i := by
  rw [Array.getD_eq_getD_getElem?, Array.getElem?_eq_getElem bound, Option.getD_some]
  exact linked.inside.reversePostorder_nodup.idxOf_getElem i bound

theorem ordered_mem (bound : i < (ordered g).size) : (ordered g).getD i 0 ∈ g.layout := by
  rw [Array.getD_eq_getD_getElem?, Array.getElem?_eq_getElem bound, Option.getD_some]
  exact linked.mem_reversePostorder.1 (List.getElem_mem bound)

theorem position_inj (member : b ∈ g.layout) (member' : d ∈ g.layout) (same : position g b = position g d) : b = d := by
  rw [← ordered_position linked member, same, ordered_position linked member']

/-- The entry has the first number. -/
theorem position_eq_zero (member : b ∈ g.layout) : position g b = 0 ↔ b = g.entry := by
  have first : position g g.entry = 0 := by
    obtain ⟨rest, order⟩ := head?_eq_some_iff.1 linked.inside.head_reversePostorder
    rw [position, order, idxOf_cons_self]
  constructor
  · intro zero
    exact position_inj linked member linked.entry_mem (zero.trans first.symm)
  · rintro rfl
    exact first

/-- The numbers of the blocks other than the entry. -/
theorem ordered_later (listed : i ∈ List.range' 1 ((ordered g).size - 1)) :
    i < (ordered g).size ∧ (ordered g).getD i 0 ≠ g.entry := by
  rw [List.mem_range'_1] at listed
  have bound : i < (ordered g).size := by omega
  refine ⟨bound, fun first => ?_⟩
  have zero := (position_eq_zero linked (ordered_mem linked bound)).2 first
  rw [position_ordered linked bound] at zero
  omega

theorem position_later (member : b ∈ g.layout) (later : b ≠ g.entry) :
    position g b ∈ List.range' 1 ((ordered g).size - 1) := by
  have bound := position_lt linked member
  have positive := mt (position_eq_zero linked member).1 later
  rw [List.mem_range'_1]
  omega

theorem numbering_getElem? (member : b ∈ g.layout) : (numbering g)[b]? = some (position g b) := by
  suffices upTo : ∀ k ≤ (ordered g).size, ((List.range k).foldl
      (fun m i => m.insert ((ordered g).getD i 0) i) (∅ : BlockMap Nat))[b]? =
        if position g b < k then some (position g b) else none by
    rw [numbering, upTo _ (Nat.le_refl _), if_pos (position_lt linked member)]
  intro k
  induction k with
  | zero => simp
  | succ k ih =>
    intro bound
    rw [List.range_succ, List.foldl_concat, BlockMap.getElem?_insert, ih (Nat.le_of_succ_le bound)]
    by_cases here : (ordered g).getD k 0 = b
    · have same : position g b = k := here ▸ position_ordered linked bound
      rw [if_pos here, if_pos (by omega), same]
    · have other : position g b ≠ k := fun same => here (same ▸ ordered_position linked member)
      rw [if_neg here]
      by_cases below : position g b < k
      · rw [if_pos below, if_pos (by omega)]
      · rw [if_neg below, if_neg (by omega)]

theorem number_eq (member : b ∈ g.layout) : number g (numbering g) b = .ok (position g b) := by
  rw [number, numbering_getElem? linked member]

end

/-! ## Sets -/

/-- The set of `b` has the member `d`. -/
def Has (g : Graph) (sets : Array Nat) (d b : BlockId) : Prop := (sets.getD (position g b) 0).testBit (position g d)

theorem testBit_full {n : Nat} : (full n).testBit i = decide (i < n) := by
  rw [full, Nat.one_shiftLeft, Nat.testBit_two_pow_sub_one]

theorem testBit_singleton : (1 <<< i).testBit j = decide (i = j) := by
  rw [Nat.one_shiftLeft, Nat.testBit_two_pow]

/-- Meets the set of one more predecessor. -/
def meetStep (g : Graph) (sets : Array Nat) (acc : Nat) (p : BlockId) : Except Failure Nat := do
  pure (acc &&& sets.getD (← number g (numbering g) p) 0)

section

variable (linked : g.Linked)
include linked

/-- What dominates all predecessors of a block, and the block itself. -/
theorem meetPreds_ok (sets : Array Nat) (member : b ∈ g.layout) :
    ∃ new, meetPreds g (ordered g) (numbering g) sets (position g b) = .ok new ∧
      ∀ d ∈ g.layout, new.testBit (position g d) ↔ d = b ∨ ∀ p ∈ g.preds b, Has g sets d p := by
  let meets (done : List BlockId) (acc : Nat) : Prop :=
    ∀ d ∈ g.layout, acc.testBit (position g d) ↔ ∀ p ∈ done, Has g sets d p
  have start : meets [] (full (ordered g).size) := by
    intro d inside
    simp [testBit_full, position_lt linked inside]
  have steps : ∀ done p rest acc, g.preds b = done ++ p :: rest → meets done acc →
      ∃ acc', meetStep g sets acc p = .ok acc' ∧ meets (done ++ [p]) acc' := by
    intro done p rest acc split before
    have inside : p ∈ g.layout := ((linked.mem_preds b member p).1 (by simp [split])).1
    refine ⟨_, by rw [meetStep, number_eq linked inside]; rfl, fun d laid => ?_⟩
    simp [Nat.testBit_and, before d laid, Has, or_imp, forall_and]
  obtain ⟨met, run, meets⟩ := foldlM_succeeds meets start steps
  have run : (g.preds b).foldlM (fun acc p => do
      pure (acc &&& sets.getD (← number g (numbering g) p) 0)) (full (ordered g).size) = .ok met := run
  refine ⟨met ||| 1 <<< position g b, ?_, fun d laid => ?_⟩
  · rw [meetPreds, ordered_position linked member, run]
    rfl
  · rw [Nat.testBit_or, Bool.or_eq_true, meets d laid, testBit_singleton, decide_eq_true_eq, or_comm]
    refine or_congr_left ⟨fun same => position_inj linked laid member same.symm, fun same => ?_⟩
    rw [same]

/-- Nothing that dominates a block is missing from its set, and the entry has only itself. -/
structure Above (g : Graph) (sets : Array Nat) : Prop where
  size : sets.size = (ordered g).size
  entry : sets.getD 0 0 = 1
  has : ∀ b ∈ g.layout, ∀ d ∈ g.layout, g.Dominates d b → Has g sets d b

/-- The set of a block other than the entry is what its predecessors have in common, and the block
itself. -/
def Stable (g : Graph) (sets : Array Nat) (b : BlockId) : Prop :=
  b ≠ g.entry → ∀ d ∈ g.layout, Has g sets d b ↔ d = b ∨ ∀ p ∈ g.preds b, Has g sets d p

/-- Before the first sweep. -/
theorem above_start : Above g ((Array.replicate (ordered g).size (full (ordered g).size)).setIfInBounds 0 1) := by
  have positive : 0 < (ordered g).size := Nat.lt_of_le_of_lt (Nat.zero_le _) (position_lt linked linked.entry_mem)
  have first : ((Array.replicate (ordered g).size (full (ordered g).size)).setIfInBounds 0 1).getD 0 0 = 1 := by
    simp [getD_eq_getD_getElem?, positive]
  refine ⟨by simp, first, fun b member d inside dominates => ?_⟩
  unfold Has
  by_cases entry : b = g.entry
  · subst entry
    rw [(position_eq_zero linked member).2 rfl, first, dominates_entry.1 dominates,
      (position_eq_zero linked member).2 rfl]
    decide
  · have other : 0 ≠ position g b := fun zero => entry ((position_eq_zero linked member).1 zero.symm)
    simp [getD_eq_getD_getElem?, other, position_lt linked member, testBit_full, position_lt linked inside]

/-- Recomputing the set of a block loses none of its dominators. -/
theorem Above.recompute (above : Above g sets) (member : b ∈ g.layout) (later : b ≠ g.entry) {new : Nat}
    (computed : ∀ d ∈ g.layout, new.testBit (position g d) ↔ d = b ∨ ∀ p ∈ g.preds b, Has g sets d p) :
    Above g (sets.setIfInBounds (position g b) new) := by
  have bound : position g b < sets.size := above.size ▸ position_lt linked member
  have other : position g b ≠ 0 := fun zero => later ((position_eq_zero linked member).1 zero)
  refine ⟨by rw [size_setIfInBounds, above.size], ?_, fun c laid d inside dominates => ?_⟩
  · rw [getD_eq_getD_getElem?, getElem?_setIfInBounds_ne other, ← getD_eq_getD_getElem?, above.entry]
  · unfold Has
    rw [getD_eq_getD_getElem?]
    by_cases here : c = b
    · subst here
      rw [getElem?_setIfInBounds_self_of_lt bound, Option.getD_some, computed d inside]
      by_cases same : d = c
      · exact .inl same
      · refine .inr fun p pred => ?_
        obtain ⟨laid', edge⟩ := (linked.mem_preds c laid p).1 pred
        exact above.has p laid' d inside (dominates.of_edge same edge)
    · rw [getElem?_setIfInBounds_ne fun same => here (position_inj linked member laid same).symm,
        ← getD_eq_getD_getElem?]
      exact above.has c laid d inside dominates

/-- Recomputes one set of a sweep. -/
def sweepStep (g : Graph) (x : Array Nat × Bool) (i : Nat) : Except Failure (Array Nat × Bool) := do
  let new ← meetPreds g (ordered g) (numbering g) x.1 i
  if new = x.1.getD i 0 then pure (x.1, x.2) else pure (x.1.setIfInBounds i new, true)

/-- A sweep from `sets` that has recomputed the sets of the numbers in `done`. -/
def Swept (g : Graph) (sets : Array Nat) (done : List Nat) (x : Array Nat × Bool) : Prop :=
  Above g x.1 ∧ (x.2 = false → x.1 = sets ∧ ∀ i ∈ done, Stable g sets ((ordered g).getD i 0))

theorem Swept.step {done : List Nat} {x : Array Nat × Bool} (listed : i ∈ List.range' 1 ((ordered g).size - 1))
    (swept : Swept g sets done x) :
    ∃ x', sweepStep g x i = .ok x' ∧ Swept g sets (done ++ [i]) x' := by
  obtain ⟨s, changed⟩ := x
  obtain ⟨before, quiet⟩ := swept
  obtain ⟨bound, later⟩ := ordered_later linked listed
  have member := ordered_mem linked bound
  have number := position_ordered linked bound
  obtain ⟨new, met, computed⟩ := meetPreds_ok linked s member
  have after := before.recompute linked member later computed
  rw [number] at met after
  by_cases same : new = s.getD i 0
  · refine ⟨(s, changed), by simp [sweepStep, met, same], before, fun unchanged => ?_⟩
    obtain ⟨rfl, stable⟩ := quiet unchanged
    refine ⟨rfl, fun j listed => ?_⟩
    rcases mem_append.1 listed with earlier | last
    · exact stable j earlier
    · rw [mem_singleton.1 last]
      intro _ d inside
      rw [← computed d inside, same, Has, number]
  · refine ⟨(s.setIfInBounds i new, true), ?_, after, fun unchanged => by cases unchanged⟩
    simp only [sweepStep, met]
    exact if_neg same

/-- A sweep succeeds and loses no dominator; if it changes nothing, every set is stable. -/
theorem sweep_ok (above : Above g sets) :
    ∃ sets' changed, sweep g (ordered g) (numbering g) sets = .ok (sets', changed) ∧ Above g sets' ∧
      (changed = false → ∀ b ∈ g.layout, Stable g sets' b) := by
  have start : Swept g sets [] (sets, false) := ⟨above, by simp⟩
  have steps : ∀ done i rest x, List.range' 1 ((ordered g).size - 1) = done ++ i :: rest →
      Swept g sets done x → ∃ x', sweepStep g x i = .ok x' ∧ Swept g sets (done ++ [i]) x' :=
    fun done i rest x split swept => swept.step linked (by simp [split])
  obtain ⟨⟨sets', changed⟩, run, above', quiet⟩ := foldlM_succeeds (Swept g sets) start steps
  refine ⟨sets', changed, run, above', fun unchanged b member => ?_⟩
  obtain ⟨rfl, stable⟩ := quiet unchanged
  intro later
  have here := stable _ (position_later linked member later)
  rw [ordered_position linked member] at here
  exact here later

/-- The sweeps end at stable sets, or are given up. -/
theorem iterate_ends (above : Above g sets) (rest done : Nat) :
    (∃ sets', iterate g (ordered g) (numbering g) rest done sets = .ok sets' ∧ Above g sets' ∧
      ∀ b ∈ g.layout, Stable g sets' b) ∨
      ∃ sweeps, iterate g (ordered g) (numbering g) rest done sets = fail g (.diverged sweeps) := by
  induction rest generalizing done sets with (
    obtain ⟨sets', changed, run, above', stable⟩ := sweep_ok linked above
    unfold iterate
    rw [run]
    rcases changed with _ | _
    · exact .inl ⟨sets', rfl, above', stable rfl⟩)
  | zero => exact .inr ⟨done + 1, rfl⟩
  | succ rest ih => exact ih above' (done + 1)

/-- Stable sets that miss no dominator hold the dominators and nothing else. -/
theorem Above.has_iff (above : Above g sets) (stable : ∀ b ∈ g.layout, Stable g sets b) (member : b ∈ g.layout)
    (inside : d ∈ g.layout) : Has g sets d b ↔ g.Dominates d b := by
  refine ⟨fun has path path_b => ?_, above.has b member d inside⟩
  have at_entry : Has g sets d g.entry → d = g.entry := by
    intro has
    rw [Has, (position_eq_zero linked linked.entry_mem).2 rfl, above.entry,
      Nat.testBit_one_eq_true_iff_self_eq_zero] at has
    exact (position_eq_zero linked inside).1 has
  induction path_b with
  | entry => exact mem_singleton.2 (at_entry has)
  | @step b c path before edge ih =>
    by_cases first : c = g.entry
    · subst first
      exact at_entry has ▸ mem_cons_self
    · have laid : b ∈ g.layout := (linked.mem_layout b).2 before.reaches
      rcases (stable c member first d inside).1 has with rfl | everywhere
      · exact mem_cons_self
      · exact mem_cons_of_mem c (ih laid (everywhere b (linked.pred_of_target laid edge)))

/-! ## Immediate dominators -/

/-- The sets are those of the dominators. -/
structure Exact (g : Graph) (sets : Array Nat) : Prop where
  size : sets.size = (ordered g).size
  has_iff : ∀ b ∈ g.layout, ∀ d ∈ g.layout, Has g sets d b ↔ g.Dominates d b

/-- A set has as many members as its block has dominators. -/
theorem Exact.card_eq (exact_ : Exact g sets) (member : b ∈ g.layout) :
    card (ordered g).size (sets.getD (position g b) 0) = (g.dominatorsOf b).card := by
  have counted := Nat.count_eq_card_filter_range
    (fun i => (sets.getD (position g b) 0).testBit i = true) (ordered g).size
  unfold Nat.count at counted
  unfold card
  simp only [Bool.decide_eq_true] at counted
  rw [counted]
  symm
  refine Finset.card_nbij (position g) (fun d above => ?_) (fun d above e above' same => ?_)
    fun i listed => ?_
  · obtain ⟨laid, dominates⟩ := mem_dominatorsOf.1 above
    exact Finset.mem_filter.2 ⟨Finset.mem_range.2 (position_lt linked laid),
      (exact_.has_iff b member d laid).2 dominates⟩
  · exact position_inj linked (mem_dominatorsOf.1 above).1 (mem_dominatorsOf.1 above').1 same
  · obtain ⟨below, bit⟩ := Finset.mem_filter.1 listed
    have bound := Finset.mem_range.1 below
    have laid := ordered_mem linked bound
    refine ⟨(ordered g).getD i 0, mem_dominatorsOf.2 ⟨laid, ?_⟩, position_ordered linked bound⟩
    refine (exact_.has_iff b member _ laid).1 ?_
    rw [Has, position_ordered linked bound]
    exact bit

/-- The larger of two sets, by their numbers; the second of two that are equally large. -/
def larger (cards : Array Nat) (best : Option Nat) (j : Nat) : Option Nat :=
  match best with
  | none => some j
  | some k => if cards.getD k 0 ≤ cards.getD j 0 then some j else some k

omit linked in
/-- The largest of some sets is one of them. -/
theorem foldl_larger (cards : Array Nat) {numbers : List Nat} (some_ : numbers ≠ []) :
    ∃ j ∈ numbers, numbers.foldl (larger cards) none = some j ∧ ∀ k ∈ numbers, cards.getD k 0 ≤ cards.getD j 0 := by
  induction numbers using List.reverseRecOn with
  | nil => exact absurd rfl some_
  | append_singleton done i ih =>
    rw [foldl_concat]
    by_cases first : done = []
    · subst first
      exact ⟨i, by simp, rfl, by simp⟩
    · obtain ⟨j, listed, found, most⟩ := ih first
      rw [found, larger]
      split
      next le =>
        refine ⟨i, by simp, rfl, forall_mem_append.2 ⟨fun k listed => (most k listed).trans le, by simp⟩⟩
      next lt =>
        refine ⟨j, by simp [listed], rfl, forall_mem_append.2 ⟨most, ?_⟩⟩
        simpa using Nat.le_of_not_le lt

omit linked in
theorem getD_map_card (bound : i < sets.size) (n : Nat) : (sets.map (card n)).getD i 0 = card n (sets.getD i 0) := by
  simp [getD_eq_getD_getElem?, bound]

/-- The largest set of a strict dominator is the closest one's. -/
theorem Exact.closest (exact_ : Exact g sets) (member : b ∈ g.layout) (later : b ≠ g.entry) :
    ∃ i ∈ g.layout, g.ImmediatelyDominates i b ∧
      closest? (ordered g).size sets (sets.map (card (ordered g).size)) (position g b) = some (position g i) := by
  let n := (ordered g).size
  let numbers := (List.range n).filter fun j =>
    j ≠ position g b && (sets.getD (position g b) 0).testBit j
  have mem_numbers {d : BlockId} (laid : d ∈ g.layout) : position g d ∈ numbers ↔ d ≠ b ∧ g.Dominates d b := by
    have other : position g d ≠ position g b ↔ d ≠ b :=
      not_congr ⟨position_inj linked laid member, fun same => same ▸ rfl⟩
    rw [List.mem_filter, List.mem_range, Bool.and_eq_true, decide_eq_true_eq, other,
      ← exact_.has_iff b member d laid, Has]
    exact and_iff_right (position_lt linked laid)
  have cards {d : BlockId} (laid : d ∈ g.layout) :
      (sets.map (card n)).getD (position g d) 0 = (g.dominatorsOf d).card := by
    rw [getD_map_card (exact_.size ▸ position_lt linked laid), exact_.card_eq linked laid]
  have entry : position g g.entry ∈ numbers := (mem_numbers linked.entry_mem).2 ⟨later.symm, entry_dominates b⟩
  obtain ⟨j, listed, found, most⟩ := foldl_larger (sets.map (card n)) (ne_nil_of_mem entry)
  have bound : j < n := mem_range.1 (mem_filter.1 listed).1
  have laid := ordered_mem linked bound
  have number := position_ordered linked bound
  obtain ⟨strict, dominates⟩ := (mem_numbers laid).1 (number.symm ▸ listed)
  refine ⟨_, laid, ⟨strict, dominates, fun d strict' dominates' => ?_⟩, number.symm ▸ found⟩
  have reached := (linked.mem_layout b).1 member
  have laid' : d ∈ g.layout := (linked.mem_layout d).2 (dominates'.reaches reached)
  -- Otherwise the chosen block strictly dominates `d`, which then has the larger set.
  rcases dominates'.total dominates reached with below | above_d
  · exact below
  · by_cases same : (ordered g).getD j 0 = d
    · rw [same]
      exact .refl d
    · have le := most _ ((mem_numbers laid').2 ⟨strict', dominates'⟩)
      have lt := linked.card_dominatorsOf_lt laid' same above_d
      rw [← cards laid, ← cards laid', number] at lt
      omega

theorem findIdoms_entry (sets : Array Nat) : (findIdoms (ordered g) sets)[g.entry]? = none := by
  refine List.foldlRecOn (motive := fun m : BlockMap BlockId => m[g.entry]? = none) _ _ (by simp)
    fun m before i listed => ?_
  split
  · rw [getElem?_insert, if_neg (ordered_later linked listed).2, before]
  · exact before

theorem findIdoms_eq_some (member : b ∈ g.layout) (later : b ≠ g.entry)
    (found : closest? (ordered g).size sets (sets.map (card (ordered g).size)) (position g b) = some j) :
    (findIdoms (ordered g) sets)[b]? = some ((ordered g).getD j 0) := by
  obtain ⟨front, back, split⟩ := List.append_of_mem (position_later linked member later)
  unfold findIdoms
  dsimp only
  rw [split, List.foldl_append, List.foldl_cons, found]
  refine List.foldlRecOn (motive := fun m : BlockMap BlockId => m[b]? = some ((ordered g).getD j 0))
    back _ ?_ fun m known i listed => ?_
  · rw [getElem?_insert, if_pos (ordered_position linked member)]
  · have bound := (ordered_later linked (i := i) (by rw [split]; simp [listed])).1
    split
    next k found' =>
      rw [getElem?_insert]
      by_cases here : (ordered g).getD i 0 = b
      · rw [← here, position_ordered linked bound, found'] at found
        rw [if_pos here, Option.some.inj found]
      · rw [if_neg here, known]
    · exact known

/-! ## The whole computation -/

/-- The result for some sets. -/
def ofSets (g : Graph) (sets : Array Nat) : Dominators where
  order := ordered g
  index := numbering g
  sets
  idoms := findIdoms (ordered g) sets
  frontiers := findFrontiers g (ordered g) (findIdoms (ordered g) sets)

/-- Every laid-out block has a number. -/
theorem forM_number {blocks : List BlockId} (laid : ∀ b ∈ blocks, b ∈ g.layout) :
    (blocks.forM fun b => do let _ ← number g (numbering g) b : Except Failure Unit) = .ok () := by
  induction blocks with
  | nil => rfl
  | cons b rest ih =>
    rw [List.forM_eq_forM, List.forM_cons, number_eq linked (laid b List.mem_cons_self)]
    exact ih fun c later => laid c (mem_cons_of_mem b later)

/-- The computation gives the dominators of every block, or is given up. -/
theorem compute_ends : (∃ sets, compute g = .ok (ofSets g sets) ∧ Exact g sets) ∨
      ∃ sweeps, compute g = fail g (.diverged sweeps) := by
  have unfolded : compute g = (do
      g.layout.forM fun b => do let _ ← number g (numbering g) b
      let sets ← iterate g (ordered g) (numbering g) sweepLimit 0
        ((Array.replicate (ordered g).size (full (ordered g).size)).setIfInBounds 0 1)
      pure (ofSets g sets)) := rfl
  rw [forM_number linked fun _ => id] at unfolded
  rcases iterate_ends linked (above_start linked) sweepLimit 0 with
    ⟨sets, run, above, stable⟩ | ⟨sweeps, run⟩
  · refine .inl ⟨sets, by rw [unfolded, run]; rfl, above.size, fun b member d inside => ?_⟩
    exact above.has_iff linked stable member inside
  · exact .inr ⟨sweeps, by rw [unfolded, run]; rfl⟩

variable (exact_ : Exact g sets)
include exact_

theorem Exact.dominates_iff (inside : d ∈ g.layout) (member : b ∈ g.layout) :
    (ofSets g sets).dominates d b ↔ g.Dominates d b := by
  rw [← exact_.has_iff b member d inside, Has]
  simp only [dominates, ofSets, numbering_getElem? linked inside, numbering_getElem? linked member]

theorem Exact.idom (member : b ∈ g.layout) (later : b ≠ g.entry) :
    ∃ i ∈ g.layout, (ofSets g sets).idom? b = some i ∧ g.ImmediatelyDominates i b := by
  obtain ⟨i, laid, immediate, found⟩ := exact_.closest linked member later
  refine ⟨i, laid, ?_, immediate⟩
  rw [idom?, ofSets, findIdoms_eq_some linked member later found, ordered_position linked laid]

/-- Every step up the tree leaves one dominator behind, and none is left above the entry. -/
theorem Exact.depthFrom_eq {steps : Nat} (member : b ∈ g.layout) (enough : (g.dominatorsOf b).card ≤ steps) :
    (ofSets g sets).depthFrom steps b + 1 = (g.dominatorsOf b).card := by
  induction steps generalizing b with
  | zero =>
    have itself : b ∈ g.dominatorsOf b := mem_dominatorsOf.2 ⟨member, .refl b⟩
    have positive := Finset.card_pos.2 ⟨b, itself⟩
    omega
  | succ steps ih =>
    by_cases first : b = g.entry
    · subst first
      have none : (ofSets g sets).idom? g.entry = none := findIdoms_entry linked sets
      rw [depthFrom, none, linked.dominatorsOf_entry, Finset.card_singleton]
    · obtain ⟨i, laid, found, immediate⟩ := exact_.idom linked member first
      have more := immediate.card_dominatorsOf linked member
      rw [depthFrom, found, more, ← ih laid (by omega)]

theorem Exact.card_dominatorsOf_le (member : b ∈ g.layout) : (g.dominatorsOf b).card ≤ (ordered g).size := by
  rw [← exact_.card_eq linked member, card]
  exact countP_le_length.trans_eq length_range

theorem Exact.depth_eq (member : b ∈ g.layout) : (ofSets g sets).depth b = ((g.dominatorsOf b).erase b).card := by
  have counted := exact_.depthFrom_eq linked member (exact_.card_dominatorsOf_le linked member)
  rw [Finset.card_erase_of_mem (mem_dominatorsOf.2 ⟨member, .refl b⟩), depth, ofSets, ← counted]
  rfl

end

/-- The answers are those that the paths of the graph give. -/
structure Correct (g : Graph) (doms : Dominators) : Prop where
  dominates_iff : ∀ d ∈ g.layout, ∀ b ∈ g.layout, doms.dominates d b ↔ g.Dominates d b
  idom_entry : doms.idom? g.entry = none
  idom : ∀ b ∈ g.layout, b ≠ g.entry → ∃ i ∈ g.layout, doms.idom? b = some i ∧ g.ImmediatelyDominates i b
  /-- The depth of a block is the number of its strict dominators. -/
  depth : ∀ b ∈ g.layout, doms.depth b = ((g.dominatorsOf b).erase b).card

end Dominators

/-- In a graph in normal form, dominators that are found are those of the paths, and the only reason
not to find them is that the sweeps were given up. -/
theorem Graph.dominators_correct {g : Graph} (normal : g.Normal) : (∀ doms, g.dominators = .ok doms → doms.Correct g) ∧
      ∀ e, g.dominators = .error e → ∃ sweeps, e = .diagnostic ⟨Dominators.stage, g.name, .diverged sweeps⟩ := by
  have linked := normal.toLinked
  unfold Graph.dominators
  rcases Dominators.compute_ends linked with ⟨sets, computed, exact_⟩ | ⟨sweeps, computed⟩
  · rw [computed]
    refine ⟨?_, nofun⟩
    rintro _ ⟨⟩
    exact {
      dominates_iff := fun d inside b member => exact_.dominates_iff linked inside member
      idom_entry := Dominators.findIdoms_entry linked sets
      idom := fun b member later => exact_.idom linked member later
      depth := fun b member => exact_.depth_eq linked member }
  · rw [computed]
    refine ⟨nofun, ?_⟩
    rintro _ ⟨⟩
    exact ⟨sweeps, rfl⟩

/-- A loop with two entries, `left` and `right`, and two ways from its exit to the end. The blocks are
numbered in the order of the code. -/
def tangled : Function where
  name := "tangled"
  vars := #[.declare "n" .int .param]
  params := [0]
  quads := [
    .effect (.jumpIf .lt (.var 0) (.const (.int 5)) "right"),
    .effect (.label "left"),
    .effect (.print (.var 0)),
    .effect (.jumpIf .lt (.var 0) (.const (.int 3)) "exit"),
    .effect (.label "right"),
    .effect (.jumpIf .lt (.var 0) (.const (.int 4)) "left"),
    .effect (.label "exit"),
    .effect (.jumpIf .lt (.var 0) (.const (.int 9)) "end"),
    .effect .printLine,
    .effect (.label "end"),
    .effect (.ret none)]

theorem tangled_correct : tangled.graph.Normal ∧ ∃ doms, tangled.graph.dominators = .ok doms ∧
    doms.idom? 5 = some 3 ∧ doms.idom? 3 = some 0 ∧ doms.depth 5 = 2 ∧ doms.Correct tangled.graph := by
  have normal := tangled.graph_normal rfl (by decide)
  have answers : (tangled.graph.dominators.toOption.map fun doms =>
      (doms.idom? 5, doms.idom? 3, doms.depth 5)) = some (some 3, some 0, 2) := by decide +kernel
  obtain ⟨correct, -⟩ := dominators_correct normal
  obtain ⟨doms, found, shown⟩ := toOption_map_eq_some.1 answers
  simp only [Prod.mk.injEq] at shown
  obtain ⟨idom, idom', depth⟩ := shown
  exact ⟨normal, doms, found, idom, idom', depth, correct doms found⟩

end Quadcode
