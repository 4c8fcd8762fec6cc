import Mathlib.Algebra.Order.BigOperators.Group.List
import Mathlib.Algebra.Order.Group.Nat
import Mathlib.Algebra.Ring.Nat
import Mathlib.Data.Nat.Cast.Basic
import Mathlib.Logic.Function.Basic
import Quadcode.Proofs.Flow.Solutions

/-!
# Sweeps that only raise values

The solver recomputes far sides and forgets the old ones. Where the code of every block is monotone
on the near values that can occur, each recomputed value is above the one it replaces: a sweep that
changes something raises the sum of the ranks of the far sides, and there is a bound on that sum.
-/

namespace Quadcode

open List BlockMap

namespace Problem

variable {α : Type} {p : Problem α} {g : Graph} {b c : BlockId} {far near : BlockMap α} {value : BlockId → α}
  {s : Sweep α}

/-- The near value of a block when the far sides are given by `value`. -/
def inflow (p : Problem α) (g : Graph) (value : BlockId → α) (b : BlockId) : α :=
  (p.neighbours g b).foldl (fun v s => p.meet v (value s)) (if p.atBoundary g b then p.boundary else p.initial)

/-- What holds of the value a block starts from, and is kept by meeting the values of its
neighbours, holds of its near value. -/
theorem inflow_holds (holds : α → Prop) (start : holds (if p.atBoundary g b then p.boundary else p.initial))
    (meets : ∀ c ∈ p.neighbours g b, ∀ v, holds v → holds (p.meet v (value c))) : holds (p.inflow g value b) :=
  List.foldlRecOn _ _ start fun v before c edge => meets c edge v before

/-- What meeting one neighbour brings about, and meeting the others keeps, holds of the near value. -/
theorem inflow_of_neighbour (holds : α → Prop) (edge : c ∈ p.neighbours g b) (met : ∀ v, holds (p.meet v (value c)))
    (stays : ∀ v w, holds v → holds (p.meet v w)) : holds (p.inflow g value b) := by
  unfold inflow
  obtain ⟨front, back, split⟩ := append_of_mem edge
  rw [split, foldl_append, foldl_cons]
  exact List.foldlRecOn (motive := holds) back _ (met _) fun v before d _ => stays v (value d) before

/-- The far sides that a map holds. -/
def values (p : Problem α) (far : BlockMap α) (b : BlockId) : α := far[b]?.getD p.initial

theorem gather_eq_inflow (total : ∀ c ∈ p.neighbours g b, far[c]?.isSome) :
    p.gather g far b = .ok (p.inflow g (p.values far) b) := by
  unfold gather inflow
  generalize (if p.atBoundary g b then p.boundary else p.initial) = v
  generalize p.neighbours g b = cs at total
  induction cs generalizing v with
  | nil => rfl
  | cons c rest ih =>
    obtain ⟨u, present⟩ := Option.isSome_iff_exists.1 (total c mem_cons_self)
    rw [foldlM_cons, foldl_cons, values, present]
    exact ih _ fun d member => total d (mem_cons_of_mem c member)

theorem inflow_of_gather {v : α} (gathered : p.gather g far b = .ok v) : v = p.inflow g (p.values far) b := by
  suffices total : ∀ c ∈ p.neighbours g b, far[c]?.isSome by
    rw [gather_eq_inflow total] at gathered
    exact (Except.ok.inj gathered).symm
  unfold gather at gathered
  generalize (if p.atBoundary g b then p.boundary else p.initial) = u at gathered
  generalize p.neighbours g b = cs at gathered
  induction cs generalizing u with
  | nil => simp
  | cons c rest ih =>
    simp only [foldlM_cons, bind_eq_ok, orFault_eq_ok, pure_eq_ok] at gathered
    obtain ⟨w, ⟨x, present, -⟩, others⟩ := gathered
    exact forall_mem_cons.2 ⟨by rw [present]; rfl, ih w others⟩

theorem values_insert (far : BlockMap α) (b : BlockId) (v : α) :
    p.values (far.insert b v) = Function.update (p.values far) b v := by
  funext c
  rw [values, getElem?_insert, Function.update_apply]
  by_cases same : b = c
  · simp [same]
  · simp [same, Ne.symm same, values]

section Invariants

/-! ## What every far side satisfies

What holds of the initial value, and is brought about by each visit if it holds of all blocks before
it, holds of every far side at any time. -/

variable [DecidableEq α] (holds : BlockId → α → Prop)
  (visits : ∀ value, ∀ b ∈ p.order g, (∀ c, holds c (value c)) → holds b (p.through g b (p.inflow g value b)))
  {sol : Solution α}

include visits

theorem sweep_holds (before : ∀ b, holds b (p.values far b)) (swept : p.sweep g near far = .ok s) (b : BlockId) :
    holds b (p.values s.far b) := by
  refine foldlM_ok (fun _ s => ∀ b, holds b (p.values s.far b)) before ?_ swept b
  intro done c rest s s' split before step b
  obtain ⟨v, gathered, rfl⟩ := visit_eq_ok.1 step
  have member : c ∈ p.order g := by simp [split]
  rw [values_insert]
  by_cases same : b = c
  · subst same
    rw [Function.update_self, inflow_of_gather gathered]
    exact visits _ b member before
  · rw [Function.update_of_ne same]
    exact before b

theorem iterate_holds {rest done : Nat} (before : ∀ b, holds b (p.values far b))
    (solved : p.iterate g rest done near far = .ok sol) (b : BlockId) : holds b (p.values sol.far b) := by
  induction rest generalizing done near far with (
    unfold iterate at solved
    obtain ⟨s, run, last⟩ := bind_eq_ok.1 solved)
  | zero =>
    split at last
    · cases last
    · cases last
      exact sweep_holds holds visits before run b
  | succ rest ih =>
    have after := sweep_holds holds visits before run
    split at last
    · exact ih after last
    · cases last
      exact after b

theorem solveWithin_holds (start : ∀ b, holds b p.initial) {limit : Nat} (solved : p.solveWithin g limit = .ok sol)
    (b : BlockId) : holds b (p.values sol.far b) := by
  refine iterate_holds holds visits (fun c => ?_) solved b
  rw [values, getElem?_foldl_insert]
  split
  · exact start c
  · simpa using start c

end Invariants

/-! ## Values that rise -/

/-- The far sides after a visit of `b`. -/
def revised (p : Problem α) (g : Graph) (value : BlockId → α) (b : BlockId) : BlockId → α :=
  Function.update value b (p.through g b (p.inflow g value b))

theorem revised_self (value : BlockId → α) (b : BlockId) : p.revised g value b b = p.through g b (p.inflow g value b) :=
  Function.update_self ..

theorem revised_of_ne (value : BlockId → α) (other : c ≠ b) : p.revised g value b c = value c :=
  Function.update_of_ne other ..

/-- Why the far sides of a problem only rise. `fit` is what the near value of a block satisfies once
the blocks before it in the order have been visited, `settled` what its far side then satisfies. -/
structure Ascent (p : Problem α) (g : Graph) where
  le : α → α → Prop
  rank : α → Nat
  top : Nat
  fit : BlockId → α → Prop
  settled : BlockId → α → Prop
  le_refl : ∀ v, le v v
  le_trans : ∀ {u v w}, le u v → le v w → le u w
  initial_le : ∀ v, le p.initial v
  meet_le : ∀ {u u' v v'}, le u u' → le v v' → le (p.meet u v) (p.meet u' v')
  through_le : ∀ {b v v'}, fit b v → fit b v' → le v v' → le (p.through g b v) (p.through g b v')
  fit_inflow : ∀ {value front b back}, p.order g = front ++ b :: back → (∀ c ∈ front, settled c (value c)) →
    (∀ c ∈ p.order g, settled c (value c) ∨ value c = p.initial) → fit b (p.inflow g value b)
  settled_through : ∀ {b v}, fit b v → settled b (p.through g b v)
  rank_lt : ∀ {b v v'}, settled b v ∨ v = p.initial → settled b v' → le v v' → v ≠ v' → rank v < rank v'
  rank_le_top : ∀ v, rank v ≤ top

namespace Ascent

variable (A : p.Ascent g) {value' : BlockId → α} {seen : BlockId → Prop}

/-- Each far side is below what a visit would make of it, and is the initial value where no visit
has been. -/
structure Rising (seen : BlockId → Prop) (value : BlockId → α) : Prop where
  settled : ∀ b ∈ p.order g, seen b → A.settled b (value b)
  fresh : ∀ b ∈ p.order g, ¬seen b → value b = p.initial
  downward : ∀ front b back, p.order g = front ++ b :: back → seen b → ∀ c ∈ front, seen c
  le_visit : ∀ b ∈ p.order g, A.le (value b) (p.through g b (p.inflow g value b))

theorem inflow_le (below : ∀ b, A.le (value b) (value' b)) (b : BlockId) :
    A.le (p.inflow g value b) (p.inflow g value' b) := by
  unfold inflow
  suffices general : ∀ (l : List BlockId) {v v' : α}, A.le v v' → A.le (l.foldl (fun v s => p.meet v (value s)) v)
        (l.foldl (fun v s => p.meet v (value' s)) v') from general _ (A.le_refl _)
  intro l
  induction l with
  | nil => exact fun h => h
  | cons c rest ih => exact fun h => ih (A.meet_le h (below c))

namespace Rising

variable {A} {done rest : List BlockId} (rising : A.Rising seen value)
include rising

theorem fit (at_b : p.order g = done ++ b :: rest) (before : ∀ c ∈ done, seen c) : A.fit b (p.inflow g value b) := by
  refine A.fit_inflow at_b (fun c member => ?_) (fun c member => ?_)
  · exact rising.settled c (by simp [at_b, member]) (before c member)
  · by_cases visited : seen c
    · exact .inl (rising.settled c member visited)
    · exact .inr (rising.fresh c member visited)

/-- A visit raises the far side of its block. -/
theorem le_revised (member : b ∈ p.order g) (c : BlockId) : A.le (value c) (p.revised g value b c) := by
  by_cases same : c = b
  · rw [same, revised_self]
    exact rising.le_visit b member
  · rw [revised_of_ne value same]
    exact A.le_refl _

/-- The step of a sweep. -/
theorem visit (distinct : (p.order g).Nodup) (at_b : p.order g = done ++ b :: rest) (before : ∀ c ∈ done, seen c) :
    A.Rising (fun c => seen c ∨ c = b) (p.revised g value b) := by
  have member : b ∈ p.order g := by simp [at_b]
  have settled : ∀ c ∈ p.order g, seen c ∨ c = b → A.settled c (p.revised g value b c) := by
    intro c inside visited
    by_cases same : c = b
    · rw [same, revised_self]
      exact A.settled_through (rising.fit at_b before)
    · rw [revised_of_ne value same]
      exact rising.settled c inside (visited.resolve_right same)
  have fresh : ∀ c ∈ p.order g, ¬(seen c ∨ c = b) → p.revised g value b c = p.initial := by
    intro c inside unvisited
    rw [not_or] at unvisited
    rw [revised_of_ne value unvisited.2, rising.fresh c inside unvisited.1]
  have downward : ∀ front c back, p.order g = front ++ c :: back → seen c ∨ c = b → ∀ d ∈ front, seen d ∨ d = b := by
    rintro front c back at_c (visited | rfl) d earlier
    · exact .inl (rising.downward front c back at_c visited d earlier)
    · rw [at_b] at at_c distinct
      have outside := (nodup_cons.1 (nodup_middle.1 distinct)).1
      rw [mem_append, not_or] at outside
      obtain ⟨rfl, -⟩ := (append_cons_inj_of_notMem outside.1 outside.2).1 at_c
      exact .inl (before d earlier)
  refine ⟨settled, fresh, downward, fun c inside => ?_⟩
  by_cases visited : seen c ∨ c = b
  · -- The value of `c` is at most what a visit made of it, or would have made of it before.
    obtain ⟨front, back, at_c⟩ := append_of_mem inside
    have fit_now : A.fit c (p.inflow g (p.revised g value b) c) := by
      refine A.fit_inflow at_c (fun d earlier => ?_) (fun d among => ?_)
      · exact settled d (by simp [at_c, earlier]) (downward front c back at_c visited d earlier)
      · by_cases h : seen d ∨ d = b
        · exact .inl (settled d among h)
        · exact .inr (fresh d among h)
    have fit_before : A.fit c (p.inflow g value c) := by
      rcases visited with visited | rfl
      · exact rising.fit at_c (rising.downward front c back at_c visited)
      · exact rising.fit at_b before
    refine A.le_trans ?_ (A.through_le fit_before fit_now (A.inflow_le (rising.le_revised member) c))
    by_cases same : c = b
    · rw [same, revised_self]
      exact A.le_refl _
    · rw [revised_of_ne value same]
      exact rising.le_visit c inside
  · rw [fresh c inside visited]
    exact A.initial_le _

end Rising

/-! ## Counting sweeps -/

/-- The sum of the ranks of all far sides. -/
def height (value : BlockId → α) : Nat := ((p.order g).map fun b => A.rank (value b)).sum

theorem height_le (value : BlockId → α) : A.height value ≤ (p.order g).length * A.top := by
  have each : ∀ x ∈ (p.order g).map fun b => A.rank (value b), x ≤ A.top := by
    simp only [List.mem_map]
    rintro x ⟨b, -, rfl⟩
    exact A.rank_le_top _
  simpa [height] using sum_le_card_nsmul _ _ each

/-- A visit that changes its block raises the height. -/
theorem Rising.height_lt {A : p.Ascent g} {done rest : List BlockId} (rising : A.Rising seen value)
    (at_b : p.order g = done ++ b :: rest) (before : ∀ c ∈ done, seen c)
    (changed : value b ≠ p.through g b (p.inflow g value b)) : A.height value < A.height (p.revised g value b) := by
  have member : b ∈ p.order g := by simp [at_b]
  have raised : A.rank (value b) < A.rank (p.revised g value b b) := by
    rw [revised_self]
    refine A.rank_lt ?_ (A.settled_through (rising.fit at_b before)) (rising.le_visit b member)
      changed
    by_cases visited : seen b
    · exact .inl (rising.settled b member visited)
    · exact .inr (rising.fresh b member visited)
  refine sum_lt_sum _ _ (fun c _ => ?_) ⟨b, member, raised⟩
  by_cases same : c = b
  · exact same ▸ raised.le
  · rw [revised_of_ne value same]

theorem Rising.congr {A : p.Ascent g} {seen' : BlockId → Prop} (same : ∀ c ∈ p.order g, seen c ↔ seen' c)
    (rising : A.Rising seen value) : A.Rising seen' value where
  settled b member visited := rising.settled b member ((same b member).2 visited)
  fresh b member unvisited := rising.fresh b member (mt (same b member).1 unvisited)
  downward front b back at_b visited c earlier := by
    have member : b ∈ p.order g := by simp [at_b]
    exact (same c (by simp [at_b, earlier])).1 (rising.downward front b back at_b ((same b member).2 visited) c earlier)
  le_visit := rising.le_visit

/-- A sweep from `far` has come to `s` with the blocks of `seen` visited. -/
structure Swept (far : BlockMap α) (seen : BlockId → Prop) (s : Sweep α) : Prop where
  total : ∀ b ∈ p.order g, s.far[b]?.isSome
  rising : A.Rising seen (p.values s.far)
  height_le : A.height (p.values far) ≤ A.height (p.values s.far)
  height_lt : s.changed = true → A.height (p.values far) < A.height (p.values s.far)

section Sweeps

variable {A} [DecidableEq α] {done rest : List BlockId} (linked : g.Linked)
include linked

theorem Swept.visit (swept : A.Swept far seen s) (at_b : p.order g = done ++ b :: rest) (before : ∀ c ∈ done, seen c) :
    ∃ s', p.visit g s b = .ok s' ∧ A.Swept far (fun c => seen c ∨ c = b) s' := by
  have member : b ∈ p.order g := by simp [at_b]
  have gathered : p.gather g s.far b = .ok (p.inflow g (p.values s.far) b) :=
    gather_eq_inflow fun c edge => swept.total c
      ((mem_order linked).2 (neighbour_mem linked ((mem_order linked).1 member) edge))
  have rising := swept.rising.visit (order_nodup linked) at_b before
  obtain ⟨v, present⟩ := Option.isSome_iff_exists.1 (swept.total b member)
  have here : p.values s.far b = v := by rw [values, present, Option.getD_some]
  have total : ∀ c ∈ p.order g, (s.far.insert b (p.through g b (p.inflow g (p.values s.far) b)))[c]?.isSome := by
    intro c inside
    rw [getElem?_insert]
    split
    · rfl
    · exact swept.total c inside
  refine ⟨_, visit_eq_ok.2 ⟨_, gathered, rfl⟩, total, ?_, ?_, ?_⟩
  all_goals simp only [values_insert]
  · exact rising
  · by_cases same : p.values s.far b = p.through g b (p.inflow g (p.values s.far) b)
    · rw [← same, Function.update_eq_self]
      exact swept.height_le
    · exact swept.height_le.trans (swept.rising.height_lt at_b before same).le
  · intro changed
    by_cases same : p.values s.far b = p.through g b (p.inflow g (p.values s.far) b)
    · rw [← same, Function.update_eq_self]
      rw [present, ← same, here] at changed
      exact swept.height_lt (by simpa using changed)
    · exact swept.height_le.trans_lt (swept.rising.height_lt at_b before same)

/-- A sweep succeeds, visits every block and raises the height unless it changes nothing. -/
theorem Rising.sweep (rising : A.Rising seen (p.values far)) (total : ∀ b ∈ p.order g, far[b]?.isSome) :
    ∃ s, p.sweep g near far = .ok s ∧ A.Swept far (fun _ => True) s := by
  have start : A.Swept far (fun c => seen c ∨ c ∈ []) ⟨near, far, false⟩ :=
    ⟨total, rising.congr (by simp), le_rfl, by simp⟩
  have step : ∀ done b rest s, p.order g = done ++ b :: rest → A.Swept far (fun c => seen c ∨ c ∈ done) s →
      ∃ s', p.visit g s b = .ok s' ∧ A.Swept far (fun c => seen c ∨ c ∈ done ++ [b]) s' := by
    intro done b rest s at_b swept
    obtain ⟨s', visited, after⟩ := swept.visit linked at_b fun c earlier => .inr earlier
    exact ⟨s', visited, after.total, after.rising.congr (by simp [or_assoc]), after.height_le, after.height_lt⟩
  obtain ⟨s, run, swept⟩ := foldlM_succeeds _ start step
  exact ⟨s, run, swept.total, swept.rising.congr (by simp +contextual), swept.height_le, swept.height_lt⟩

/-- The iteration ends when as many sweeps are left as the height can still rise. -/
theorem Rising.iterate {left done : Nat} (rising : A.Rising seen (p.values far))
    (total : ∀ b ∈ p.order g, far[b]?.isSome) (enough : (p.order g).length * A.top ≤ A.height (p.values far) + left) :
    ∃ sol, p.iterate g left done near far = .ok sol := by
  induction left generalizing seen done near far with (
    obtain ⟨s, run, swept⟩ := rising.sweep linked total
    unfold Problem.iterate
    rw [run])
  | zero =>
    have quiet : s.changed ≠ true := by
      intro changed
      have := swept.height_lt changed
      have := A.height_le (p.values s.far)
      omega
    exact ⟨_, if_neg quiet⟩
  | succ left ih =>
    by_cases changed : s.changed = true
    · have := swept.height_lt changed
      obtain ⟨sol, found⟩ := ih swept.rising swept.total (by omega)
      exact ⟨sol, (if_pos changed).trans found⟩
    · exact ⟨_, if_neg changed⟩

/-- Where values only rise, the sweeps come to an end. -/
theorem solves (A : p.Ascent g) : ∃ sol, p.solveWithin g ((p.order g).length * A.top) = .ok sol := by
  have start := getElem?_foldl_insert (p.order g) p.initial ∅
  have initial : ∀ b ∈ p.order g, p.values ((p.order g).foldl (fun m b => m.insert b p.initial) ∅) b = p.initial := by
    intro b member
    rw [values, start b, if_pos member, Option.getD_some]
  have rising : A.Rising (fun _ => False) (p.values ((p.order g).foldl (fun m b => m.insert b p.initial) ∅)) := by
    refine ⟨fun _ _ => False.elim, fun b member _ => initial b member, fun _ _ _ _ => False.elim, fun b member => ?_⟩
    rw [initial b member]
    exact A.initial_le _
  refine rising.iterate linked (fun b member => ?_) (Nat.le_add_left _ _)
  rw [start b, if_pos member]
  rfl

end Sweeps

end Ascent

end Problem

end Quadcode
