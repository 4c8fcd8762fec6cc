import Quadcode.Optimizer.Unrolling
import Quadcode.Proofs.Eval.Replacement
import Quadcode.Proofs.Flow.NaturalLoops
import Quadcode.Proofs.Graph.Edits

/-!
# Loops that count

A loop that counts is a cycle of blocks. One quadruple of the cycle adds the step to the counter, and the test
of the header decides by the counter whether another round begins. So in every round the counter has the value
that counting ahead has found for it, and the loop is left after as many rounds as were counted.
-/

namespace Quadcode.Unrolling

open List Option Machine

variable {g : Graph} {l : Loop} {t : ExitTest} {cycle rest back front : List BlockId} {b : BlockId} {m : Machine}
  {v step : Int32} {q : Quad} {stays : Int32 → Bool} {x : VarId} {early : Bool} {place trips r i : Nat}

/-! ## Counting ahead -/

theorem addExact_eq {v' : Int32} (sum : addExact v step = some v') : v' = v + step := by
  unfold addExact at sum
  dsimp only at sum
  split at sum
  · cases sum
    rw [Int32.ofInt_add, Int32.ofInt_toInt, Int32.ofInt_toInt]
  · cases sum

/-- Counting goes on with the next round after a test that is passed, and ends at one that is not. -/
theorem trips_cases {limit : Nat} (counted : trips? stays step early limit r v = some trips) :
    (stays (if early then v + step else v) = true ∧
      ∃ limit', limit = limit' + 1 ∧ trips? stays step early limit' (r + 1) (v + step) = some trips) ∨
    (stays (if early then v + step else v) = false ∧ r = trips) := by
  unfold trips? at counted
  split at counted
  · cases counted
  next tested at_test =>
    have value : tested = if early then v + step else v := by
      cases early with
      | true => exact addExact_eq at_test
      | false => exact (Option.some.inj at_test).symm
    rw [← value]
    split at counted
    next goes =>
      split at counted
      next limit' after stepped =>
        have next : after = v + step := by
          cases early with
          | true => exact (Option.some.inj stepped).symm.trans value
          | false =>
            rw [addExact_eq stepped, value]
            rfl
        exact .inl ⟨goes, limit', rfl, next ▸ counted⟩
      · cases counted
    next ends => exact .inr ⟨Bool.eq_false_iff.2 ends, Option.some.inj counted⟩

/-- A round that begins with `v` in the counter is number `r` of those that were counted. -/
def Begins (stays : Int32 → Bool) (step : Int32) (early : Bool) (trips r : Nat) (v : Int32) : Prop :=
  ∃ limit, trips? stays step early limit r v = some trips

namespace Begins

/-- Either the test is passed and the next round begins, or this was the last one. -/
theorem test (begins : Begins stays step early trips r v) :
    if stays (if early then v + step else v) then Begins stays step early trips (r + 1) (v + step)
    else r = trips := by
  obtain ⟨limit, counted⟩ := begins
  rcases trips_cases counted with ⟨goes, limit', -, counted⟩ | ⟨ends, last⟩
  · rw [if_pos goes]
    exact ⟨limit', counted⟩
  · rwa [if_neg (Bool.eq_false_iff.1 ends)]

theorem le (begins : Begins stays step early trips r v) : r ≤ trips := by
  obtain ⟨limit, counted⟩ := begins
  induction limit generalizing r v with
  | zero =>
    rcases trips_cases counted with ⟨-, _, more, -⟩ | ⟨-, last⟩
    · cases more
    · exact last.le
  | succ limit ih =>
    rcases trips_cases counted with ⟨-, limit', more, counted⟩ | ⟨-, last⟩
    · cases more
      exact Nat.le_of_succ_le (ih counted)
    · exact last.le

end Begins

/-! ## The cycle -/

/-- Tails without a test lead from a block to the header along some blocks of the loop. -/
def Leads (g : Graph) (l : Loop) : BlockId → List BlockId → Prop
  | b, [] => b = l.header
  | b, c :: rest => c = b ∧ b ≠ l.header ∧ b ∈ l.blocks ∧ ∃ next, (g.tail b).only? = some next ∧ Leads g l next rest

theorem pathToHeader_leads {fuel : Nat} {path : List BlockId} (found : pathToHeader g l fuel path b = some cycle) :
    ∃ rest, cycle = path ++ rest ∧ Leads g l b rest := by
  induction fuel generalizing path b with
  | zero =>
    unfold pathToHeader at found
    split at found
    next home =>
      cases found
      exact ⟨[], (append_nil _).symm, home⟩
    · split at found
      · cases found
      · split at found
        next same => cases same
        · cases found
  | succ fuel ih =>
    unfold pathToHeader at found
    split at found
    next home =>
      cases found
      exact ⟨[], (append_nil _).symm, home⟩
    next away =>
      split at found
      · cases found
      next inside =>
        split at found
        next next _ only same =>
          cases same
          obtain ⟨rest, rfl, leads⟩ := ih found
          refine ⟨b :: rest, by simp, rfl, away, ?_, next, only, leads⟩
          simp only [Bool.or_eq_true, not_or, Bool.not_eq_true, Bool.not_eq_false', Loop.contains] at inside
          simpa using inside.1
        · cases found

/-- From every block of the cycle but the header a tail leads on. -/
theorem Leads.split {start : BlockId} (leads : Leads g l start (front ++ b :: back)) :
    b ≠ l.header ∧ b ∈ l.blocks ∧ ∃ next, (g.tail b).only? = some next ∧ Leads g l next back := by
  induction front generalizing start with
  | nil =>
    obtain ⟨rfl, away, inside, more⟩ := leads
    exact ⟨away, inside, more⟩
  | cons c front ih =>
    obtain ⟨-, -, -, next, -, leads⟩ := leads
    exact ih leads

/-- What the test of the header does. -/
theorem exitTest_next (found : ExitTest.of? g l = some t) :
    t.exit ∉ l.blocks ∧ ∃ stay ∈ l.blocks, (∀ c ∈ g.targets l.header, c = stay ∨ c = t.exit) ∧
      ∀ (m : Machine) v, m.arg g (.var t.counter) = .ok (.int v) →
        m.next g (g.tail l.header) = .ok (.inl (if t.stays v then stay else t.exit)) := by
  unfold ExitTest.of? at found
  split at found
  next c x y onTrue onFalse tail =>
    dsimp only at found
    split at found
    · cases found
    next differ =>
      have mem (b : BlockId) : b ∈ l.blocks ↔ l.contains b = true := by simp [Loop.contains]
      have opposite : l.contains onFalse = !l.contains onTrue := Bool.eq_not.2 (Ne.symm differ)
      have inside : (if l.contains onTrue then onTrue else onFalse) ∈ l.blocks := by
        rw [mem]
        split
        · assumption
        · simp_all
      have outside : (if l.contains onTrue then onFalse else onTrue) ∉ l.blocks := by
        rw [mem]
        split
        · simp_all
        · assumption
      have targets : ∀ c ∈ g.targets l.header, c = (if l.contains onTrue then onTrue else onFalse) ∨
          c = if l.contains onTrue then onFalse else onTrue := by
        intro c edge
        have either : c = onTrue ∨ c = onFalse := by
          simpa [Graph.targets, tail, Tail.targets, Tail.successors] using edge
        split
        · exact either
        · exact either.symm
      have goes (taken : Bool) : (if taken then onTrue else onFalse) =
          if taken == l.contains onTrue then (if l.contains onTrue then onTrue else onFalse)
          else if l.contains onTrue then onFalse else onTrue := by
        cases taken <;> cases l.contains onTrue <;> rfl
      split at found
      · cases found
        refine ⟨outside, _, inside, targets, fun m v read => ?_⟩
        rw [tail, ExitTest.stays, ← goes, Machine.next, read]
        rfl
      · cases found
        refine ⟨outside, _, inside, targets, fun m v read => ?_⟩
        rw [tail, ExitTest.stays, ← goes, Machine.next, read]
        rfl
      · cases found
  · cases found

/-- The quadruple that counts adds the step to the counter. -/
theorem step_effect (strings : StringPool) (steps : step? x q = some step) (read : m.arg g (.var x) = .ok (.int v)) :
    q.op.isCall = false ∧ m.effect strings g q.op = .ok (.value (.int (v + step))) := by
  unfold step? at steps
  split at steps
  next y c add =>
    split at steps
    next same =>
      cases steps
      subst same
      rw [add, effect, read]
      exact ⟨rfl, rfl⟩
    · cases steps
  next c y add =>
    split at steps
    next same =>
      cases steps
      subst same
      rw [add, effect, read, Int32.add_comm]
      exact ⟨rfl, rfl⟩
    · cases steps
  next y c sub =>
    split at steps
    next same =>
      cases steps
      obtain ⟨rfl, -⟩ := same
      rw [sub, effect, read, ← Int32.sub_eq_add_neg]
      exact ⟨rfl, rfl⟩
    · cases steps
  · cases steps

/-- The code of one round. -/
def round (g : Graph) (l : Loop) (rest : List BlockId) : List Quad := (l.header :: rest).flatMap g.body

/-- A loop of the header and `rest` that counts. The counter changes at one place of a round. -/
structure Counts (g : Graph) (l : Loop) (t : ExitTest) (rest : List BlockId) (place : Nat) (step : Int32) : Prop where
  resident : t.counter ∉ g.memoryResident
  exit : t.exit ∉ l.blocks
  test : ∃ stay ∈ l.blocks, Leads g l stay rest ∧ ∀ (m : Machine) v, m.arg g (.var t.counter) = .ok (.int v) →
    m.next g (g.tail l.header) = .ok (.inl (if t.stays v then stay else t.exit))
  place_lt : place < (round g l rest).length
  steps : ∀ q, (round g l rest)[place]? = some q → q.result = some t.counter ∧ step? t.counter q = some step
  once : ∀ i q, (round g l rest)[i]? = some q → q.result = some t.counter → i = place

/-- The code of a round is code of the loop. -/
theorem Counts.mem_bodies (counts : Counts g l t rest place step) (linked : g.Linked) (loop : g.HasLoop l)
    (listed : q ∈ round g l rest) : q ∈ g.bodies := by
  obtain ⟨b, member, here⟩ := mem_flatMap.1 listed
  obtain ⟨stay, -, leads, -⟩ := counts.test
  refine mem_flatMap.2 ⟨b, loop.mem_layout linked ?_, here⟩
  rcases mem_cons.1 member with rfl | member
  · exact (loop.natural linked).header_mem
  · obtain ⟨front, back, rfl⟩ := append_of_mem member
    exact leads.split.2.1

/-- What is counted once is at one place. -/
theorem eq_of_countP_eq_one {α : Type} {p : α → Bool} {xs : List α} (once : xs.countP p = 1) {j : Nat} {x y : α}
    (here : xs[i]? = some x) (holds : p x) (there : xs[j]? = some y) (holds' : p y) : j = i := by
  induction xs generalizing i j with
  | nil => cases here
  | cons z xs ih =>
    rw [countP_cons] at once
    have none {k : Nat} {u : α} (first : p z) (later : xs[k]? = some u) (holds : p u) : False := by
      rw [if_pos first, Nat.add_eq_right, countP_eq_zero] at once
      exact once u (mem_of_getElem? later) holds
    cases i with
    | zero =>
      cases here
      cases j with
      | zero => rfl
      | succ j => exact (none holds there holds').elim
    | succ i =>
      cases j with
      | zero =>
        cases there
        exact (none holds' here holds).elim
      | succ j =>
        have other : ¬p z := fun first => none first here holds
        rw [if_neg other, Nat.add_zero] at once
        exact congrArg Nat.succ (ih once here there)

theorem cycle_leads (linked : g.Linked) (header : l.header ∈ g.layout) {stay : BlockId}
    (targets : ∀ c ∈ g.targets l.header, c = stay ∨ c = t.exit) (found : cycle? g l t = some cycle) :
    ∃ rest, cycle = l.header :: rest ∧ cycle.length = l.blocks.size ∧ Leads g l stay rest := by
  obtain ⟨start, first, more⟩ := bind_eq_some_iff.1 found
  obtain ⟨path, along, last⟩ := bind_eq_some_iff.1 more
  split at last
  next whole =>
    cases last
    obtain ⟨rest, rfl, leads⟩ := pathToHeader_leads along
    have edge : start ∈ g.targets l.header := linked.succs_eq header ▸ mem_of_find?_eq_some first
    have goes : start ≠ t.exit := by simpa using find?_some first
    exact ⟨rest, rfl, whole, (targets start edge).resolve_right goes ▸ leads⟩
  · cases last

theorem stepIn_spec (found : stepIn? g cycle x = some (b, step)) :
    ∃ front back, ∃ i : Nat, ∃ q, cycle = front ++ b :: back ∧ (g.body b)[i]? = some q ∧ q.result = some x ∧
      step? x q = some step := by
  obtain ⟨⟨b', q⟩, first, stepped⟩ := bind_eq_some_iff.1 found
  obtain ⟨_, same, eq⟩ := map_eq_some_iff.1 stepped
  cases eq
  obtain ⟨c, member, here⟩ := exists_of_findSome?_eq_some first
  obtain ⟨q', inside, eq⟩ := map_eq_some_iff.1 here
  cases eq
  obtain ⟨front, back, rfl⟩ := append_of_mem member
  obtain ⟨i, here⟩ := mem_iff_getElem?.1 (mem_of_find?_eq_some inside)
  exact ⟨front, back, i, q, rfl, here, by simpa using find?_some inside, same⟩

/-- Where the code of a block is in a round. -/
theorem round_getElem? (split : l.header :: rest = front ++ b :: back) (here : (g.body b)[i]? = some q) :
    (round g l rest)[(front.flatMap g.body).length + i]? = some q := by
  rw [round, split, flatMap_append, flatMap_cons, getElem?_append_right (Nat.le_add_right _ _),
    Nat.add_sub_cancel_left, List.getElem?_append_left (List.getElem?_eq_some_iff.1 here).1, here]

theorem counts_of_counting (linked : g.Linked) (loop : g.HasLoop l)
    (counting : counting? g l = some (t, cycle, b, step)) :
    ∃ rest place, cycle = l.header :: rest ∧ cycle.length = l.blocks.size ∧ Counts g l t rest place step ∧
      decide (b = l.header) = decide (place < (g.body l.header).length) := by
  obtain ⟨t', tested, more⟩ := bind_eq_some_iff.1 counting
  split at more
  · cases more
  next safe =>
    obtain ⟨cycle', around, more⟩ := bind_eq_some_iff.1 more
    split at more
    · cases more
    next once =>
      obtain ⟨⟨b', step'⟩, found, more⟩ := bind_eq_some_iff.1 more
      cases more
      obtain ⟨exit, stay, inside, targets, test⟩ := exitTest_next tested
      obtain ⟨rest, rfl, whole, leads⟩ := cycle_leads linked (loop.header_mem_layout linked) targets around
      obtain ⟨front, back, i, q, split, here, result, stepped⟩ := stepIn_spec found
      have at_place := round_getElem? split here
      have assigned : (round g l rest).countP (·.result = some t.counter) = 1 := by
        have counted := Graph.assignments_getElem? g (l.header :: rest) t.counter
        rw [Decidable.not_not.1 once] at counted
        dsimp only at counted
        split at counted
        · cases counted
        · exact (Option.some.inj counted).symm
      refine ⟨rest, _, rfl, whole, ⟨fun member => safe (.inr member), exit, ⟨stay, inside, leads, test⟩,
        (List.getElem?_eq_some_iff.1 at_place).1, fun q' here' => ?_, fun j q' there result' => ?_⟩, ?_⟩
      · cases at_place.symm.trans here'
        exact ⟨result, stepped⟩
      · exact eq_of_countP_eq_one assigned at_place (by simpa using result) there (by simpa using result')
      · rw [decide_eq_decide]
        cases front with
        | nil =>
          obtain ⟨rfl, -⟩ := List.cons.inj split
          simpa using (List.getElem?_eq_some_iff.1 here).1
        | cons c front =>
          obtain ⟨rfl, rfl⟩ := List.cons.inj split
          have later : ¬(((l.header :: front).flatMap g.body).length + i < (g.body l.header).length) := by
            simp [Nat.add_assoc]
          exact iff_of_false leads.split.1 later

/-! ## Rounds -/

section Rounds

variable {k : Nat} {s : Spot}

/-- In a loop that counts: at place `k` of round `r`. -/
structure InRound (g : Graph) (l : Loop) (t : ExitTest) (rest : List BlockId) (place : Nat) (step : Int32)
    (trips r k : Nat) (s : Spot) (m : Machine) : Prop where
  hides : g.Private g.addressTaken t.counter
  position : ∃ front back, l.header :: rest = front ++ s.block :: back ∧ k = (front.flatMap g.body).length + s.index
  /-- Behind the test it is known that there is another round. -/
  value : ∃ v, m.top t.counter = some (.int (if place < k then v + step else v)) ∧
    if s.block = l.header then Begins t.stays step (place < (g.body l.header).length) trips r v
    else Begins t.stays step (place < (g.body l.header).length) trips (r + 1) (v + step)

/-- The first round. -/
theorem InRound.start (hides : g.Private g.addressTaken t.counter)
    (begins : Begins t.stays step (place < (g.body l.header).length) trips r v)
    (value : m.top t.counter = some (.int v)) : InRound g l t rest place step trips r 0 ⟨l.header, 0⟩ m where
  hides := hides
  position := ⟨[], rest, rfl, rfl⟩
  value := ⟨v, by simpa using value, by simpa using begins⟩

namespace InRound

variable (at_k : InRound g l t rest place step trips r k s m)
include at_k

theorem getElem? (here : (g.body s.block)[s.index]? = some q) : (round g l rest)[k]? = some q := by
  obtain ⟨front, back, split, rfl⟩ := at_k.position
  exact round_getElem? split here

/-- There are rounds to come, or the header has been entered for the last time. -/
theorem le (counts : Counts g l t rest place step) : r < trips ∨ r = trips ∧ s.block = l.header ∧ k = s.index := by
  obtain ⟨front, back, split, rfl⟩ := at_k.position
  obtain ⟨v, -, begins⟩ := at_k.value
  obtain ⟨stay, -, leads, -⟩ := counts.test
  split at begins
  next home =>
    refine begins.le.lt_or_eq.imp_right fun last => ?_
    cases front with
    | nil => exact ⟨last, home, by simp⟩
    | cons c front =>
      obtain ⟨rfl, rfl⟩ := List.cons.inj split
      exact absurd home leads.split.1
  · exact .inl begins.le

theorem tick : InRound g l t rest place step trips r k s m.tick := ⟨at_k.hides, at_k.position, at_k.value⟩

variable (counts : Counts g l t rest place step)
include counts

/-- A quadruple changes the counter at its place only. -/
theorem next (here : (g.body s.block)[s.index]? = some q) {strings : StringPool} {x : Option Value} {m' : Machine}
    (yields : m.Yields strings g q x) (passed : m.Passed g.addressTaken g q x m') :
    InRound g l t rest place step trips r (k + 1) s.next m' := by
  have at_place := at_k.getElem? here
  obtain ⟨front, back, split, position⟩ := at_k.position
  obtain ⟨v, value, begins⟩ := at_k.value
  refine ⟨at_k.hides, ⟨front, back, split, by rw [position]; rfl⟩, v, ?_, begins⟩
  rw [passed.top _ at_k.hides]
  by_cases result : q.result = some t.counter
  · obtain rfl := counts.once k q at_place result
    rw [if_neg (Nat.lt_irrefl _)] at value
    have read : m.tick.arg g (.var t.counter) = .ok (.int v) := (varValue_of_top at_k.hides).2 value
    obtain ⟨plain, effect⟩ := step_effect strings (counts.steps q at_place).2 read
    obtain ⟨e, done, rfl⟩ := yields plain
    cases effect.symm.trans done
    rw [if_pos result, if_pos (Nat.lt_succ_self _)]
    rfl
  · have other : place ≠ k := by
      rintro rfl
      exact result (counts.steps q at_place).1
    have same : place < k ↔ place < k + 1 := by omega
    rw [if_neg result, value]
    simp only [same]

omit at_k in
/-- Where control goes on along the cycle, it goes on in this round or to the next one. -/
theorem onward (hides : g.Private g.addressTaken t.counter) (front : List BlockId) {c : BlockId}
    (split : l.header :: rest = front ++ back) (leads : Leads g l c back) (header : l.header ∈ l.blocks)
    (position : k = (front.flatMap g.body).length)
    (value : m.top t.counter = some (.int (if place < k then v + step else v)))
    (begins : Begins t.stays step (place < (g.body l.header).length) trips (r + 1) (v + step)) :
    c ∈ l.blocks ∧ (c ≠ l.header ∧ InRound g l t rest place step trips r k ⟨c, 0⟩ m ∨
      c = l.header ∧ r < trips ∧ k = (round g l rest).length ∧
        InRound g l t rest place step trips (r + 1) 0 ⟨c, 0⟩ m) := by
  cases back with
  | nil =>
    obtain rfl : c = l.header := leads
    rw [append_nil] at split
    have whole : k = (round g l rest).length := by rw [position, ← split, round]
    refine ⟨header, .inr ⟨rfl, begins.le, whole, .start hides begins ?_⟩⟩
    rw [value, if_pos (whole ▸ counts.place_lt)]
  | cons d back =>
    obtain ⟨rfl, away, inside, -⟩ := leads
    refine ⟨inside, .inl ⟨away, hides, ⟨front, back, split, position⟩, v, value, ?_⟩⟩
    rwa [if_neg away]

/-- At the end of a block the loop is left after the last round, and otherwise control goes on along the
cycle. -/
theorem tail (header : l.header ∈ l.blocks) (ended : s.index = (g.body s.block).length) :
    (m.next g (g.tail s.block) = .ok (.inl t.exit) ∧ s.block = l.header ∧ r = trips ∧ k = (g.body l.header).length) ∨
    ∃ c ∈ l.blocks, m.next g (g.tail s.block) = .ok (.inl c) ∧
      (c ≠ l.header ∧ InRound g l t rest place step trips r k ⟨c, 0⟩ m ∨
        c = l.header ∧ r < trips ∧ k = (round g l rest).length ∧
          InRound g l t rest place step trips (r + 1) 0 ⟨c, 0⟩ m) := by
  obtain ⟨front, back, split, position⟩ := at_k.position
  obtain ⟨v, value, begins⟩ := at_k.value
  obtain ⟨stay, inside, leads, test⟩ := counts.test
  rw [ended] at position
  cases front with
  | nil =>
    obtain ⟨home, rfl⟩ := List.cons.inj split
    rw [← home] at position ⊢
    rw [if_pos home.symm] at begins
    obtain rfl : k = (g.body l.header).length := by simpa using position
    have goes := test m _ ((varValue_of_top at_k.hides).2 value)
    have tested := begins.test
    simp only [decide_eq_true_eq] at tested
    by_cases stays : t.stays (if place < (g.body l.header).length then v + step else v) = true
    · rw [if_pos stays] at goes tested
      obtain ⟨there, more⟩ := onward counts at_k.hides [l.header] rfl leads header (by simp) value tested
      exact .inr ⟨stay, there, goes, more⟩
    · rw [if_neg stays] at goes tested
      exact .inl ⟨goes, rfl, tested, rfl⟩
  | cons d front =>
    obtain ⟨rfl, rfl⟩ := List.cons.inj split
    obtain ⟨away, -, c, only, leads⟩ := leads.split
    rw [if_neg away] at begins
    obtain ⟨there, more⟩ := onward counts at_k.hides (l.header :: front ++ [s.block]) (by simp) leads header
      (by rw [position]; simp [Nat.add_assoc]) value begins
    exact .inr ⟨c, there, next_only only, more⟩

end InRound

end Rounds

end Quadcode.Unrolling
