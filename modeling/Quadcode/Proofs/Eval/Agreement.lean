import Quadcode.Proofs.Eval.Alike

/-!
# Runs that differ in the number of steps

What a run does depends on the steps taken before it only where the limit cuts it off. So two runs of
the same code from the same state, counted differently, agree unless one of them is cut off. Whether
they call the same functions does not matter, as long as the functions they call agree.
-/

namespace Quadcode

variable {pair : Graph → Graph → Prop} {program program' : Module} {excused : Prop} {g : Graph}

/-- Two programs whose functions of one name are a pair of some kind. -/
structure Module.Parallel (pair : Graph → Graph → Prop) (program program' : Module) : Prop where
  strings : program'.strings = program.strings
  graphs : ∀ name, Option.Rel pair (program.graph? name) (program'.graph? name)
  alike : ∀ {g g' : Graph}, pair g g' → g.Alike g'

theorem Module.Parallel.refl (program : Module) : Module.Parallel Eq program program where
  strings := rfl
  graphs name := by
    cases program.graph? name with
    | none => exact .none
    | some g => exact .some rfl
  alike same := same ▸ .refl _

/-- With one function replaced by another of its name, looking up a function finds one in both programs or in
neither. -/
theorem Module.graph?_rel {before after : List Graph} {h : Graph} (listed : program.graphs = before ++ g :: after)
    (named : h.name = g.name) (kept : ∀ k, pair k k) (replaced : pair g h) (name : Label) :
    Option.Rel pair (program.graph? name) (Module.graph? { program with graphs := before ++ h :: after } name) := by
  have same (found : Option Graph) : Option.Rel pair found found := by
    cases found with
    | none => exact .none
    | some k => exact .some (kept k)
  unfold Module.graph?
  rw [listed, List.find?_append, List.find?_append, List.find?_cons, List.find?_cons, named]
  cases before.find? (·.name == name) with
  | some k => exact same (some k)
  | none =>
    cases g.name == name with
    | true => exact .some replaced
    | false => exact same (after.find? (·.name == name))

/-- What is found in one program has its counterpart in the other. -/
theorem Module.graph?_paired {name : Label} (related : Option.Rel pair (program.graph? name) (program'.graph? name))
    (found : program.graph? name = some g) :
    ∃ g', program'.graph? name = some g' ∧ pair g g' := by
  rw [found] at related
  generalize program'.graph? name = other at related
  cases related with
  | some paired => exact ⟨_, rfl, paired⟩

namespace Machine

variable {α β : Type}

/-- The same state but for the number of steps. -/
def Same (m n : Machine) : Prop := ∃ steps, n = { m with steps }

variable {fuel fuel' : Nat} {q : Quad} {rest : List Quad} {tail : Tail} {m n : Machine}

/-! ## States that are the same but for the number of steps -/

namespace Same

variable {strings : StringPool}

theorem refl (m : Machine) : m.Same m := ⟨m.steps, rfl⟩

variable (same : m.Same n)
include same

theorem tick_left : m.tick.Same n := by
  obtain ⟨steps, rfl⟩ := same
  exact ⟨steps, rfl⟩

theorem tick_right : m.Same n.tick := by
  obtain ⟨steps, rfl⟩ := same
  exact ⟨steps + 1, rfl⟩

theorem args (xs : List Arg) : n.args g xs = m.args g xs := by
  obtain ⟨steps, rfl⟩ := same
  rfl

theorem effect (op : Op) : n.effect strings g op = m.effect strings g op := by
  obtain ⟨steps, rfl⟩ := same
  cases op <;> rfl

theorem destination (result : Option VarId) (x : Option Value) :
    n.destination g result x = m.destination g result x := by
  obtain ⟨steps, rfl⟩ := same
  rfl

theorem next (tail : Tail) : n.next g tail = m.next g tail := by
  obtain ⟨steps, rfl⟩ := same
  rfl

theorem put (p : Place) (offset : Nat) (x : Value) : (m.put p offset x).Same (n.put p offset x) := by
  obtain ⟨steps, rfl⟩ := same
  cases p <;> exact ⟨steps, rfl⟩

theorem perform (e : Effect) : (m.perform e).Same (n.perform e) := by
  cases e with
  | write p offset x => exact same.put p offset x
  | nothing | value | input | output =>
    obtain ⟨steps, rfl⟩ := same
    exact ⟨steps, rfl⟩

theorem deliver (d : Option (Place × Value)) : (m.deliver d).Same (n.deliver d) := by
  cases d with
  | none => exact same
  | some d => exact same.put d.1 0 d.2

theorem push (frame : Frame) : (m.push frame).Same (n.push frame) := by
  obtain ⟨steps, rfl⟩ := same
  exact ⟨steps, rfl⟩

theorem pop : m.pop.Same n.pop := by
  obtain ⟨steps, rfl⟩ := same
  exact ⟨steps, rfl⟩

end Same

/-! ## Agreement -/

/-- Two ways on agree: the same value or error, in the same state, unless one of them was cut off. -/
def Agree (r s : Except Stop α × Machine) : Prop :=
  r.1 = .error .outOfSteps ∨ s.1 = .error .outOfSteps ∨ r.1 = s.1 ∧ r.2.Same s.2

variable {next next' : Machine → Ended}

/-- Two ways on agree, or the first one ends with a fault that is excused. -/
def AgreeUnless (excused : Prop) (r s : Except Stop α × Machine) : Prop := excused ∧ r.1 = .error .fault ∨ Agree r s

namespace AgreeUnless

theorem of_same (same : m.Same n) (x : Except Stop α) : AgreeUnless excused (x, m) (x, n) :=
  .inr (.inr (.inr ⟨rfl, same⟩))

theorem cut_left {r s : Except Stop α × Machine} (cut : r.1 = .error .outOfSteps) : AgreeUnless excused r s :=
  .inr (.inl cut)

theorem cut_right {r s : Except Stop α × Machine} (cut : s.1 = .error .outOfSteps) : AgreeUnless excused r s :=
  .inr (.inr (.inl cut))

theorem andThen {r s : Except Stop α × Machine} {next next' : α → Machine → Except Stop β × Machine}
    (first : AgreeUnless excused r s)
    (rest : ∀ a {m n : Machine}, r = (.ok a, m) → m.Same n → AgreeUnless excused (next a m) (next' a n)) :
    AgreeUnless excused (andThen r next) (andThen s next') := by
  obtain ⟨x, m⟩ := r
  obtain ⟨y, n⟩ := s
  rcases first with ⟨excuse, fault⟩ | cut | cut | ⟨value, same⟩
  · obtain rfl : x = _ := fault
    exact .inl ⟨excuse, rfl⟩
  · obtain rfl : x = _ := cut
    exact cut_left rfl
  · obtain rfl : y = _ := cut
    exact cut_right rfl
  · obtain rfl : x = y := value
    cases x with
    | error e => exact of_same same _
    | ok a => exact rest a rfl same

theorem stepped (same : m.Same n) (rest : ∀ {m n : Machine}, m.Same n → AgreeUnless excused (next m) (next' n)) :
    AgreeUnless excused (m.stepped next) (n.stepped next') := by
  unfold Machine.stepped
  split
  · exact cut_left rfl
  · split
    · exact cut_right rfl
    · exact rest same.tick_left.tick_right

end AgreeUnless

namespace Agree

theorem of_same (same : m.Same n) (x : Except Stop α) : Agree (x, m) (x, n) := .inr (.inr ⟨rfl, same⟩)

theorem andThen {r s : Except Stop α × Machine} {next next' : α → Machine → Except Stop β × Machine} (first : Agree r s)
    (rest : ∀ a {m n : Machine}, m.Same n → Agree (next a m) (next' a n)) :
    Agree (andThen r next) (andThen s next') := by
  have same : AgreeUnless False (Machine.andThen r next) (Machine.andThen s next') :=
    .andThen (.inr first) fun a _ _ _ same => .inr (rest a same)
  exact same.resolve_left And.left

/-- A step that only the left side takes. -/
theorem stepped_left {s : Ended} (same : m.Same n) (rest : ∀ {m}, m.Same n → Agree (next m) s) :
    Agree (m.stepped next) s := by
  unfold stepped
  split
  · exact .inl rfl
  · exact rest same.tick_left

/-- A step that only the right side takes. -/
theorem stepped_right {r : Ended} (same : m.Same n) (rest : ∀ {n}, m.Same n → Agree r (next n)) :
    Agree r (n.stepped next) := by
  unfold stepped
  split
  · exact .inr (.inl rfl)
  · exact rest same.tick_right

theorem stepped (same : m.Same n) (rest : ∀ {m n : Machine}, m.Same n → Agree (next m) (next' n)) :
    Agree (m.stepped next) (n.stepped next') :=
  stepped_left same fun same => stepped_right same rest

section Calls

variable {g' : Graph} (parallel : Module.Parallel pair program program')
include parallel

theorem enter {run run' : Graph → Machine → Ended}
    (runs : ∀ {g g' : Graph}, pair g g' → ∀ {m n : Machine}, m.Same n → Agree (run g m) (run' g' n)) (same : m.Same n)
    (callee : Label) (args : List Value) :
    Agree (m.enter run program callee args) (n.enter run' program' callee args) := by
  unfold Machine.enter
  have related := parallel.graphs callee
  generalize program.graph? callee = found at related
  generalize program'.graph? callee = found' at related
  cases related with
  | none => exact of_same same _
  | @some g g' paired =>
    dsimp only
    rw [(parallel.alike paired).enter]
    cases Frame.enter g args with
    | error e => exact of_same same _
    | ok frame =>
      rcases runs paired (same.push frame) with cut | cut | ⟨value, same⟩
      · exact .inl cut
      · exact .inr (.inl cut)
      · exact .inr (.inr ⟨value, same.pop⟩)

theorem quad (alike : g.Alike g') (runs : ∀ {h h' : Graph}, pair h h' → ∀ {m n : Machine}, m.Same n →
      Agree (exec program fuel h (h.body h.entry) (h.tail h.entry) m)
        (exec program' fuel' h' (h'.body h'.entry) (h'.tail h'.entry) n)) (same : m.Same n) :
    Agree (m.quad program fuel g q) (n.quad program' fuel' g' q) := by
  by_cases called : ∃ callee xs, q.op = .call callee xs
  · obtain ⟨callee, xs, op⟩ := called
    rw [quad_call op, quad_call op, alike.akin.args, same.args]
    refine andThen (of_same same _) fun args _ _ same => ?_
    refine andThen (enter parallel runs same callee args) fun x _ _ same => ?_
    rw [alike.akin.destination, same.destination]
    exact andThen (of_same same _) fun d _ _ same => of_same (same.deliver d) _
  · have op : ∀ callee xs, q.op ≠ .call callee xs := fun callee xs op => called ⟨callee, xs, op⟩
    rw [quad_act op, quad_act op, parallel.strings, alike.akin.effect, same.effect]
    refine andThen (of_same same _) fun e _ _ same => ?_
    rw [alike.akin.destination, (same.perform e).destination]
    exact andThen (of_same (same.perform e) _) fun d _ _ same => of_same (same.deliver d) _

end Calls

/-- How much a run may still do decides nothing but where it is cut off. -/
theorem exec (same : m.Same n) : Agree (exec program fuel g rest tail m) (exec program fuel' g rest tail n) := by
  induction fuel generalizing fuel' g rest tail m n with
  | zero => exact .inl rfl
  | succ fuel ih =>
    cases fuel' with
    | zero => exact .inr (.inl rfl)
    | succ fuel' =>
      cases rest with
      | nil =>
        rw [exec_nil, exec_nil]
        refine stepped same fun same => ?_
        rw [same.next]
        refine andThen (of_same same _) fun way _ _ same => ?_
        cases way with
        | inl b => exact ih same
        | inr x => exact of_same same _
      | cons q rest =>
        rw [exec_cons, exec_cons]
        refine stepped same fun same => ?_
        refine andThen (quad (.refl program) (.refl g) ?_ same) fun _ _ _ same => ih same
        rintro h _ rfl m n same
        exact ih same

end Agree

end Machine

namespace Module

variable {entry : Label} {args : List Value} {input : List Int32} (globals : program'.globals = program.globals)
include globals

/-- Two programs that start alike and whose calls agree but for a fault give the same but for it, unless
one is cut off. -/
theorem run_agreeUnless
    (calls : ∀ m : Machine, Machine.AgreeUnless excused (m.call program entry args) (m.call program' entry args)) :
    excused ∧ program.run entry args input = .error .fault ∨ program.run entry args input = .error .outOfSteps ∨
      program'.run entry args input = .error .outOfSteps ∨
      program'.run entry args input = program.run entry args input := by
  have start : Machine.start program' input = Machine.start program input := by
    rw [Machine.start, Machine.start, globals]
  unfold run
  rw [start]
  cases Machine.start program input with
  | error e => exact .inr (.inr (.inr rfl))
  | ok m =>
    have agree := calls m
    simp only [bind, Except.bind]
    generalize m.call program entry args = r at agree
    generalize m.call program' entry args = r' at agree
    obtain ⟨x, m⟩ := r
    obtain ⟨x', n⟩ := r'
    rcases agree with ⟨excuse, fault⟩ | cut | cut | ⟨value, same⟩
    · obtain rfl : x = _ := fault
      exact .inl ⟨excuse, rfl⟩
    · obtain rfl : x = _ := cut
      exact .inr (.inl rfl)
    · obtain rfl : x' = _ := cut
      exact .inr (.inr (.inl rfl))
    · obtain rfl : x = x' := value
      obtain ⟨steps, rfl⟩ := same
      cases x <;> exact .inr (.inr (.inr rfl))

/-- Two programs that start alike and whose calls agree give the same, unless one is cut off. -/
theorem run_agree (calls : ∀ m : Machine, Machine.Agree (m.call program entry args) (m.call program' entry args)) :
    program.run entry args input = .error .outOfSteps ∨ program'.run entry args input = .error .outOfSteps ∨
      program'.run entry args input = program.run entry args input :=
  (run_agreeUnless globals fun m => .inr (calls m)).resolve_left And.left

end Module

end Quadcode
