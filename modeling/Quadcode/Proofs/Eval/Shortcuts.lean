import Quadcode.Proofs.Eval.Replacement

/-!
# Shorter ways through a function

A function takes short cuts through another one if its runs go through the same quadruples and the same
tests, and leave out nothing but jumps that test nothing, quadruples without a meaning and calls of functions that
do nothing. Its runs are in the same state as those of the other but for the number of steps, of which they take
no more.
-/

namespace Quadcode

open Machine Quadcode.Module

variable {strings : StringPool} {meets : Spot → Spot → Prop} {args : List Value} {idle : Label → Prop}
  {input : List Int32} {outcome : Outcome} {g : Graph} {program program' : Module} {entry : Label} {n m : Machine}

namespace Machine

variable {q : Quad}

/-- Nothing comes of a quadruple without a meaning. -/
theorem act_nop (idle : q.op = .nop) : m.act strings g q = .ok m := by
  have nowhere : m.destination g q.result none = .ok none := by
    cases q.result <;> rfl
  refine act_eq_ok.2 ⟨.nothing, none, ?_, nowhere, rfl⟩
  rw [idle]
  rfl

theorem Same.act {k : Machine} (same : m.Same n) (acted : m.act strings g q = .ok k) :
    ∃ k', n.act strings g q = .ok k' ∧ k.Same k' := by
  obtain ⟨e, d, done, delivered, rfl⟩ := act_eq_ok.1 acted
  have done' := (same.effect q.op).trans done
  have delivered' := ((same.perform e).destination q.result e.result?).trans delivered
  exact ⟨_, act_eq_ok.2 ⟨e, d, done', delivered', rfl⟩, (same.perform e).deliver d⟩

theorem Same.tick (same : m.Same n) : m.tick.Same n.tick := same.tick_left.tick_right

end Machine

/-! ## Short cuts -/

/-- Nothing comes of a quadruple: it has no meaning, or it calls an idle function and names no result. -/
def Quad.Idle (idle : Label → Prop) (q : Quad) : Prop :=
  q.op = .nop ∨ q.result = none ∧ ∃ name xs, q.op = .call name xs ∧ idle name

/-- Wherever the first tail leads, the second one leads to a block that corresponds. -/
def Tail.Answers (meets : Spot → Spot → Prop) (g : Graph) (t t' : Tail) : Prop :=
  ∀ (m : Machine) (way : BlockId ⊕ Option Value), m.next g t = .ok way → ∃ way', m.next g t' = .ok way' ∧
    Sum.LiftRel (fun b b' => meets ⟨b, 0⟩ ⟨b', 0⟩) Eq way way'

/-- The second function takes short cuts through the first, without calls of idle functions; `meets` says at which
spots their runs stand at the same time. -/
structure Graph.Shortened (idle : Label → Prop) (meets : Spot → Spot → Prop) (g g' : Graph) : Prop where
  alike : g.Alike g'
  start : meets ⟨g.entry, 0⟩ ⟨g'.entry, 0⟩
  quad : ∀ (s s' : Spot) (q : Quad), meets s s' → (g.body s.block)[s.index]? = some q →
    (g'.body s'.block)[s'.index]? = some q ∧ meets s.next s'.next ∨ q.Idle idle ∧ meets s.next s'
  busy : ∀ (s s' : Spot) (q : Quad) (name : Label) (xs : List Arg), meets s s' →
    (g'.body s'.block)[s'.index]? = some q → q.op = .call name xs → ¬idle name
  tail : ∀ s s' : Spot, meets s s' → (g.body s.block)[s.index]? = none →
    (∃ c, (g.tail s.block).only? = some c ∧ meets ⟨c, 0⟩ s') ∨
      (g'.body s'.block)[s'.index]? = none ∧ (g.tail s.block).Answers meets g (g'.tail s'.block)

theorem Tail.Answers.of_targets {t : Tail} (targets : ∀ c ∈ t.targets, meets ⟨c, 0⟩ ⟨c, 0⟩) : t.Answers meets g t := by
  intro m way led
  refine ⟨way, led, ?_⟩
  cases way with
  | inl c => exact .inl (targets c (next_target led))
  | inr x => exact .inr rfl

/-- Every function goes its own way. -/
theorem Graph.Shortened.refl (g : Graph) : g.Shortened (fun _ => False) Eq g where
  alike := .refl g
  start := rfl
  quad _ _ _ same here := .inl ⟨same ▸ here, same ▸ rfl⟩
  busy _ _ _ _ _ _ _ _ := id
  tail _ _ same ended := .inr ⟨same ▸ ended, same ▸ .of_targets fun _ _ => rfl⟩

/-- Every function of the first program has one in the second that takes short cuts through it, unless it is idle:
it gives no value and leaves the state as it was. -/
structure Module.Shortened (idle : Label → Prop) (program program' : Module) : Prop where
  globals : program'.globals = program.globals
  strings : program'.strings = program.strings
  graphs : ∀ name g, ¬idle name → program.graph? name = some g →
    ∃ g' meets, program'.graph? name = some g' ∧ g.Shortened idle meets g'
  silent : ∀ name g, idle name → program.graph? name = some g → ∀ (callers : List Graph) (m : Machine) (frame : Frame)
    (x : Option Value) (n : Machine), Runs program (.start callers g m frame) x n → x = none ∧ (m.push frame).Same n

/-! ## Runs -/

/-- The second run goes the way of the first. -/
structure Hastens (idle : Label → Prop) (meets : Spot → Spot → Prop) (p p' : Point) : Prop where
  shortened : p.graph.Shortened idle meets p'.graph
  spots : meets p.spot p'.spot
  same : p.machine.Same p'.machine
  pace : p'.machine.steps ≤ p.machine.steps

namespace Hastens

variable {p p' : Point}

section

variable (hastens : Hastens idle meets p p') {c : BlockId}
include hastens

theorem live (live : p.Live) : p'.Live := (Nat.succ_le_succ hastens.pace).trans live

/-- Both runs pass a quadruple. -/
theorem advance (spots : meets p.spot.next p'.spot.next) (same : m.Same n) (pace : n.steps ≤ m.steps) :
    Hastens idle meets (p.advance m) (p'.advance n) :=
  ⟨hastens.shortened, spots, same, pace⟩

/-- The first run alone passes a quadruple of which nothing comes. -/
theorem wait (spots : meets p.spot.next p'.spot) (same : p.machine.tick.Same m) (pace : p.machine.steps ≤ m.steps) :
    Hastens idle meets (p.advance m) p' := by
  refine ⟨hastens.shortened, spots, ?_, hastens.pace.trans pace⟩
  obtain ⟨steps, rfl⟩ := same
  obtain ⟨steps', there⟩ := hastens.same
  exact ⟨steps', there⟩

/-- Both runs go on to another block. -/
theorem goto {b : BlockId} (spots : meets ⟨b, 0⟩ ⟨c, 0⟩) : Hastens idle meets (p.goto b) (p'.goto c) :=
  ⟨hastens.shortened, spots, hastens.same.tick, Nat.succ_le_succ hastens.pace⟩

/-- The first run alone goes on to another block. -/
theorem goto_left (spots : meets ⟨c, 0⟩ p'.spot) : Hastens idle meets (p.goto c) p' :=
  ⟨hastens.shortened, spots, hastens.same.tick_left, Nat.le_succ_of_le hastens.pace⟩

/-- At the end of a block, the second run is told the same by its tail. -/
theorem answers {way : BlockId ⊕ Option Value} (answers : p.tail.Answers meets p.graph p'.tail)
    (led : p.machine.tick.next p.graph p.tail = .ok way) :
    ∃ way', p'.machine.tick.next p'.graph p'.tail = .ok way' ∧
      Sum.LiftRel (fun b b' => meets ⟨b, 0⟩ ⟨b', 0⟩) Eq way way' := by
  rw [hastens.shortened.alike.akin.next, hastens.same.tick.next]
  exact answers p.machine.tick way led

/-- The second run calls a function that takes short cuts through the callee. -/
theorem into (short : program.Shortened idle program') {callee : Label} {xs : List Arg} {h : Graph} {frame : Frame}
    (busy : ¬idle callee) (evaluated : p.machine.tick.args p.graph xs = .ok args)
    (found : program.graph? callee = some h) (entered : Frame.enter h args = .ok frame) :
    ∃ h' meets', p'.machine.tick.args p'.graph xs = .ok args ∧ program'.graph? callee = some h' ∧
      Frame.enter h' args = .ok frame ∧ Hastens idle meets' (p.into h frame) (p'.into h' frame) := by
  obtain ⟨h', meets', found', shortened⟩ := short.graphs callee h busy found
  refine ⟨h', meets', ?_, found', (shortened.alike.enter args).trans entered, shortened, shortened.start,
    hastens.same.tick.push frame, Nat.succ_le_succ hastens.pace⟩
  rw [hastens.shortened.alike.akin.args, hastens.same.tick.args]
  exact evaluated

end

end Hastens

section Runs

variable (short : program.Shortened idle program')
include short

/-- A run that succeeds has one that takes short cuts, with the same value and in the same state. -/
theorem Runs.hastened {p p' : Point} {x : Option Value} (run : Runs program p x n) (hastens : Hastens idle meets p p') :
    ∃ n', Runs program' p' x n' ∧ n.Same n' ∧ n'.steps ≤ n.steps := by
  -- The first run leads; the second stands still where a jump or a quadruple is left out.
  induction run generalizing p' meets with
  | @ret p x next live returned =>
    obtain ⟨c, only, -⟩ | ⟨next', answers⟩ := hastens.shortened.tail _ _ hastens.spots next
    · cases (next_only only).symm.trans returned
    · obtain ⟨_, led, related⟩ := hastens.answers answers returned
      have pace := Nat.succ_le_succ hastens.pace
      cases related with
      | inr same => exact ⟨_, .ret next' (hastens.live live) (same ▸ led), hastens.same.tick, pace⟩
  | @jump p b x n next live jumped more ih =>
    obtain ⟨c, only, spots⟩ | ⟨next', answers⟩ := hastens.shortened.tail _ _ hastens.spots next
    · cases (next_only only).symm.trans jumped
      exact ih (hastens.goto_left spots)
    · obtain ⟨_, led, related⟩ := hastens.answers answers jumped
      cases related with
      | inl spots =>
        obtain ⟨n', run', same, pace⟩ := ih (hastens.goto spots)
        exact ⟨n', .jump next' (hastens.live live) led run', same, pace⟩
  | @act p q k n x next plain live acted more ih =>
    obtain ⟨next', spots⟩ | ⟨nop | ⟨-, name, xs, call, -⟩, spots⟩ := hastens.shortened.quad _ _ q hastens.spots next
    · obtain ⟨k', acted', same⟩ := hastens.same.tick.act acted
      have pace : k'.steps ≤ k.steps := by
        rw [act_steps acted, act_steps acted']
        exact Nat.succ_le_succ hastens.pace
      obtain ⟨n', run', same', pace'⟩ := ih (hastens.advance spots same pace)
      rw [← hastens.shortened.alike.akin.act, ← short.strings] at acted'
      exact ⟨n', .act next' plain (hastens.live live) acted' run', same', pace'⟩
    · cases (act_nop nop).symm.trans acted
      exact ih (hastens.wait spots (.refl _) (Nat.le_succ _))
    · cases (congrArg Op.isCall call).symm.trans plain
  | @call p q callee xs args h frame y x k n d next call live evaluated found entered first back more inner
      outer =>
    obtain ⟨next', spots⟩ | ⟨nop | ⟨unnamed, name, ys, call', idle⟩, spots⟩ :=
      hastens.shortened.quad _ _ q hastens.spots next
    · have busy := hastens.shortened.busy _ _ q callee xs hastens.spots next' call
      obtain ⟨h', meets', evaluated', found', entered', hastens'⟩ := hastens.into short busy evaluated found entered
      obtain ⟨k', run', same, pace⟩ := inner hastens'
      have back' : k'.pop.destination p'.graph q.result y = .ok d := by
        rw [hastens.shortened.alike.akin.destination, same.pop.destination]
        exact back
      obtain ⟨n', run'', same', pace'⟩ := outer (hastens.advance spots (same.pop.deliver d) (by simpa using pace))
      exact ⟨n', .call next' call (hastens.live live) evaluated' found' entered' run' back' run'', same', pace'⟩
    · cases nop.symm.trans call
    · -- The callee does nothing, and nothing is done with its result.
      cases call.symm.trans call'
      obtain ⟨rfl, same⟩ := short.silent callee h idle found _ _ frame _ _ first
      rw [unnamed] at back
      cases back
      have before := first.steps_lt.1
      refine outer (hastens.wait spots ?_ ?_)
      · simpa [Point.into, push, pop, deliver, tick] using same.pop
      · simp only [Point.into, Point.start, push_steps, tick_steps] at before
        simp only [deliver_steps, pop_steps]
        omega

/-- A program that gives an outcome gives it as well after short cuts. -/
theorem Module.Shortened.run (busy : ¬idle entry) (ran : program.run entry args input = .ok outcome) :
    program'.run entry args input = .ok outcome := by
  obtain ⟨m, h, frame, x, n, started, found, entered, run, rfl⟩ := run_iff_runs.1 ran
  obtain ⟨h', meets, found', shortened⟩ := short.graphs entry h busy found
  have hastens : Hastens idle meets (.start [] h m frame) (.start [] h' m frame) :=
    ⟨shortened, shortened.start, .refl _, le_rfl⟩
  obtain ⟨n', run', ⟨steps, rfl⟩, -⟩ := run.hastened short hastens
  have started' : start program' input = .ok m := by rw [← started, start, start, short.globals]
  exact run_iff_runs.2 ⟨m, h', frame, x, _, started', found', (shortened.alike.enter args).trans entered, run', rfl⟩

end Runs

/-- A program that gives an outcome gives it as well after one of its functions has been replaced by one that
takes short cuts through it. -/
theorem Graph.Shortened.run {before after : List Graph} {g' : Graph} (shortened : g.Shortened (fun _ => False) meets g')
    (listed : program.graphs = before ++ g :: after) (ran : program.run entry args input = .ok outcome) :
    Module.run { program with graphs := before ++ g' :: after } entry args input = .ok outcome := by
  have related (name : Label) : Option.Rel (fun h h' => ∃ meets, h.Shortened (fun _ => False) meets h')
      (program.graph? name) (Module.graph? { program with graphs := before ++ g' :: after } name) :=
    graph?_rel listed shortened.alike.name (fun h => ⟨_, .refl h⟩) ⟨_, shortened⟩ name
  have short : program.Shortened (fun _ => False) { program with graphs := before ++ g' :: after } := {
    globals := rfl
    strings := rfl
    graphs := fun name h _ found => by
      obtain ⟨h', found', meets, shortened⟩ := graph?_paired (related name) found
      exact ⟨h', meets, found', shortened⟩
    silent := fun _ _ => False.elim }
  exact short.run id ran

end Quadcode
