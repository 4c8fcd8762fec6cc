import Quadcode.Proofs.Eval.Execution

/-!
# Runs as derivations

A point is a place in the code of an activation, with the state of the machine there. `Runs` says
how an activation gets from a point to its return, one rule for each kind of step; `Visits` says
which points such a run comes to, those of the activations that it calls included. The interpreter
gives a value exactly when there is a derivation, so induction over runs needs no step counts.
-/

namespace Quadcode

variable {program : Module} {x : Option Value} {p : Point}

/-- A place that control comes to. -/
structure Point where
  /-- The functions of the suspended activations, the outermost first. -/
  callers : List Graph
  graph : Graph
  block : BlockId
  /-- How many quadruples of the block have been run. -/
  index : Nat
  machine : Machine

namespace Point

/-- The quadruple to be run next; none before the tail. -/
def quad? (p : Point) : Option Quad := (p.graph.body p.block)[p.index]?

def tail (p : Point) : Tail := p.graph.tail p.block

/-- The code of the block that is still to be run. -/
def rest (p : Point) : List Quad := (p.graph.body p.block).drop p.index

/-- The start of another block. -/
def goto (p : Point) (b : BlockId) : Point := { p with block := b, index := 0, machine := p.machine.tick }

/-- Behind the next quadruple. -/
def advance (p : Point) (m : Machine) : Point := { p with index := p.index + 1, machine := m }

/-- The start of an activation. -/
def start (callers : List Graph) (g : Graph) (m : Machine) (frame : Frame) : Point :=
  ⟨callers, g, g.entry, 0, m.push frame⟩

/-- The start of the activation that a call makes. -/
def into (p : Point) (h : Graph) (frame : Frame) : Point := start (p.callers ++ [p.graph]) h p.machine.tick frame

/-- The function that a call enters, and its frame. -/
def callee (program : Module) (p : Point) (name : Label) (xs : List Arg) : Except Stop (Graph × Frame) := do
  let args ← p.machine.tick.args p.graph xs
  match program.graph? name with
  | none => .error (.error (.unknownFunction name))
  | some h => pure (h, ← Frame.enter h args)

/-- There is a step left. -/
def Live (p : Point) : Prop := p.machine.tick.steps ≤ stepLimit

end Point

/-- An activation runs from a point to its return, with a value or none, and leaves a state behind
in which its frame still stands. -/
inductive Runs (program : Module) : Point → Option Value → Machine → Prop
  | ret {p : Point} {x : Option Value} : p.quad? = none → p.Live →
      p.machine.tick.next p.graph p.tail = .ok (.inr x) → Runs program p x p.machine.tick
  | jump {p : Point} {b : BlockId} {x : Option Value} {n : Machine} : p.quad? = none → p.Live →
      p.machine.tick.next p.graph p.tail = .ok (.inl b) → Runs program (p.goto b) x n →
      Runs program p x n
  | act {p : Point} {q : Quad} {k n : Machine} {x : Option Value} : p.quad? = some q →
      q.op.isCall = false → p.Live → p.machine.tick.act program.strings p.graph q = .ok k →
      Runs program (p.advance k) x n → Runs program p x n
  | call {p : Point} {q : Quad} {callee : Label} {xs : List Arg} {args : List Value} {h : Graph}
      {frame : Frame} {y x : Option Value} {k n : Machine} {d : Option (Place × Value)} :
      p.quad? = some q → q.op = .call callee xs → p.Live →
      p.machine.tick.args p.graph xs = .ok args → program.graph? callee = some h →
      Frame.enter h args = .ok frame → Runs program (p.into h frame) y k →
      k.pop.destination p.graph q.result y = .ok d →
      Runs program (p.advance (k.pop.deliver d)) x n → Runs program p x n

/-- The run from one point comes to the other. -/
inductive Visits (program : Module) : Point → Point → Prop
  | here {p : Point} : Visits program p p
  | jump {p r : Point} {b : BlockId} : p.quad? = none → p.Live →
      p.machine.tick.next p.graph p.tail = .ok (.inl b) → Visits program (p.goto b) r →
      Visits program p r
  | act {p r : Point} {q : Quad} {k : Machine} : p.quad? = some q → q.op.isCall = false → p.Live →
      p.machine.tick.act program.strings p.graph q = .ok k → Visits program (p.advance k) r →
      Visits program p r
  | into {p r : Point} {q : Quad} {callee : Label} {xs : List Arg} {args : List Value} {h : Graph}
      {frame : Frame} : p.quad? = some q → q.op = .call callee xs → p.Live →
      p.machine.tick.args p.graph xs = .ok args → program.graph? callee = some h →
      Frame.enter h args = .ok frame → Visits program (p.into h frame) r → Visits program p r
  | past {p r : Point} {q : Quad} {callee : Label} {xs : List Arg} {args : List Value} {h : Graph}
      {frame : Frame} {y : Option Value} {k : Machine} {d : Option (Place × Value)} :
      p.quad? = some q → q.op = .call callee xs → p.Live →
      p.machine.tick.args p.graph xs = .ok args → program.graph? callee = some h →
      Frame.enter h args = .ok frame → Runs program (p.into h frame) y k →
      k.pop.destination p.graph q.result y = .ok d →
      Visits program (p.advance (k.pop.deliver d)) r → Visits program p r

namespace Point

variable {q : Quad}

theorem rest_eq_nil : p.rest = [] ↔ p.quad? = none := by
  simp [rest, quad?]

theorem rest_eq_cons (next : p.quad? = some q) (m : Machine) : p.rest = q :: (p.advance m).rest := by
  obtain ⟨inside, here⟩ := List.getElem?_eq_some_iff.1 next
  rw [rest, List.drop_eq_getElem_cons inside, here]
  rfl

/-- What the interpreter makes of a point. -/
def exec (program : Module) (fuel : Nat) (p : Point) : Ended :=
  Machine.exec program fuel p.graph p.rest p.tail p.machine

variable {name : Label} {xs : List Arg} {h : Graph} {frame : Frame}

theorem callee_eq_ok : p.callee program name xs = .ok (h, frame) ↔
    ∃ args, p.machine.tick.args p.graph xs = .ok args ∧ program.graph? name = some h ∧
      Frame.enter h args = .ok frame := by
  unfold callee
  rw [bind_eq_ok]
  refine exists_congr fun args => and_congr_right fun _ => ?_
  cases program.graph? name with
  | none => simp
  | some g =>
    simp only [bind_eq_ok, pure_eq_ok, Prod.mk.injEq, Option.some.injEq]
    constructor
    · rintro ⟨_, entered, rfl, rfl⟩
      exact ⟨rfl, entered⟩
    · rintro ⟨rfl, entered⟩
      exact ⟨frame, entered, rfl, rfl⟩

/-- The interpreter at a call. -/
theorem callee_quad (call : q.op = .call name xs) (fuel : Nat) :
    (p.machine.tick.quad program fuel p.graph q) = match p.callee program name xs with
      | .error e => (.error e, p.machine.tick)
      | .ok (h, frame) =>
        Machine.andThen (((p.into h frame).exec program fuel).1, ((p.into h frame).exec program fuel).2.pop)
          fun x m => Machine.andThen (m.destination p.graph q.result x, m) fun d m => (.ok (), m.deliver d) := by
  rw [Machine.quad_call call, callee]
  cases p.machine.tick.args p.graph xs with
  | error e => rfl
  | ok args =>
    dsimp only [bind, Except.bind, Machine.andThen, Machine.enter]
    cases program.graph? name with
    | none => rfl
    | some h =>
      dsimp only
      cases Frame.enter h args with
      | error e => rfl
      | ok frame =>
        rfl

/-- What the interpreter makes of a point, but for the state that an error leaves behind. -/
def result (program : Module) (fuel : Nat) (p : Point) : Except Stop (Option Value × Machine) :=
  Machine.result (p.exec program fuel)

theorem result_cut (cut : ¬p.Live) (fuel : Nat) : p.result program fuel = .error .outOfSteps := by
  cases fuel with
  | zero => rfl
  | succ fuel =>
    have late : p.machine.tick.steps > stepLimit := Nat.lt_of_not_le cut
    rw [result, exec]
    cases p.rest with
    | nil =>
      rw [Machine.exec_nil, Machine.stepped, if_pos late]
      rfl
    | cons q rest =>
      rw [Machine.exec_cons, Machine.stepped, if_pos late]
      rfl

variable (live : p.Live)
include live

theorem result_tail (ended : p.quad? = none) (fuel : Nat) : p.result program (fuel + 1) =
    p.machine.tick.next p.graph p.tail >>= fun way => way.elim (fun b => (p.goto b).result program fuel)
      fun x => .ok (x, p.machine.tick) := by
  rw [result, exec, rest_eq_nil.2 ended, Machine.exec_nil, Machine.stepped, if_neg (Nat.not_lt.2 live)]
  rcases p.machine.tick.next p.graph p.tail with e | b | x <;> rfl

theorem result_quad (next : p.quad? = some q) (fuel : Nat) : p.result program (fuel + 1) =
    Machine.result (p.machine.tick.quad program fuel p.graph q) >>= fun a =>
      (p.advance a.2).result program fuel := by
  rw [result, exec, rest_eq_cons next p.machine, Machine.exec_cons, Machine.stepped,
    if_neg (Nat.not_lt.2 live), Machine.result_andThen]
  rfl

theorem result_act (next : p.quad? = some q) (plain : q.op.isCall = false) (fuel : Nat) :
    p.result program (fuel + 1) = p.machine.tick.act program.strings p.graph q >>= fun k =>
      (p.advance k).result program fuel := by
  rw [result_quad live next, Machine.quad_act fun _ _ call => by simp [call, Op.isCall] at plain, Machine.act]
  cases p.machine.tick.effect program.strings p.graph q.op with
  | error e => rfl
  | ok e =>
    dsimp only [bind, Except.bind, Machine.andThen]
    cases (p.machine.tick.perform e).destination p.graph q.result e.result? <;> rfl

theorem result_call (next : p.quad? = some q) (call : q.op = .call name xs) (fuel : Nat) : p.result program (fuel + 1) =
      p.callee program name xs >>= fun a => (p.into a.1 a.2).result program fuel >>= fun y =>
        y.2.pop.destination p.graph q.result y.1 >>= fun d =>
          (p.advance (y.2.pop.deliver d)).result program fuel := by
  rw [result_quad live next, callee_quad call]
  cases p.callee program name xs with
  | error e => rfl
  | ok a =>
    dsimp only [bind, Except.bind, result]
    rcases (p.into a.1 a.2).exec program fuel with ⟨e | y, k⟩
    · rfl
    · dsimp only [Machine.andThen, Machine.result, Except.map]
      cases k.pop.destination p.graph q.result y <;> rfl

omit live in
/-- A run is cut off, or it goes on from a point where there is a step left. -/
theorem cut_or {r : Except Stop (Option Value × Machine)}
    (goes : p.Live → ∀ fuel, p.result program (fuel + 1) = .error .outOfSteps ∨ p.result program (fuel + 1) = r)
    (fuel : Nat) : p.result program fuel = .error .outOfSteps ∨ p.result program fuel = r := by
  by_cases live : p.Live
  · cases fuel with
    | zero => exact .inl rfl
    | succ fuel => exact goes live fuel
  · exact .inl (result_cut live fuel)

end Point

variable {n : Machine} {fuel : Nat}

theorem Runs.of_result (ended : p.result program fuel = .ok (x, n)) : Runs program p x n := by
  induction fuel generalizing p x n with
  | zero => cases ended
  | succ fuel ih =>
    by_cases live : p.Live
    · cases next : p.quad? with
      | none =>
        rw [Point.result_tail live next, bind_eq_ok] at ended
        obtain ⟨b | y, led, more⟩ := ended
        · exact .jump next live led (ih more)
        · cases more
          exact .ret next live led
      | some q =>
        by_cases call : q.op.isCall
        · obtain ⟨callee, xs, same⟩ : ∃ callee xs, q.op = .call callee xs := by
            cases op : q.op <;> simp_all [Op.isCall]
          rw [Point.result_call live next same] at ended
          simp only [bind_eq_ok] at ended
          obtain ⟨⟨h, frame⟩, admitted, ⟨y, k⟩, inner, d, back, more⟩ := ended
          obtain ⟨args, evaluated, found, entered⟩ := Point.callee_eq_ok.1 admitted
          exact .call next same live evaluated found entered (ih inner) back (ih more)
        · rw [Bool.not_eq_true] at call
          rw [Point.result_act live next call, bind_eq_ok] at ended
          obtain ⟨k, acted, more⟩ := ended
          exact .act next call live acted (ih more)
    · rw [Point.result_cut live] at ended
      cases ended

namespace Runs

theorem steps_lt (run : Runs program p x n) : p.machine.steps < n.steps ∧ n.steps ≤ stepLimit := by
  induction run with
  | ret _ live _ => exact ⟨Nat.lt_succ_self _, live⟩
  | jump _ _ _ _ ih => exact ⟨Nat.lt_of_succ_lt ih.1, ih.2⟩
  | act _ _ _ acted _ ih =>
    have same := Machine.act_steps acted
    simp only [Point.advance, Machine.tick_steps] at ih same
    omega
  | call _ _ _ _ _ _ _ _ _ inner outer =>
    simp only [Point.advance, Point.into, Point.start, Machine.deliver_steps, Machine.pop_steps,
      Machine.push_steps, Machine.tick_steps] at inner outer
    omega

/-- Fuel for the steps that a run takes is fuel enough. -/
theorem result (run : Runs program p x n) (enough : n.steps ≤ p.machine.steps + fuel) :
    p.result program fuel = .ok (x, n) := by
  induction run generalizing fuel with
  | @ret p x next live returned =>
    rw [Machine.tick_steps] at enough
    obtain ⟨fuel, rfl⟩ : ∃ k, fuel = k + 1 := Nat.exists_eq_succ_of_ne_zero (by omega)
    rw [Point.result_tail live next, returned]
    rfl
  | @jump p b x n next live jumped more ih =>
    have taken := more.steps_lt
    simp only [Point.goto, Machine.tick_steps] at taken ih
    obtain ⟨fuel, rfl⟩ : ∃ k, fuel = k + 1 := Nat.exists_eq_succ_of_ne_zero (by omega)
    rw [Point.result_tail live next, jumped]
    exact ih (by omega)
  | @act p q k n x next plain live acted more ih =>
    have taken := more.steps_lt
    have same := Machine.act_steps acted
    simp only [Point.advance, Machine.tick_steps] at taken ih same
    obtain ⟨fuel, rfl⟩ : ∃ k, fuel = k + 1 := Nat.exists_eq_succ_of_ne_zero (by omega)
    rw [Point.result_act live next plain, acted]
    exact ih (by omega)
  | @call p q callee xs args h frame y x k n d next call live evaluated found entered first back
      more inner outer =>
    have before := first.steps_lt
    have taken := more.steps_lt
    simp only [Point.advance, Point.into, Point.start, Machine.deliver_steps, Machine.pop_steps,
      Machine.push_steps, Machine.tick_steps] at before taken inner outer
    obtain ⟨fuel, rfl⟩ : ∃ k, fuel = k + 1 := Nat.exists_eq_succ_of_ne_zero (by omega)
    rw [Point.result_call live next call]
    simp only [bind_eq_ok]
    exact ⟨_, Point.callee_eq_ok.2 ⟨args, evaluated, found, entered⟩, _, inner (by omega), d, back, outer (by omega)⟩

end Runs

/-- What a program gives is what the interpreter makes of the start of its entry function. -/
theorem Module.run_eq_result (program : Module) (entry : Label) (args : List Value) (input : List Int32) :
    program.run entry args input = Machine.start program input >>= fun m =>
      match program.graph? entry with
      | none => .error (.error (.unknownFunction entry))
      | some g => Frame.enter g args >>= fun frame =>
        ((Point.start [] g m frame).result program (stepLimit + 1)).map fun a => ⟨a.1, a.2.output⟩ := by
  unfold Module.run Machine.call Machine.enter
  cases Machine.start program input with
  | error e => rfl
  | ok m =>
    dsimp only [bind, Except.bind]
    cases program.graph? entry with
    | none => rfl
    | some g =>
      dsimp only
      cases Frame.enter g args with
      | error e => rfl
      | ok frame =>
        dsimp only [Point.result]
        rw [show (Point.start [] g m frame).exec program (stepLimit + 1) = Machine.exec program
          (stepLimit + 1) g (g.body g.entry) (g.tail g.entry) (m.push frame) from rfl]
        rcases Machine.exec program (stepLimit + 1) g (g.body g.entry) (g.tail g.entry) (m.push frame)
          with ⟨e | x, n⟩ <;> rfl

/-- A program gives an outcome exactly when its entry function runs from a fresh state. -/
theorem Module.run_iff_runs {entry : Label} {args : List Value} {input : List Int32} {outcome : Outcome} :
    program.run entry args input = .ok outcome ↔ ∃ m g frame x n,
      Machine.start program input = .ok m ∧ program.graph? entry = some g ∧
        Frame.enter g args = .ok frame ∧ Runs program (.start [] g m frame) x n ∧
        outcome = ⟨x, n.output⟩ := by
  rw [run_eq_result]
  constructor
  · intro ran
    obtain ⟨m, started, ran⟩ := bind_eq_ok.1 ran
    split at ran
    · cases ran
    next g found =>
      obtain ⟨frame, entered, ran⟩ := bind_eq_ok.1 ran
      rcases ended : (Point.start [] g m frame).result program (stepLimit + 1) with e | ⟨x, n⟩ <;>
        rw [ended] at ran <;> cases ran
      exact ⟨m, g, frame, x, n, started, found, entered, .of_result ended, rfl⟩
  · rintro ⟨m, g, frame, x, n, started, found, entered, run, rfl⟩
    have bound := run.steps_lt.2
    simp only [started, found, entered, bind, Except.bind]
    rw [run.result (by omega)]
    rfl

/-- The run of a program comes to a point. -/
def Module.Comes (program : Module) (entry : Label) (args : List Value) (input : List Int32) (p : Point) : Prop :=
  ∃ m g frame, Machine.start program input = .ok m ∧ program.graph? entry = some g ∧
    Frame.enter g args = .ok frame ∧ Visits program (.start [] g m frame) p

end Quadcode
