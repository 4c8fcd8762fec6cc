import Quadcode.Eval.Run
import Quadcode.Proofs.Outcome

/-!
# Runs in pieces

A run is its first step, if the limit leaves room for it, followed by the rest. What it took a step
to succeed is read off here once for each kind of step.
-/

namespace Quadcode

/-- The reason of a run that was cut off. -/
def Stop.outOfSteps : Stop := .error (.stepLimit stepLimit)

namespace Machine

/-- What one quadruple other than a call makes of a state. -/
def act (m : Machine) (strings : StringPool) (g : Graph) (q : Quad) : Except Stop Machine := do
  let e ← m.effect strings g q.op
  let d ← (m.perform e).destination g q.result e.result?
  pure ((m.perform e).deliver d)

variable {program : Module} {fuel : Nat} {g : Graph} {q : Quad} {rest : List Quad} {tail : Tail} {m n : Machine}
  {x : Option Value}

/-- Control goes to a target of the tail. -/
theorem next_target {b : BlockId} (jumped : m.next g tail = .ok (.inl b)) : b ∈ tail.targets := by
  cases tail with
  | branch c x y onTrue onFalse =>
    simp only [next, bind_eq_ok, pure_eq_ok, Sum.inl.injEq] at jumped
    obtain ⟨_, -, _, -, taken, -, rfl⟩ := jumped
    cases taken <;> simp [Tail.targets, Tail.successors]
  | ret x => cases x <;> simp [next] at jumped
  | _ =>
    cases jumped
    simp [Tail.targets, Tail.successors]

/-! ## Running in pieces -/

variable {α β : Type}

/-- Goes on with the value of a first piece, if it has one. -/
def andThen (r : Except Stop α × Machine) (next : α → Machine → Except Stop β × Machine) : Except Stop β × Machine :=
  match r with
  | (.error e, m) => (.error e, m)
  | (.ok a, m) => next a m

/-- Goes on if there is a step left. -/
def stepped (m : Machine) (next : Machine → Ended) : Ended :=
  if m.tick.steps > stepLimit then (.error .outOfSteps, m.tick) else next m.tick

/-- What one quadruple does. -/
def quad (program : Module) (fuel : Nat) (g : Graph) (q : Quad) (m : Machine) : Except Stop Unit × Machine :=
  match q.op with
  | .call callee xs =>
    andThen (m.args g xs, m) fun args m =>
      andThen (m.enter (fun g m => exec program fuel g (g.body g.entry) (g.tail g.entry) m) program
        callee args) fun x m =>
          andThen (m.destination g q.result x, m) fun d m => (.ok (), m.deliver d)
  | op =>
    andThen (m.effect program.strings g op, m) fun e m =>
      andThen ((m.perform e).destination g q.result e.result?, m.perform e) fun d m =>
        (.ok (), m.deliver d)

theorem quad_call {callee : Label} {xs : List Arg} (op : q.op = .call callee xs) :
    m.quad program fuel g q = andThen (m.args g xs, m) fun args m =>
      andThen (m.enter (fun g m => exec program fuel g (g.body g.entry) (g.tail g.entry) m) program
        callee args) fun x m =>
          andThen (m.destination g q.result x, m) fun d m => (.ok (), m.deliver d) := by
  unfold quad
  rw [op]

theorem quad_act (op : ∀ callee xs, q.op ≠ .call callee xs) :
    m.quad program fuel g q = andThen (m.effect program.strings g q.op, m) fun e m =>
      andThen ((m.perform e).destination g q.result e.result?, m.perform e) fun d m =>
        (.ok (), m.deliver d) := by
  unfold quad
  split
  next called => exact absurd called (op _ _)
  · rfl

theorem exec_nil : exec program (fuel + 1) g [] tail m = m.stepped fun m => andThen (m.next g tail, m) fun
      | .inl b, m => exec program fuel g (g.body b) (g.tail b) m
      | .inr x, m => (.ok x, m) := by
  rw [exec, stepped]
  split
  · rfl
  · rcases m.tick.next g tail with e | b | x <;> rfl

theorem exec_cons : exec program (fuel + 1) g (q :: rest) tail m = m.stepped fun m =>
    andThen (m.quad program fuel g q) fun _ m => exec program fuel g rest tail m := by
  rw [exec, stepped]
  split
  · rfl
  · split
    next callee xs op =>
      rw [quad_call op]
      rcases m.tick.args g xs with e | args
      · rfl
      · dsimp only [andThen]
        rcases m.tick.enter _ program callee args with ⟨e | x, m'⟩
        · rfl
        · dsimp only
          cases m'.destination g q.result x <;> rfl
    next op =>
      rw [quad_act op]
      rcases m.tick.effect program.strings g q.op with e | e
      · rfl
      · dsimp only [andThen]
        cases (m.tick.perform e).destination g q.result e.result? <;> rfl

/-- The value of a piece with the state after it, or the reason of an early end. -/
def result (r : Except Stop α × Machine) : Except Stop (α × Machine) := r.1.map fun a => (a, r.2)

theorem result_andThen (r : Except Stop α × Machine) (next : α → Machine → Except Stop β × Machine) :
    result (andThen r next) = result r >>= fun a => result (next a.1 a.2) := by
  obtain ⟨e | a, m⟩ := r <;> rfl

theorem result_eq_ok {r : Except Stop α × Machine} {a : α} : result r = .ok (a, n) ↔ r = (.ok a, n) := by
  obtain ⟨e | b, m⟩ := r <;> simp [result, Except.map]

/-! ## Steps -/

@[simp]
theorem put_steps (m : Machine) (p : Place) (offset : Nat) (x : Value) : (m.put p offset x).steps = m.steps := by
  cases p <;> rfl

@[simp]
theorem deliver_steps (m : Machine) (d : Option (Place × Value)) : (m.deliver d).steps = m.steps := by
  cases d <;> simp [deliver]

@[simp]
theorem perform_steps (m : Machine) (e : Effect) : (m.perform e).steps = m.steps := by
  cases e <;> simp [perform]

@[simp] theorem pop_steps (m : Machine) : m.pop.steps = m.steps := rfl
@[simp] theorem push_steps (m : Machine) (f : Frame) : (m.push f).steps = m.steps := rfl
@[simp] theorem tick_steps (m : Machine) : m.tick.steps = m.steps + 1 := rfl

theorem act_steps {strings : StringPool} (acted : m.act strings g q = .ok n) : n.steps = m.steps := by
  simp only [act, bind_eq_ok, pure_eq_ok] at acted
  obtain ⟨e, -, d, -, rfl⟩ := acted
  simp

end Machine

end Quadcode
