import Quadcode.Proofs.Eval.Agreement
import Quadcode.Proofs.Eval.Confinement

/-!
# Runs to their ends

`Ends` says how an activation ends when nobody counts its steps: with a value and the state left behind, or
with an error. A derivation also vouches for what was asked of the run on the way, so that a run which is
derived from another one vouches for itself in turn. The interpreter ends the same way or runs out of steps.
-/

namespace Quadcode

open Machine Point

variable {program : Module} {r : Except Stop (Option Value × Machine)} {x : Option Value} {p : Point} {w : Watch}
  {n : Machine}

/-- A place that pointers may lead to: a global, a variable whose address the owner of the frame takes, or
one that is shared. -/
def Point.Exposed (shared : VarSet) (p : Point) : Place → Prop
  | .global _ => True
  | .local frame v => ∃ h ∈ (p.callers ++ [p.graph])[frame]?, v ∈ h.addressTaken ∨ v ∈ shared

/-- A pointer that is about to be followed leads to an exposed place. -/
def Point.Fenced (shared : VarSet) (p : Point) : Prop :=
  ∀ q ∈ p.quad?, ∀ slot ∈ p.machine.reached? p.graph q.op, p.Exposed shared slot.1

/-- A quadruple that names a result gets a value, if that is asked for. -/
def Quad.Served (strict : Prop) (q : Quad) (x : Option Value) : Prop := strict → q.result.isSome → x.isSome

/-- What is asked of a run on its way. -/
structure Watch where
  /-- Variables that pointers may lead to in any function. -/
  shared : VarSet
  /-- Whether every quadruple that names a result gets a value. -/
  strict : Prop
  /-- What holds where control goes from block to block. -/
  leaves : Point → Prop

/-- An activation goes from a point to its end, and does on its way what is asked of it. -/
inductive Ends (program : Module) (w : Watch) : Point → Except Stop (Option Value × Machine) → Prop
  | ret {p : Point} {x : Option Value} : p.quad? = none → p.machine.tick.next p.graph p.tail = .ok (.inr x) →
      Ends program w p (.ok (x, p.machine.tick))
  | jump {p : Point} {b : BlockId} {r : Except Stop (Option Value × Machine)} : p.quad? = none →
      w.leaves p → p.machine.tick.next p.graph p.tail = .ok (.inl b) → Ends program w (p.goto b) r →
      Ends program w p r
  | lost {p : Point} {e : Stop} : p.quad? = none → p.machine.tick.next p.graph p.tail = .error e →
      Ends program w p (.error e)
  | act {p : Point} {q : Quad} {e : Effect} {k : Machine} {r : Except Stop (Option Value × Machine)} :
      p.quad? = some q → q.op.isCall = false → p.Fenced w.shared →
      p.machine.tick.effect program.strings p.graph q.op = .ok e → q.Served w.strict e.result? →
      p.machine.tick.act program.strings p.graph q = .ok k →
      Ends program w (p.advance k) r → Ends program w p r
  | stuck {p : Point} {q : Quad} {e : Stop} : p.quad? = some q → q.op.isCall = false →
      p.Fenced w.shared → p.machine.tick.act program.strings p.graph q = .error e →
      Ends program w p (.error e)
  | call {p : Point} {q : Quad} {name : Label} {xs : List Arg} {h : Graph} {frame : Frame}
      {y : Option Value} {k : Machine} {d : Option (Place × Value)}
      {r : Except Stop (Option Value × Machine)} :
      p.quad? = some q → q.op = .call name xs → p.callee program name xs = .ok (h, frame) →
      Ends program w (p.into h frame) (.ok (y, k)) → q.Served w.strict y →
      k.pop.destination p.graph q.result y = .ok d →
      Ends program w (p.advance (k.pop.deliver d)) r → Ends program w p r
  | refused {p : Point} {q : Quad} {name : Label} {xs : List Arg} {e : Stop} :
      p.quad? = some q → q.op = .call name xs → p.callee program name xs = .error e →
      Ends program w p (.error e)
  | broken {p : Point} {q : Quad} {name : Label} {xs : List Arg} {h : Graph} {frame : Frame} {e : Stop} :
      p.quad? = some q → q.op = .call name xs → p.callee program name xs = .ok (h, frame) →
      Ends program w (p.into h frame) (.error e) → Ends program w p (.error e)
  | unserved {p : Point} {q : Quad} {name : Label} {xs : List Arg} {h : Graph} {frame : Frame}
      {y : Option Value} {k : Machine} {e : Stop} :
      p.quad? = some q → q.op = .call name xs → p.callee program name xs = .ok (h, frame) →
      Ends program w (p.into h frame) (.ok (y, k)) →
      k.pop.destination p.graph q.result y = .error e → Ends program w p (.error e)

namespace Point

variable {shared : VarSet} {name : Label} {xs : List Arg} {h : Graph} {frame : Frame} {q : Quad}

theorem Confined.fenced (confined : p.Confined) (shared : VarSet) : p.Fenced shared := by
  intro q next slot reached
  have owned := confined q next slot reached
  cases place : slot.1 with
  | global => trivial
  | «local» frame v =>
    rw [place] at owned
    obtain ⟨h, owner, taken⟩ := owned
    exact ⟨h, owner, .inl taken⟩

/-- A quadruple without a memory base follows no pointer. -/
theorem fenced_of_base (next : p.quad? = some q) (direct : q.op.base? = none) : p.Fenced shared := by
  intro q' next' slot reached
  cases Option.some.inj (next.symm.trans next')
  cases op : q.op <;> simp_all [Op.base?, Machine.reached?]

/-- What the next quadruple comes to, if it does not fail: a value or none. -/
def yield? (program : Module) (p : Point) : Option (Option Value) := p.quad?.bind fun q => match q.op with
    | .call name xs =>
      match p.callee program name xs with
      | .ok (h, frame) => ((p.into h frame).exec program (stepLimit + 1)).1.toOption
      | .error _ => none
    | op => (p.machine.tick.effect program.strings p.graph op).toOption.map Effect.result?

/-- If the next quadruple names a result, it comes to a value, unless it fails. -/
def Productive (program : Module) (p : Point) : Prop :=
  ∀ q ∈ p.quad?, q.result.isSome → ∀ x ∈ p.yield? program, x.isSome

instance (program : Module) (p : Point) : Decidable (p.Productive program) :=
  inferInstanceAs (Decidable (∀ q ∈ p.quad?, q.result.isSome → ∀ x ∈ p.yield? program, x.isSome))

theorem Productive.served (productive : p.Productive program) (next : p.quad? = some q)
    (yielded : p.yield? program = some x) (strict : Prop) : q.Served strict x :=
  fun _ named => productive q next named x yielded

end Point

/-! ## Runs within the limit -/

/-- A run within the limit of steps is one to its end. -/
theorem Runs.ends (run : Runs program p x n) (allowed : ∀ r, Visits program p r →
      r.Fenced w.shared ∧ (w.strict → r.Productive program) ∧ w.leaves r) : Ends program w p (.ok (x, n)) := by
  induction run with
  | ret ended live returned => exact .ret ended returned
  | jump ended live jumped more ih =>
    exact .jump ended (allowed _ .here).2.2 jumped (ih fun r visits => allowed r (.jump ended live jumped visits))
  | @act p q k n x next plain live acted more ih =>
    obtain ⟨e, d, done, -, -⟩ := act_eq_ok.1 acted
    have yielded : p.yield? program = some e.result? := by
      unfold yield?
      rw [next, Option.bind_some]
      split
      next call => simp [call, Op.isCall] at plain
      · rw [done]
        rfl
    obtain ⟨fenced, productive, -⟩ := allowed _ .here
    exact .act next plain fenced done (fun asked => (productive asked).served next yielded True trivial) acted
      (ih fun r visits => allowed r (.act next plain live acted visits))
  | @call p q name xs args h frame y x k n d next call live evaluated found entered first back more
      inner outer =>
    have admitted : p.callee program name xs = .ok (h, frame) := callee_eq_ok.2 ⟨args, evaluated, found, entered⟩
    have bound := first.steps_lt
    have yielded : p.yield? program = some y := by
      unfold yield?
      rw [next, Option.bind_some]
      simp only [call, admitted]
      have enough : k.steps ≤ (p.into h frame).machine.steps + (stepLimit + 1) := by omega
      rw [result_eq_ok.1 (first.result enough)]
      rfl
    exact .call next call admitted
      (inner fun r visits => allowed r (.into next call live evaluated found entered visits))
      (fun asked => ((allowed _ .here).2.1 asked).served next yielded True trivial) back
      (outer fun r visits => allowed r (.past next call live evaluated found entered first back visits))

/-- What a program gives it comes to at an end. -/
theorem Module.ends_of_run {entry : Label} {args : List Value} {input : List Int32}
    {outcome : Outcome} (ran : program.run entry args input = .ok outcome)
    (allowed : ∀ p, program.Comes entry args input p →
      p.Fenced w.shared ∧ (w.strict → p.Productive program) ∧ w.leaves p) :
    ∃ m g frame x n, Machine.start program input = .ok m ∧ program.graph? entry = some g ∧
      Frame.enter g args = .ok frame ∧ n.steps ≤ stepLimit ∧ Ends program w (.start [] g m frame) (.ok (x, n)) ∧
      outcome = ⟨x, n.output⟩ := by
  obtain ⟨m, g, frame, x, n, started, found, entered, run, same⟩ := run_iff_runs.1 ran
  exact ⟨m, g, frame, x, n, started, found, entered, run.steps_lt.2,
    run.ends fun p visits => allowed p ⟨m, g, frame, started, found, entered, visits⟩, same⟩

namespace Ends

theorem steps_lt (ends : Ends program w p (.ok (x, n))) : p.machine.steps < n.steps := by
  generalize ended : (Except.ok (x, n) : Except Stop (Option Value × Machine)) = r at ends
  induction ends generalizing x n with
  | ret =>
    cases ended
    exact Nat.lt_succ_self _
  | jump _ _ _ _ ih => exact Nat.lt_of_succ_lt (ih ended)
  | act _ _ _ _ _ acted _ ih =>
    have same := act_steps acted
    have later := ih ended
    simp only [advance, tick_steps] at later same
    omega
  | call _ _ _ _ _ _ _ inner outer =>
    have first := inner rfl
    have later := outer ended
    simp only [Point.advance, Point.into, Point.start, deliver_steps, pop_steps, push_steps, tick_steps] at first later
    omega
  | lost | stuck | refused | broken | unserved => cases ended

/-- A run that ends within the limit of steps is one for the interpreter. -/
theorem runs (ends : Ends program w p (.ok (x, n))) (within : n.steps ≤ stepLimit) : Runs program p x n := by
  generalize ended : (Except.ok (x, n) : Except Stop (Option Value × Machine)) = r at ends
  induction ends generalizing x n with
  | ret next returned =>
    cases ended
    exact .ret next within returned
  | jump next _ jumped more ih =>
    have later := (ended ▸ more).steps_lt
    exact .jump next (Nat.le_of_lt (Nat.lt_of_lt_of_le later within)) jumped (ih within ended)
  | act next plain _ _ _ acted more ih =>
    have later := (ended ▸ more).steps_lt
    have same := act_steps acted
    simp only [advance] at later
    exact .act next plain (by unfold Point.Live; omega) acted (ih within ended)
  | call next call admitted first _ back more inner outer =>
    obtain ⟨args, evaluated, found, entered⟩ := callee_eq_ok.1 admitted
    have early := first.steps_lt
    have later := (ended ▸ more).steps_lt
    simp only [Point.advance, Point.into, Point.start, deliver_steps, pop_steps, push_steps] at early later
    exact .call next call (by unfold Point.Live; omega) evaluated found entered (inner (by omega) rfl) back
      (outer within ended)
  | lost | stuck | refused | broken | unserved => cases ended

end Ends

namespace Ends

/-- The interpreter comes to the end of a run, unless it is cut off before. -/
theorem result (ends : Ends program w p r) (fuel : Nat) :
    p.result program fuel = .error .outOfSteps ∨ p.result program fuel = r := by
  induction ends generalizing fuel with (refine cut_or (fun live fuel => ?_) fuel)
  | ret next returned =>
    rw [result_tail live next, returned]
    exact .inr rfl
  | jump next _ jumped more ih =>
    rw [result_tail live next, jumped]
    exact ih fuel
  | lost next failed =>
    rw [result_tail live next, failed]
    exact .inr rfl
  | act next plain fenced done served acted more ih =>
    rw [result_act live next plain, acted]
    exact ih fuel
  | stuck next plain fenced failed =>
    rw [result_act live next plain, failed]
    exact .inr rfl
  | call next call admitted first served back more inner outer =>
    rw [result_call live next call, admitted]
    dsimp only [bind, Except.bind]
    obtain cut | shown := inner fuel
    · rw [cut]
      exact .inl rfl
    · rw [shown]
      dsimp only
      rw [back]
      exact outer fuel
  | refused next call refused =>
    rw [result_call live next call, refused]
    exact .inr rfl
  | broken next call admitted first inner =>
    rw [result_call live next call, admitted]
    dsimp only [bind, Except.bind]
    exact (inner fuel).imp (fun cut => by rw [cut]) fun shown => by rw [shown]
  | unserved next call admitted first back inner =>
    rw [result_call live next call, admitted]
    dsimp only [bind, Except.bind]
    obtain cut | shown := inner fuel
    · rw [cut]
      exact .inl rfl
    · rw [shown]
      dsimp only
      rw [back]
      exact .inr rfl

end Ends

end Quadcode
