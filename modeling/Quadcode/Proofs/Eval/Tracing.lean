import Quadcode.Proofs.Eval.BigStep
import Quadcode.Proofs.Graph.Built

/-!
# Listing the points of a run

A run comes to finitely many points, and they can be listed by running it. So what is asked of every
point that a given run comes to can be decided, and what is asked of one of them can be looked for.
-/

namespace Quadcode

open List Machine Point

/-- The module of a function and what it calls, without globals and strings. -/
def Function.module (f : Function) (others : List Function) : Module :=
  ⟨[], .empty, f.graph :: others.map Function.graph⟩

/-- The points that the run from `p` comes to, for `fuel` steps. -/
def Point.trace (program : Module) : Nat → Point → List Point
  | 0, p => [p]
  | fuel + 1, p => p :: if p.machine.tick.steps > stepLimit then []
    else match p.quad? with
      | none =>
        match p.machine.tick.next p.graph p.tail with
        | .ok (.inl b) => trace program fuel (p.goto b)
        | _ => []
      | some q =>
        match q.op with
        | .call callee xs =>
          match p.machine.tick.args p.graph xs, program.graph? callee with
          | .ok args, some h =>
            match Frame.enter h args with
            | .error _ => []
            | .ok frame => trace program fuel (p.into h frame) ++ match (p.into h frame).exec program fuel with
              | (.error _, _) => []
              | (.ok y, k) =>
                match k.pop.destination p.graph q.result y with
                | .error _ => []
                | .ok d => trace program fuel (p.advance (k.pop.deliver d))
          | _, _ => []
        | _ =>
          match p.machine.tick.act program.strings p.graph q with
          | .ok k => trace program fuel (p.advance k)
          | .error _ => []

variable {program : Module} {p r : Point}

/-- A point from which there is a step left is not the last one that can be listed. -/
theorem Point.Live.fuel (live : p.Live) {fuel : Nat} (enough : stepLimit < p.machine.steps + fuel) :
    ∃ k, fuel = k + 1 := by
  refine Nat.exists_eq_succ_of_ne_zero ?_
  rintro rfl
  simp only [Point.Live, tick_steps] at live
  omega

theorem Visits.mem_trace (visits : Visits program p r) {fuel : Nat} (enough : stepLimit < p.machine.steps + fuel) :
    r ∈ p.trace program fuel := by
  induction visits generalizing fuel with
  | here => cases fuel <;> simp [trace]
  | @jump p r b ended live jumped _ ih =>
    obtain ⟨fuel, rfl⟩ := live.fuel enough
    rw [trace, if_neg (Nat.not_lt.2 live)]
    simp only [ended, jumped]
    refine mem_cons_of_mem p (ih ?_)
    simp only [goto, tick_steps]
    omega
  | @act p r q k next plain live acted _ ih =>
    obtain ⟨fuel, rfl⟩ := live.fuel enough
    have same := act_steps acted
    rw [trace, if_neg (Nat.not_lt.2 live)]
    refine mem_cons_of_mem p ?_
    simp only [next]
    split
    next callee xs call => simp [call, Op.isCall] at plain
    · simp only [acted]
      refine ih ?_
      simp only [advance, same, tick_steps]
      omega
  | @into p r q callee xs args h frame next call live evaluated found entered _ ih =>
    obtain ⟨fuel, rfl⟩ := live.fuel enough
    rw [trace, if_neg (Nat.not_lt.2 live)]
    refine mem_cons_of_mem p ?_
    simp only [next, call, evaluated, found, entered]
    refine mem_append_left _ (ih ?_)
    simp only [Point.into, Point.start, push_steps, tick_steps]
    omega
  | @past p r q callee xs args h frame y k d next call live evaluated found entered first back _ ih =>
    obtain ⟨fuel, rfl⟩ := live.fuel enough
    have taken := first.steps_lt
    simp only [Point.into, Point.start, push_steps, tick_steps] at taken
    have ran : (p.into h frame).exec program fuel = (.ok y, k) := by
      refine result_eq_ok.1 (first.result ?_)
      simp only [Point.into, Point.start, push_steps, tick_steps]
      omega
    rw [trace, if_neg (Nat.not_lt.2 live)]
    refine mem_cons_of_mem p ?_
    simp only [next, call, evaluated, found, entered, ran, back]
    refine mem_append_right _ (ih ?_)
    simp only [advance, deliver_steps, pop_steps]
    omega

/-- Every listed point is one that the run comes to. -/
theorem Visits.of_mem_trace {fuel : Nat} (listed : r ∈ p.trace program fuel) : Visits program p r := by
  induction fuel generalizing p with
  | zero =>
    rw [trace, mem_singleton] at listed
    exact listed ▸ .here
  | succ fuel ih =>
    rw [trace, mem_cons] at listed
    rcases listed with rfl | listed
    · exact .here
    · split at listed
      · cases listed
      next live =>
        have live : p.Live := Nat.le_of_not_lt live
        split at listed
        next ended =>
          split at listed
          next b jumped => exact .jump ended live jumped (ih listed)
          · cases listed
        next q next =>
          split at listed
          next callee xs call =>
            split at listed
            next args h evaluated found =>
              split at listed
              · cases listed
              next frame entered =>
                rcases mem_append.1 listed with inner | outer
                · exact .into next call live evaluated found entered (ih inner)
                · split at outer
                  · cases outer
                  next y k ran =>
                    split at outer
                    · cases outer
                    next d back =>
                      exact .past next call live evaluated found entered (.of_result (result_eq_ok.2 ran)) back
                        (ih outer)
            · cases listed
          next other =>
            have plain : q.op.isCall = false := by
              cases op : q.op with
              | call callee xs => exact absurd op (other callee xs)
              | _ => rfl
            split at listed
            next k acted => exact .act next plain live acted (ih listed)
            · cases listed

/-- The points that a run of a program comes to. -/
def Module.trace (program : Module) (entry : Label) (args : List Value) (input : List Int32) : List Point :=
  match Machine.start program input, program.graph? entry with
  | .ok m, some g =>
    match Frame.enter g args with
    | .ok frame => (start [] g m frame).trace program (stepLimit + 1)
    | .error _ => []
  | _, _ => []

section

variable {entry : Label} {args : List Value} {input : List Int32}

theorem Module.Comes.mem_trace (comes : program.Comes entry args input p) : p ∈ program.trace entry args input := by
  obtain ⟨m, g, frame, started, found, entered, visits⟩ := comes
  unfold Module.trace
  simp only [started, found, entered]
  exact visits.mem_trace (by omega)

theorem Module.Comes.of_mem_trace (listed : p ∈ program.trace entry args input) : program.Comes entry args input p := by
  unfold Module.trace at listed
  split at listed
  next m g started found =>
    split at listed
    next frame entered => exact ⟨m, g, frame, started, found, entered, .of_mem_trace listed⟩
    · cases listed
  · cases listed

end

end Quadcode
