import Quadcode.Eval.Machine

/-!
# Running functions

Every quadruple and every tail costs a step, and a run ends with an error when it needs more than
`stepLimit` of them. `exec` descends by one for each step it takes, so its first argument never runs
out before the steps do.
-/

namespace Quadcode

def stepLimit : Nat := 1000000

/-- A value or no value, or the reason of an early end; and the state left behind either way. -/
abbrev Ended := Except Stop (Option Value) × Machine

namespace Machine

def tick (m : Machine) : Machine := { m with steps := m.steps + 1 }

def push (m : Machine) (f : Frame) : Machine := { m with frames := m.frames.push f }

def pop (m : Machine) : Machine := { m with frames := m.frames.pop }

/-- Runs the function of a name in a frame of its own, which is gone afterwards. -/
@[specialize] def enter (run : Graph → Machine → Ended) (program : Module) (name : Label)
    (args : List Value) (m : Machine) : Ended :=
  match program.graph? name with
  | none => (.error (.error (.unknownFunction name)), m)
  | some g =>
    match Frame.enter g args with
    | .error e => (.error e, m)
    | .ok frame =>
      let (r, m) := run g (m.push frame)
      (r, m.pop)

/-- Where a tail leads: to a block, or out of the function. -/
def next (m : Machine) (g : Graph) : Tail → Except Stop (BlockId ⊕ Option Value)
  | .jump b | .fall b => .ok (.inl b)
  | .branch c x y t f => do
    let x ← m.arg g x
    let y ← m.arg g y
    pure (.inl (if ← c.apply g x y then t else f))
  | .ret (some x) => do pure (.inr (some (← m.arg g x)))
  | .ret none => .ok (.inr none)

/-- Runs the rest of a block and what follows it. -/
def exec (program : Module) : (fuel : Nat) → Graph → List Quad → Tail → Machine → Ended
  | 0, _, _, _, m => (.error (.error (.stepLimit stepLimit)), m)
  | fuel + 1, g, [], tail, m =>
    let m := m.tick
    if m.steps > stepLimit then (.error (.error (.stepLimit stepLimit)), m)
    else
      match m.next g tail with
      | .error e => (.error e, m)
      | .ok (.inr x) => (.ok x, m)
      | .ok (.inl b) => exec program fuel g (g.body b) (g.tail b) m
  | fuel + 1, g, q :: rest, tail, m =>
    let m := m.tick
    if m.steps > stepLimit then (.error (.error (.stepLimit stepLimit)), m)
    else
      match q.op with
      | .call callee xs =>
        match m.args g xs with
        | .error e => (.error e, m)
        | .ok args =>
          match m.enter (fun g m => exec program fuel g (g.body g.entry) (g.tail g.entry) m)
              program callee args with
          | (.error e, m) => (.error e, m)
          | (.ok x, m) =>
            match m.destination g q.result x with
            | .error e => (.error e, m)
            | .ok d => exec program fuel g rest tail (m.deliver d)
      | op =>
        match m.effect program.strings g op with
        | .error e => (.error e, m)
        | .ok e =>
          let m := m.perform e
          match m.destination g q.result e.result? with
          | .error e => (.error e, m)
          | .ok d => exec program fuel g rest tail (m.deliver d)

/-- Calls a function from outside. -/
def call (m : Machine) (program : Module) (name : Label) (args : List Value) : Ended :=
  m.enter (fun g m => exec program (stepLimit + 1) g (g.body g.entry) (g.tail g.entry) m)
    program name args

end Machine

/-- What a run of a whole program gives. -/
structure Outcome where
  value : Option Value
  output : String
  deriving DecidableEq, Repr

/-- Runs a function of a module with fresh globals. -/
def Module.run (program : Module) (entry : Label) (args : List Value) (input : List Int32) :
    Except Stop Outcome := do
  let m ← Machine.start program input
  match m.call program entry args with
  | (.ok value, m) => .ok ⟨value, m.output⟩
  | (.error e, _) => .error e

/-- Runs a function in a module of its own. -/
def Graph.run (g : Graph) (args : List Value) : Except Stop Outcome :=
  Module.run ⟨[], .empty, [g]⟩ g.name args []

end Quadcode
