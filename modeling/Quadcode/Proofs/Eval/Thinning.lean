import Quadcode.Proofs.Eval.Tracking

/-!
# Functions without what nobody needs

A function thins out another one if it has the same code but for quadruples that are gone, or that have lost
their result, where nobody reads what they compute. Its runs trail those of the other: they agree on what is
still read, and they take no more steps. Only runs that succeed are trailed, since a quadruple that is gone
cannot fail.
-/

namespace Quadcode

open Machine Point Quadcode.Module

variable {strings : StringPool} {below : Hidden} {d : Option (Place × Value)} {x : Option Value} {t : Thinning}
  {e : Effect} {n m : Machine} {args : List Value} {g g' : Graph} {frame : Frame} {program program' : Module}
  {p p' : Point} {q q' : Quad}

/-! ## Quadruples that are gone -/

namespace Machine

variable {op : Op} {p : Place} {i : Nat}

/-- To write what is there already changes nothing. -/
theorem put_self {x : Value} (here : m.slot? p i = some x) (p' : Place) : (m.put p i x).slots? p' = m.slots? p' := by
  rw [put_slots?]
  split
  next same =>
    subst same
    obtain ⟨slots, found, read⟩ := Option.bind_eq_some_iff.1 here
    obtain ⟨inside, rfl⟩ := Array.getElem?_eq_some_iff.1 read
    simp [found, Array.setIfInBounds, inside]
  · rfl

/-- An operation without an effect leaves the state alone. -/
theorem perform_of_pure (idle : op.hasEffect = false) (done : m.effect strings g op = .ok e) : m.perform e = m := by
  cases op with
  | nop =>
    cases done
    rfl
  | assign | address =>
    simp only [effect, bind_eq_ok, pure_eq_ok] at done
    obtain ⟨_, -, rfl⟩ := done
    rfl
  | unOp | deref =>
    simp only [effect, bind_eq_ok, pure_eq_ok] at done
    obtain ⟨_, -, _, -, rfl⟩ := done
    rfl
  | binOp | cmp | load =>
    simp only [effect, bind_eq_ok, pure_eq_ok] at done
    obtain ⟨_, -, _, -, _, -, rfl⟩ := done
    rfl
  | _ => cases idle

namespace Agrees

variable {shared : VarSet} {top top' : VarId → Prop} {r : Option VarId}

/-- The first state alone receives a value that is there already. -/
theorem put_self {y : Value} (agrees : m.Agrees below n) (here : m.slot? p i = some y) :
    (m.put p i y).Agrees below n where
  globals := agrees.globals.trans (Std.ExtTreeMap.ext_getElem? fun name => (m.put_self here (.global name)).symm)
  input := by cases p <;> exact agrees.input
  output := by cases p <;> exact agrees.output
  size := agrees.size.trans (put_frames_size ..).symm
  room := agrees.room.trans (put_room ..).symm
  seen frame v seen := (agrees.seen frame v seen).trans (Machine.put_self here _).symm

/-- The first state alone receives a value for a variable that is out of sight from then on. -/
theorem deliver_left (agrees : m.Agrees (below.above m.frames.size top) n) (delivered : m.destination g r x = .ok d)
    (some_frame : 0 < m.frames.size) (more : ∀ v, top v → top' v) (covers : ∀ v, top' v → g.Private shared v)
    (lost : ∀ v ∈ r, v < g.vars.size → top' v) : (m.deliver d).Agrees (below.above m.frames.size top') n := by
  have agrees := agrees.above_mono more
  rcases r with - | v
  · cases delivered
    exact agrees
  · rcases x with - | x
    · cases delivered
      exact agrees
    · obtain ⟨p, placed, -, rfl⟩ := destination_eq_ok.1 delivered
      obtain ⟨y, declared, -⟩ := place_eq_ok.1 placed
      have hides := lost v rfl (Array.getElem?_eq_some_iff.1 declared).1
      cases (place_of_private (covers v hides)).symm.trans placed
      refine agrees.put_left ?_ 0 x
      rwa [Hidden.above, if_pos (Nat.sub_add_cancel some_frame)]

end Agrees

end Machine

/-! ## Thinning out -/

/-- What is left of quadruples, of which the first is at a place of its block. -/
def thinned (keep : Nat → Quad → Option Quad) : Nat → List Quad → List Quad
  | _, [] => []
  | i, q :: rest => (keep i q).toList ++ thinned keep (i + 1) rest

theorem thinned_some (i : Nat) (body : List Quad) : thinned (fun _ => some) i body = body := by
  induction body generalizing i with
  | nil => rfl
  | cons q rest ih => exact congrArg (q :: ·) (ih (i + 1))

/-- How one function thins out another. -/
structure Thinning where
  /-- The blocks that control comes to. -/
  among : BlockId → Prop
  /-- The variables that the second run may have different values for. -/
  hidden : Spot → VarId → Prop
  /-- What becomes of a quadruple. -/
  keep : Spot → Quad → Option Quad

namespace Thinning

variable (t : Thinning)

/-- What may become of a quadruple at a spot. -/
inductive Fits (g : Graph) (s : Spot) (q : Quad) : Option Quad → Prop
  | kept : (∀ v ∈ q.uses, ¬t.hidden s v) → (∀ v, t.hidden s v → t.hidden s.next v ∨ q.result = some v) →
      Fits g s q (some q)
  | unbound : (∀ v ∈ q.uses, ¬t.hidden s v) → (∀ v, t.hidden s v → t.hidden s.next v) →
      (∀ r ∈ q.result, r < g.vars.size → t.hidden s.next r) → Fits g s q (some ⟨none, q.op⟩)
  | unread : q.op.hasEffect = false → (∀ v, t.hidden s v → t.hidden s.next v) →
      (∀ r ∈ q.result, r < g.vars.size → t.hidden s.next r) → Fits g s q none
  | nop : q.op = .nop → (q.result = none → ∀ v, t.hidden s v → t.hidden s.next v) → Fits g s q none
  | self {r : VarId} : q = ⟨some r, .assign (.var r)⟩ → (∀ v, t.hidden s v → t.hidden s.next v) → Fits g s q none

/-- The second function thins out the first. -/
structure Sound (g g' : Graph) : Prop where
  alike : g.Alike g'
  entry : g'.entry = g.entry
  covers : ∀ s v, t.hidden s v → g.Private ∅ v
  start : t.among g.entry
  closed : ∀ b, t.among b → ∀ c ∈ g.targets b, t.among c
  body : ∀ b, t.among b → g'.body b = thinned (fun i => t.keep ⟨b, i⟩) 0 (g.body b)
  tail : ∀ b, t.among b → g'.tail b = g.tail b
  quad : ∀ (s : Spot) (q : Quad), t.among s.block → (g.body s.block)[s.index]? = some q → t.Fits g s q (t.keep s q)
  seen : ∀ s : Spot, t.among s.block → (g.body s.block)[s.index]? = none → ∀ v ∈ (g.tail s.block).uses, ¬t.hidden s v
  edge : ∀ s : Spot, t.among s.block → (g.body s.block)[s.index]? = none →
    ∀ c ∈ g.targets s.block, ∀ v, t.hidden s v → t.hidden ⟨c, 0⟩ v

/-- Nothing is taken away. -/
def whole : Thinning := ⟨fun _ => True, fun _ _ => False, fun _ => some⟩

theorem whole_sound (g : Graph) : whole.Sound g g where
  alike := .refl g
  entry := rfl
  covers _ _ := False.elim
  start := trivial
  closed _ _ _ _ := trivial
  body b _ := (thinned_some 0 (g.body b)).symm
  tail _ _ := rfl
  quad _ _ _ _ := .kept (fun _ _ => id) fun _ => False.elim
  seen _ _ _ _ _ := id
  edge _ _ _ _ _ _ := id

variable {t} {s : Spot}

namespace Fits

/-- A quadruple that stays does what it did, and reads only what is in sight. -/
theorem op_eq (fits : t.Fits g s q (some q')) : q'.op = q.op ∧ ∀ v ∈ q.uses, ¬t.hidden s v := by
  cases fits with
  | kept seen | unbound seen => exact ⟨rfl, seen⟩

/-- Only a quadruple without an effect is ever gone. -/
theorem pure_of_gone (fits : t.Fits g s q none) : q.op.hasEffect = false := by
  cases fits with
  | unread idle => exact idle
  | nop idle => exact idle ▸ rfl
  | self same => exact same ▸ rfl

/-- The states agree after a quadruple that stays has delivered its value. -/
theorem deliver (fits : t.Fits g s q (some q')) (covers : ∀ s v, t.hidden s v → g.Private ∅ v)
    (agrees : m.Agrees (below.above m.frames.size (t.hidden s)) n) (shaped : m.Shaped g)
    (some_frame : 0 < m.frames.size) (served : q.Served True x) (delivered : m.destination g q.result x = .ok d) :
    ∃ d', n.destination g q'.result x = .ok d' ∧
      (m.deliver d).Agrees (below.above m.frames.size (t.hidden s.next)) (n.deliver d') := by
  cases fits with
  | kept _ shown =>
    refine ⟨d, (agrees.destination _ _).trans delivered, ?_⟩
    refine agrees.deliver_result delivered shaped some_frame (covers s) fun v out => ?_
    exact (shown v out).imp_right fun result => ⟨result, served trivial (result ▸ rfl)⟩
  | unbound _ more lost =>
    exact ⟨none, rfl, agrees.deliver_left delivered some_frame more (covers s.next) lost⟩

/-- The states agree after the first has passed a quadruple that is gone. -/
theorem gone (fits : t.Fits g s q none) (covers : ∀ s v, t.hidden s v → g.Private ∅ v)
    (agrees : m.Agrees (below.above m.frames.size (t.hidden s)) n) (some_frame : 0 < m.frames.size)
    (done : m.effect strings g q.op = .ok e) (served : q.Served True e.result?)
    (delivered : (m.perform e).destination g q.result e.result? = .ok d) :
    ((m.perform e).deliver d).Agrees (below.above m.frames.size (t.hidden s.next)) n := by
  cases fits with
  | unread idle more lost =>
    rw [perform_of_pure idle done] at delivered ⊢
    exact agrees.deliver_left delivered some_frame more (covers s.next) lost
  | nop idle more =>
    rw [idle] at done
    cases done
    -- With a result it would have been asked for a value that it does not have.
    have result : q.result = none := by
      by_contra named
      cases served trivial (Option.isSome_iff_ne_none.2 named)
    rw [result] at delivered
    cases delivered
    exact agrees.above_mono (more result)
  | @self r same more =>
    subst same
    simp only [Machine.effect, Machine.arg, bind_eq_ok, pure_eq_ok] at done
    obtain ⟨y, read, rfl⟩ := done
    obtain ⟨p, placed, here⟩ := varValue_eq_ok.1 read
    obtain ⟨p', placed', -, rfl⟩ := destination_eq_ok.1 delivered
    cases placed.symm.trans placed'
    exact (agrees.put_self here).above_mono more

end Fits

end Thinning

/-! ## Runs -/

/-- What lies ahead says what comes next. -/
theorem Point.of_rest_eq_cons {ahead : List Quad} (rest : p.rest = q :: ahead) :
    p.quad? = some q ∧ ∀ m, (p.advance m).rest = ahead := by
  have next : p.quad? = some q := by
    have first : p.rest[0]? = some q := by rw [rest, List.getElem?_cons_zero]
    rwa [Point.rest, List.getElem?_drop] at first
  exact ⟨next, fun m => (List.cons.inj ((rest_eq_cons next m).symm.trans rest)).2⟩

/-- The second run trails the first. -/
structure Trails (t : Thinning) (below : Hidden) (p p' : Point) : Prop where
  sound : t.Sound p.graph p'.graph
  covered : below.Covered ∅ p.callers
  framed : p.Framed
  among : t.among p.block
  block : p'.block = p.block
  rest : p'.rest = thinned (fun i => t.keep ⟨p.block, i⟩) p.index p.rest
  agrees : p.machine.Agrees (below.above p.machine.frames.size (t.hidden p.spot)) p'.machine
  shaped : p.machine.Shaped p.graph
  pace : p'.machine.steps ≤ p.machine.steps

/-- Every function of the first program is thinned out in the second. -/
structure Module.Thinned (program program' : Module) : Prop where
  strings : program'.strings = program.strings
  graphs : ∀ name, Option.Rel (fun g g' => ∃ t : Thinning, t.Sound g g') (program.graph? name) (program'.graph? name)

/-- A run of the second function trails one of the first from its start. -/
theorem Thinning.Sound.trails {callers callers' : List Graph} (sound : t.Sound g g')
    (entered : Frame.enter g args = .ok frame) (covered : below.Covered ∅ callers)
    (framed : (Point.start callers g m frame).Framed) (agrees : m.Agrees below n) (pace : n.steps ≤ m.steps) :
    Trails t below (.start callers g m frame) (.start callers' g' n frame) where
  sound := sound
  covered := covered
  framed := framed
  among := sound.start
  block := sound.entry
  rest := by
    change (g'.body g'.entry).drop 0 = _
    rw [sound.entry]
    exact sound.body _ sound.start
  agrees := agrees.push_above frame _
  shaped := Frame.enter_shaped _ entered
  pace := pace

namespace Trails

section

variable (trails : Trails t below p p')
include trails

theorem some_frame : 0 < p.machine.frames.size := by
  rw [trails.framed]
  exact Nat.succ_pos _

theorem live (later : p.machine.steps < n.steps) (within : n.steps ≤ stepLimit) : p'.Live :=
  ((Nat.succ_le_succ trails.pace).trans later).trans within

theorem agrees_tick : p.machine.tick.Agrees (below.above p.machine.frames.size (t.hidden p.spot)) p'.machine.tick :=
  trails.agrees.tick_left.tick_right

theorem sees {v : VarId} (seen : ¬t.hidden p.spot v) :
    p.machine.tick.Sees (below.above p.machine.frames.size (t.hidden p.spot)) v :=
  sees_above (m := p.machine.tick) trails.some_frame seen

/-- Where the first run is at the end of a block, so is the second. -/
theorem ended (ended : p.quad? = none) : p'.quad? = none ∧
    p'.machine.tick.next p'.graph p'.tail = p.machine.tick.next p.graph p.tail := by
  refine ⟨?_, ?_⟩
  · have rest := trails.rest
    rw [rest_eq_nil.2 ended] at rest
    exact rest_eq_nil.1 rest
  · rw [trails.sound.alike.akin.next, tail, trails.block, trails.sound.tail _ trails.among]
    exact trails.agrees_tick.next fun v named =>
      trails.sees (trails.sound.seen p.spot trails.among ended v named)

theorem goto {b : BlockId} (ended : p.quad? = none) (jumped : p.machine.tick.next p.graph p.tail = .ok (.inl b)) :
    Trails t below (p.goto b) (p'.goto b) where
  sound := trails.sound
  covered := trails.covered
  framed := trails.framed.goto b
  among := trails.sound.closed _ trails.among b (next_target jumped)
  block := rfl
  rest := trails.sound.body b (trails.sound.closed _ trails.among b (next_target jumped))
  agrees := trails.agrees_tick.above_mono (trails.sound.edge p.spot trails.among ended b (next_target jumped))
  shaped := trails.shaped
  pace := Nat.succ_le_succ trails.pace

/-- A quadruple that stays is next in the second run as well. -/
theorem stays (next : p.quad? = some q) (kept : t.keep p.spot q = some q') : p'.quad? = some q' ∧
    ∀ m n, (p'.advance n).rest = thinned (fun i => t.keep ⟨p.block, i⟩) (p.index + 1) (p.advance m).rest := by
  have rest := trails.rest
  rw [rest_eq_cons next p.machine, thinned, show t.keep ⟨p.block, p.index⟩ q = some q' from kept] at rest
  obtain ⟨next', ahead⟩ := of_rest_eq_cons rest
  exact ⟨next', fun m n => ahead n⟩

/-- The second run has nothing to do for a quadruple that is gone. -/
theorem waits (next : p.quad? = some q) (gone : t.keep p.spot q = none) (m : Machine) :
    p'.rest = thinned (fun i => t.keep ⟨p.block, i⟩) (p.index + 1) (p.advance m).rest := by
  rw [trails.rest, rest_eq_cons next m, thinned, show t.keep ⟨p.block, p.index⟩ q = none from gone]
  rfl

/-- A quadruple that stays does the same in both runs. -/
theorem effect (next : p.quad? = some q) (kept : t.keep p.spot q = some q') (fenced : p.Fenced ∅) :
    p'.machine.tick.effect strings p'.graph q'.op = p.machine.tick.effect strings p.graph q.op := by
  obtain ⟨op, seen⟩ := (kept ▸ trails.sound.quad p.spot q trails.among next).op_eq
  rw [trails.sound.alike.akin.effect, op]
  refine trails.agrees_tick.effect (fun v named => trails.sees (seen v named)) fun slot reached => ?_
  exact (fenced q next slot reached).seen trails.covered trails.framed (trails.sound.covers p.spot)

/-- Both runs pass a quadruple that stays. -/
theorem advance (next : p.quad? = some q) (kept : t.keep p.spot q = some q')
    (agrees : m.Agrees (below.above p.machine.frames.size (t.hidden p.spot)) n)
    (size : m.frames.size = p.machine.frames.size) (room : m.room = p.machine.room) (pace : n.steps ≤ m.steps)
    (served : q.Served True x) (delivered : m.destination p.graph q.result x = .ok d) :
    ∃ d', n.destination p'.graph q'.result x = .ok d' ∧
      Trails t below (p.advance (m.deliver d)) (p'.advance (n.deliver d')) := by
  have fits := kept ▸ trails.sound.quad p.spot q trails.among next
  rw [← size] at agrees
  obtain ⟨d', delivered', agrees⟩ := fits.deliver trails.sound.covers agrees
    (trails.shaped.of_room size room) (size ▸ trails.some_frame) served delivered
  refine ⟨d', (trails.sound.alike.akin.destination _ _ _).trans delivered', {
    sound := trails.sound
    covered := trails.covered
    framed := trails.framed.advance (by simp [size])
    among := trails.among
    block := trails.block
    rest := (trails.stays next kept).2 _ _
    agrees := by
      simp only [Point.advance, deliver_frames_size]
      exact agrees
    shaped := trails.shaped.of_room (by simp [Point.advance, size]) (by simp [Point.advance, room])
    pace := by simpa [Point.advance] using pace }⟩

/-- The first run passes a quadruple that is gone. -/
theorem wait (next : p.quad? = some q) (gone : t.keep p.spot q = none)
    (done : p.machine.tick.effect strings p.graph q.op = .ok e) (served : q.Served True e.result?)
    (acted : p.machine.tick.act strings p.graph q = .ok m) :
    Trails t below (p.advance m) p' := by
  have fits := gone ▸ trails.sound.quad p.spot q trails.among next
  obtain ⟨_, d, done', delivered, rfl⟩ := act_eq_ok.1 acted
  cases done.symm.trans done'
  exact {
    sound := trails.sound
    covered := trails.covered
    framed := trails.framed.advance (by simp)
    among := trails.among
    block := trails.block
    rest := trails.waits next gone _
    agrees := by
      simp only [Point.advance, deliver_frames_size, perform_frames_size]
      exact fits.gone (m := p.machine.tick) trails.sound.covers trails.agrees.tick_left trails.some_frame done
        served delivered
    shaped := trails.shaped.of_room (by simp [Point.advance]) (by simp [Point.advance])
    pace := by simpa [Point.advance] using Nat.le_succ_of_le trails.pace }

/-- The second run calls the function that thins out the callee, with the same arguments. -/
theorem enters (thin : program.Thinned program') {name : Label} {xs : List Arg} {h : Graph} (next : p.quad? = some q)
    (kept : t.keep p.spot q = some q') (call : q.op = .call name xs)
    (admitted : p.callee program name xs = .ok (h, frame)) :
    ∃ h' t', p'.callee program' name xs = .ok (h', frame) ∧
      Trails t' (below.above p.machine.frames.size (t.hidden p.spot)) (p.into h frame) (p'.into h' frame) := by
  obtain ⟨args, evaluated, found, entered⟩ := callee_eq_ok.1 admitted
  obtain ⟨-, seen⟩ := (kept ▸ trails.sound.quad p.spot q trails.among next).op_eq
  have evaluated' : p'.machine.tick.args p'.graph xs = .ok args := by
    rw [trails.sound.alike.akin.args, ← evaluated]
    refine trails.agrees_tick.args fun v named => trails.sees (seen v ?_)
    rw [Quad.uses, call]
    exact List.mem_append_left _ named
  obtain ⟨h', found', t', sound⟩ := graph?_paired (thin.graphs name) found
  refine ⟨h', t', callee_eq_ok.2 ⟨args, evaluated', found', (sound.alike.enter args).trans entered⟩, ?_⟩
  exact sound.trails entered (trails.framed.covered_into trails.covered (trails.sound.covers p.spot))
    (trails.framed.into h frame) trails.agrees_tick (Nat.succ_le_succ trails.pace)

end

end Trails

/-- A run that succeeds is trailed to its end. -/
theorem Ends.trailed {w : Watch} (thin : program.Thinned program') (unshared : w.shared = ∅) (strict : w.strict)
    (ends : Ends program w p (.ok (x, n))) (within : n.steps ≤ stepLimit) (trails : Trails t below p p') :
    ∃ n' top, Runs program' p' x n' ∧ n.Agrees (below.above p.machine.frames.size top) n' ∧ n'.steps ≤ n.steps := by
  -- The first run leads: the second stands still where a quadruple is gone, and else takes the same step.
  generalize ended : (Except.ok (x, n) : Except Stop (Option Value × Machine)) = r at ends
  induction ends generalizing p' t below x n with
  | @ret p y next returned =>
    cases ended
    obtain ⟨next', same⟩ := trails.ended next
    have pace := Nat.succ_le_succ trails.pace
    exact ⟨_, _, .ret next' (pace.trans within) (same.trans returned), trails.agrees_tick, pace⟩
  | @jump p b r next left jumped more ih =>
    obtain ⟨next', same⟩ := trails.ended next
    have later := (ended ▸ more).steps_lt
    obtain ⟨n', top, runs, agrees, pace⟩ := ih within (trails.goto next jumped) ended
    have live := trails.live (Nat.lt_of_succ_lt later) within
    exact ⟨n', top, .jump next' live (same.trans jumped) runs, agrees, pace⟩
  | @act p q e m r next plain fenced done served acted more ih =>
    have later := (ended ▸ more).steps_lt
    have same := act_steps acted
    simp only [advance, tick_steps] at later same
    have size := act_frames_size acted
    have served : q.Served True e.result? := fun _ => served strict
    cases kept : t.keep p.spot q with
    | none =>
      obtain ⟨n', top, runs, agrees, pace⟩ := ih within (trails.wait next kept done served acted) ended
      exact ⟨n', top, runs, by simpa [advance, size] using agrees, pace⟩
    | some q' =>
      obtain ⟨next', -⟩ := trails.stays next kept
      obtain ⟨op, -⟩ := (kept ▸ trails.sound.quad p.spot q trails.among next).op_eq
      have done' := (trails.effect next kept (unshared ▸ fenced)).trans done
      obtain ⟨_, d, done'', delivered, rfl⟩ := act_eq_ok.1 acted
      cases done.symm.trans done''
      obtain ⟨d', delivered', trails'⟩ := trails.advance next kept (trails.agrees_tick.perform e) (by simp)
        (by simp) (by simpa using trails.pace) served delivered
      have acted' : p'.machine.tick.act program'.strings p'.graph q' = .ok ((p'.machine.tick.perform e).deliver d') :=
        act_eq_ok.2 ⟨e, d', thin.strings ▸ done', delivered', rfl⟩
      obtain ⟨n', top, runs, agrees, pace⟩ := ih within trails' ended
      have live := trails.live (by omega) within
      exact ⟨n', top, .act next' (op ▸ plain) live acted' runs, by simpa [advance] using agrees, pace⟩
  | @call p q name xs h frame y k d r next call admitted first served back more inner outer =>
    have early := first.steps_lt
    have later := (ended ▸ more).steps_lt
    simp only [Point.advance, Point.into, Point.start, deliver_steps, pop_steps, push_steps, tick_steps] at early later
    cases kept : t.keep p.spot q with
    | none =>
      have idle := (kept ▸ trails.sound.quad p.spot q trails.among next).pure_of_gone
      rw [call] at idle
      cases idle
    | some q' =>
      obtain ⟨next', -⟩ := trails.stays next kept
      obtain ⟨op, -⟩ := (kept ▸ trails.sound.quad p.spot q trails.among next).op_eq
      obtain ⟨h', t', admitted', inside⟩ := trails.enters thin next kept call admitted
      obtain ⟨k', top, runs, agrees, pace⟩ := inner (by omega) inside rfl
      have left := first.spares (trails.framed.into h frame)
      have spared := left.pop trails.framed
      rw [p.into_frames_size h frame] at agrees
      have agrees := agrees.pop_above (left.size.trans (p.into_frames_size h frame))
      obtain ⟨d', back', trails'⟩ := trails.advance next kept agrees spared.size spared.room pace
        (fun _ => served strict) back
      obtain ⟨n', top', runs', agrees', pace'⟩ := outer within trails' ended
      obtain ⟨args, evaluated, found, entered⟩ := callee_eq_ok.1 admitted'
      have live := trails.live (by omega) within
      exact ⟨n', top', .call next' (op.trans call) live evaluated found entered runs back' runs',
        by simpa [Point.advance, spared.size] using agrees', pace'⟩
  | lost | stuck | refused | broken | unserved => cases ended

/-- A program gives the same outcome after one of its functions has been thinned out. -/
theorem Thinning.Sound.run {before after : List Graph} (sound : t.Sound g g')
    (listed : program.graphs = before ++ g :: after) {entry : Label} {input : List Int32} {outcome : Outcome}
    (ran : program.run entry args input = .ok outcome)
    (productive : ∀ p, program.Comes entry args input p → p.Productive program)
    (confined : ∀ p, program.Comes entry args input p → p.Confined) :
    Module.run { program with graphs := before ++ g' :: after } entry args input = .ok outcome := by
  have thin : program.Thinned { program with graphs := before ++ g' :: after } :=
    ⟨rfl, graph?_rel listed sound.alike.name (fun h => ⟨_, whole_sound h⟩) ⟨t, sound⟩⟩
  obtain ⟨m, h, frame, x, n, started, found, entered, within, ends, rfl⟩ :=
    ends_of_run (w := ⟨∅, True, fun _ => True⟩) ran
      fun p comes => ⟨(confined p comes).fenced ∅, fun _ => productive p comes, trivial⟩
  obtain ⟨h', found', t', sound'⟩ := graph?_paired (thin.graphs entry) found
  have trails : Trails t' (fun _ _ => False) (.start [] h m frame) (.start [] h' m frame) :=
    sound'.trails entered (fun _ _ _ => False.elim) (framed_start started h frame) (.refl _ m) le_rfl
  obtain ⟨n', top, run', agrees, -⟩ := ends.trailed thin rfl trivial within trails
  exact run_iff_runs.2 ⟨m, h', frame, x, n', started, found', (sound'.alike.enter args).trans entered,
    run', by rw [agrees.output]⟩

end Quadcode
