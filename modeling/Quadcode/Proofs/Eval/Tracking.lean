import Quadcode.Proofs.Eval.Privacy
import Quadcode.Proofs.Flow.LivePaths

/-!
# Keeping track of another run

A function keeps track of another one if its runs can follow those of the other, quadruple by quadruple, in a
state that agrees with the other's but for hidden private variables. It may go ahead on its own between
blocks, and skip quadruples. If every function of a program has one that keeps track of it, runs end alike,
but for errors that only the follower meets on its own way.
-/

namespace Quadcode

open List Machine Point

variable {g : Graph} {p : Point} {s : Spot}

def Point.spot (p : Point) : Spot := ⟨p.block, p.index⟩

theorem Point.quad?_at (graph : p.graph = g) (spot : p.spot = s) : p.quad? = (g.body s.block)[s.index]? := by
  subst graph spot
  rfl

theorem Point.tail_at (graph : p.graph = g) (spot : p.spot = s) : p.tail = g.tail s.block := by
  subst graph spot
  rfl

def Spot.next (s : Spot) : Spot := ⟨s.block, s.index + 1⟩

/-- Hides variables of the frame on top, of `size` frames, and others below it. -/
def Hidden.above (below : Hidden) (size : Nat) (top : VarId → Prop) : Hidden :=
  fun frame v => if frame + 1 = size then top v else below frame v

/-- A call adds a frame. -/
theorem Point.into_frames_size (p : Point) (h : Graph) (frame : Frame) :
    (p.into h frame).machine.frames.size = p.machine.frames.size + 1 := by
  simp [into, start, Machine.push]

variable {h : Graph} {place : Place} {below : Hidden} {top : VarId → Prop} {shared : VarSet} {e : Stop}
  {program : Module}

theorem Graph.Alike.reached? (alike : g.Alike h) (m : Machine) (op : Op) : m.reached? h op = m.reached? g op := by
  cases op <;> simp only [Machine.reached?, alike.vars, alike.akin.index, alike.akin.element, alike.akin.pointee]

/-! ## Hiding what is private -/

/-- Of the suspended activations, only private variables are hidden. -/
def Hidden.Covered (shared : VarSet) (below : Hidden) (callers : List Graph) : Prop :=
  ∀ frame v, frame < callers.length → below frame v → ∃ h, callers[frame]? = some h ∧ h.Private shared v

namespace Point

/-- Exposed places are in sight. -/
theorem Exposed.seen (exposed : p.Exposed shared place) (covered : below.Covered shared p.callers) (framed : p.Framed)
    (covers : ∀ v, top v → p.graph.Private shared v) : place.Seen (below.above p.machine.frames.size top) := by
  cases place with
  | global => trivial
  | «local» frame v =>
    obtain ⟨h, owner, reason⟩ := exposed
    intro out
    unfold Hidden.above at out
    split at out
    next same =>
      obtain rfl : frame = p.callers.length := by
        rw [framed] at same
        omega
      obtain rfl : p.graph = h := by simpa using owner
      exact reason.elim (covers v out).untaken (covers v out).unshared
    next other =>
      have inside : frame < p.callers.length := by
        have := (List.getElem?_eq_some_iff.1 owner).1
        rw [framed] at other
        simp only [length_append, length_cons, length_nil] at this
        omega
      obtain ⟨h', owner', hides⟩ := covered frame v inside out
      rw [getElem?_append_left inside] at owner
      cases owner.symm.trans owner'
      exact reason.elim hides.untaken hides.unshared

/-- The suspended activations while a callee runs. -/
theorem Framed.covered_into (framed : p.Framed) (covered : below.Covered shared p.callers)
    (covers : ∀ v, top v → p.graph.Private shared v) :
    (below.above p.machine.frames.size top).Covered shared (p.callers ++ [p.graph]) := by
  intro frame v inside out
  unfold Framed at framed
  simp only [length_append, length_cons, length_nil] at inside
  unfold Hidden.above at out
  split at out
  next last =>
    obtain rfl : frame = p.callers.length := by omega
    exact ⟨p.graph, by simp, covers v out⟩
  next lower =>
    have inside : frame < p.callers.length := by omega
    obtain ⟨h, owner, hides⟩ := covered frame v inside out
    exact ⟨h, by rw [getElem?_append_left inside, owner], hides⟩

end Point

/-! ## Going ahead -/

/-- Goes on in the same activation by jumps and by quadruples that only compute a value. -/
inductive Point.Glides (strings : StringPool) : Point → Point → Prop
  | here {p : Point} : Glides strings p p
  | jump {p r : Point} {b : BlockId} : p.quad? = none → p.machine.tick.next p.graph p.tail = .ok (.inl b) →
      Glides strings (p.goto b) r → Glides strings p r
  | act {p r : Point} {q : Quad} {x : Value} {k : Machine} : p.quad? = some q → q.op.isCall = false →
      q.op.base? = none → p.machine.tick.effect strings p.graph q.op = .ok (.value x) →
      p.machine.tick.act strings p.graph q = .ok k → Glides strings (p.advance k) r → Glides strings p r

/-- Cannot go on, for a reason that lies in the tail or in a quadruple that only computes a value. -/
inductive Point.Fails (strings : StringPool) (p : Point) (e : Stop) : Prop
  | tail (next : p.quad? = none) (failed : p.machine.tick.next p.graph p.tail = .error e)
  | quad {q : Quad} (next : p.quad? = some q) (plain : q.op.isCall = false) (direct : q.op.base? = none)
    (failed : p.machine.tick.act strings p.graph q = .error e)

/-- Nothing is asked where control goes from block to block. -/
def Watch.lax (w : Watch) : Watch := { w with leaves := fun _ => True }

section Gliding

variable {w : Watch} {r : Point} {strings : StringPool}

theorem Point.Glides.graph (glides : p.Glides strings r) : r.graph = p.graph ∧ r.callers = p.callers := by
  induction glides with
  | here => exact ⟨rfl, rfl⟩
  | jump _ _ _ ih => exact ih
  | act _ _ _ _ _ _ ih => exact ih

theorem Point.Glides.trans {s : Point} (first : p.Glides strings r) (second : r.Glides strings s) :
    p.Glides strings s := by
  induction first with
  | here => exact second
  | jump next jumped _ ih => exact .jump next jumped (ih second)
  | act next plain direct done acted _ ih => exact .act next plain direct done acted (ih second)

theorem Point.Glides.ends (glides : p.Glides program.strings r) {ending : Except Stop (Option Value × Machine)}
    (ends : Ends program w.lax r ending) : Ends program w.lax p ending := by
  induction glides with
  | here => exact ends
  | jump next jumped _ ih => exact .jump next trivial jumped (ih ends)
  | act next plain direct done acted _ ih =>
    exact .act next plain (fenced_of_base next direct) done (fun _ _ => rfl) acted (ih ends)

theorem Point.Fails.ends (fails : p.Fails program.strings e) : Ends program w.lax p (.error e) := by
  cases fails with
  | tail next failed => exact .lost next failed
  | quad next plain direct failed =>
    exact .stuck next plain (fenced_of_base next direct) failed

end Gliding

/-! ## Tracks -/

/-- What two runs are held to. -/
structure Terms where
  strings : StringPool
  /-- What is asked of the first run. -/
  watch : Watch
  /-- The errors that the second run may end with on its own. -/
  soft : Stop → Prop
  /-- Whether the second run may take more steps. -/
  free : Prop

/-- What a quadruple that is no call has for its result. -/
def Machine.Yields (strings : StringPool) (m : Machine) (g : Graph) (q : Quad) (x : Option Value) : Prop :=
  q.op.isCall = false → ∃ e, m.tick.effect strings g q.op = .ok e ∧ e.result? = x

/-- How one function follows another. -/
structure Track where
  /-- The variables that the second run may have different values for, at a spot of the first. -/
  hidden : Spot → VarId → Prop
  /-- Where the second run may be when the first is at a spot, in these states. -/
  follows : Spot → Spot → Machine → Machine → Prop

namespace Track

variable (t : Terms) (k : Track)

/-- The state that the first run comes to a spot with is followed at a point of the second. -/
structure Meets (g : Graph) (below : Hidden) (s : Spot) (m : Machine) (p' : Point) : Prop where
  agrees : Machine.Agrees (below.above m.frames.size (k.hidden s)) m p'.machine
  shaped : m.Shaped g
  some_frame : 0 < m.frames.size
  pace : t.free ∨ p'.machine.steps ≤ m.steps
  follows : k.follows s p'.spot m p'.machine

/-- The second run goes ahead from a point until it follows the first, which is at a spot, or it ends on
its own. -/
def Arrives (g : Graph) (below : Hidden) (s : Spot) (m : Machine) (p' : Point) : Prop := ∃ r', p'.Glides t.strings r' ∧
    ((∃ e, t.soft e ∧ r'.Fails t.strings e) ∨ k.Meets t g below s m r')

/-- The second run does what the first does at the end of a block. -/
def Leaves (g : Graph) (below : Hidden) (m : Machine) (p' : Point) : Except Stop (BlockId ⊕ Option Value) → Prop
  | .ok (.inl b) => k.Arrives t g below ⟨b, 0⟩ m.tick p'
  | .ok (.inr x) => p'.quad? = none ∧ p'.machine.tick.next p'.graph p'.tail = .ok (.inr x)
  | .error e => p'.quad? = none ∧ p'.machine.tick.next p'.graph p'.tail = .error e

/-- The second run has the same quadruple before it as the first. -/
structure Copies (g : Graph) (s : Spot) (q : Quad) (m : Machine) (p' : Point) : Prop where
  next : p'.quad? = some q
  seen : ∀ v ∈ q.uses, ¬k.hidden s v
  follows : ∀ x m' n', q.Served t.watch.strict x → m.Yields t.strings g q x →
    (g.StoresToMemory q → m.Passed t.watch.shared g q x m' ∧ p'.machine.Passed t.watch.shared g q x n') →
    k.follows s.next p'.spot.next m' n'
  hidden : ∀ x : Option Value, q.Served t.watch.strict x → ∀ v, k.hidden s v →
    k.hidden s.next v ∨ (q.result = some v ∧ x.isSome)

/-- The second run waits while the first passes a quadruple. -/
structure Skips (g : Graph) (below : Hidden) (s : Spot) (q : Quad) (m : Machine) (p' : Point) : Prop where
  plain : q.op.isCall = false
  acts : ∃ m', m.tick.act t.strings g q = .ok m' ∧ k.Meets t g below s.next m' p'

/-- The second function keeps track of the first. -/
structure Sound (g g' : Graph) : Prop where
  alike : g.Alike g'
  taken : ∀ v, v ∉ t.watch.shared → (v ∈ g'.addressTaken ↔ v ∈ g.addressTaken)
  covers : ∀ s v, k.hidden s v → g.Private t.watch.shared v
  entry : ∀ (below : Hidden) (m : Machine) (p' : Point), p'.graph = g' → p'.block = g'.entry → p'.index = 0 →
    m.Agrees (below.above m.frames.size fun _ => False) p'.machine → m.Shaped g → 0 < m.frames.size →
    (t.free ∨ p'.machine.steps ≤ m.steps) → k.Arrives t g below ⟨g.entry, 0⟩ m p'
  quad : ∀ (below : Hidden) (s : Spot) (m : Machine) (p' : Point) (q : Quad), p'.graph = g' →
    k.Meets t g below s m p' → (g.body s.block)[s.index]? = some q →
    k.Copies t g s q m p' ∨ k.Skips t g below s q m p'
  tail : ∀ (below : Hidden) (callers : List Graph) (s : Spot) (m : Machine) (p' : Point), p'.graph = g' →
    k.Meets t g below s m p' → (g.body s.block)[s.index]? = none →
    (∀ b, m.tick.next g (g.tail s.block) = .ok (.inl b) → t.watch.leaves ⟨callers, g, s.block, s.index, m⟩) →
    k.Leaves t g below m p' (m.tick.next g (g.tail s.block))

end Track

/-! ## Runs of programs -/

section Runs

variable {t : Terms} {program' : Module} {p' : Point}

/-- The two runs end alike, or the second on its own. -/
inductive Ends.Alike (t : Terms) (below : Hidden) (size : Nat) :
    Except Stop (Option Value × Machine) → Except Stop (Option Value × Machine) → Prop
  | soft {r : Except Stop (Option Value × Machine)} {e : Stop} : t.soft e → Alike t below size r (.error e)
  | error {e : Stop} : Alike t below size (.error e) (.error e)
  | ok {x : Option Value} {m n : Machine} {top : VarId → Prop} : m.Agrees (below.above size top) n →
      (t.free ∨ n.steps ≤ m.steps) → Alike t below size (.ok (x, m)) (.ok (x, n))

/-- The suspended activations of the two runs. -/
structure Abreast (t : Terms) (below : Hidden) (callers callers' : List Graph) : Prop where
  taken : List.Forall₂ (fun h h' : Graph => ∀ v, v ∉ t.watch.shared →
    (v ∈ h'.addressTaken ↔ v ∈ h.addressTaken)) callers callers'
  covers : ∀ frame v, frame < callers.length → below frame v →
    ∃ h, callers[frame]? = some h ∧ h.Private t.watch.shared v

namespace Abreast

theorem exposed (abreast : Abreast t below p.callers p'.callers)
    (taken : ∀ v, v ∉ t.watch.shared → (v ∈ p'.graph.addressTaken ↔ v ∈ p.graph.addressTaken))
    (exposed : p.Exposed t.watch.shared place) : p'.Exposed t.watch.shared place := by
  cases place with
  | global => trivial
  | «local» frame v =>
    obtain ⟨h, owner, reason⟩ := exposed
    have all : List.Forall₂ (fun h h' : Graph => ∀ v, v ∉ t.watch.shared →
        (v ∈ h'.addressTaken ↔ v ∈ h.addressTaken)) (p.callers ++ [p.graph]) (p'.callers ++ [p'.graph]) :=
      rel_append abreast.taken (.cons taken .nil)
    obtain ⟨inside, here⟩ := List.getElem?_eq_some_iff.1 owner
    have inside' : frame < (p'.callers ++ [p'.graph]).length := all.length_eq ▸ inside
    refine ⟨_, getElem?_eq_getElem inside', ?_⟩
    by_cases open_v : v ∈ t.watch.shared
    · exact .inr open_v
    · refine .inl (((forall₂_iff_get.1 all).2 frame inside inside' v open_v).2 ?_)
      rw [get_eq_getElem, here]
      exact reason.resolve_right open_v

/-- Exposed places are in sight. -/
theorem seen (abreast : Abreast t below p.callers p'.callers) (framed : p.Framed)
    (covers : ∀ v, top v → p.graph.Private t.watch.shared v) (exposed : p.Exposed t.watch.shared place) :
    place.Seen (below.above p.machine.frames.size top) :=
  exposed.seen abreast.covers framed covers

end Abreast

variable {x : Option Value} {v : VarId} {r : Except Stop (Option Value × Machine)} {d : Option (Place × Value)}
  {k : Track} {q : Quad} {n m : Machine}

namespace Machine

variable {top' : VarId → Prop} {size : Nat}

theorem Agrees.above_mono (agrees : m.Agrees (below.above size top) n) (more : ∀ v, top v → top' v) :
    m.Agrees (below.above size top') n := by
  refine agrees.mono fun frame v _ out => ?_
  unfold Hidden.above at out ⊢
  split at out
  next last =>
    rw [if_pos last]
    exact more v out
  next last => rwa [if_neg last]

/-- What a callee finds in agreement, whatever is hidden of its own. -/
theorem Agrees.push_above (agrees : m.Agrees below n) (frame : Frame) (top : VarId → Prop) :
    (m.push frame).Agrees (below.above (m.push frame).frames.size top) (n.push frame) := by
  refine (agrees.push frame).mono fun j v _ out => ?_
  have lower := out.1
  rw [Hidden.above, if_neg (by simp only [Machine.push, Array.size_push]; omega)]
  exact out.2

theorem sees_above (some_frame : 0 < m.frames.size) (seen : ¬top v) : m.Sees (below.above m.frames.size top) v := by
  rwa [Sees, Hidden.above, if_pos (Nat.sub_add_cancel some_frame)]

/-- Receiving the same value may bring a hidden variable back into sight. -/
theorem Agrees.deliver_result {r : Option VarId} (agrees : m.Agrees (below.above m.frames.size top) n)
    (delivered : m.destination g r x = .ok d) (shaped : m.Shaped g) (some_frame : 0 < m.frames.size)
    (covers : ∀ v, top v → g.Private shared v) (shown : ∀ v, top v → top' v ∨ (r = some v ∧ x.isSome)) :
    (m.deliver d).Agrees (below.above m.frames.size top') (n.deliver d) := by
  by_cases result : ∃ v, top v ∧ r = some v ∧ x.isSome
  · obtain ⟨v, covered, rfl, valued⟩ := result
    obtain ⟨x, rfl⟩ := Option.isSome_iff_exists.1 valued
    obtain ⟨p, placed, -, rfl⟩ := destination_eq_ok.1 delivered
    cases (place_of_private (covers v covered)).symm.trans placed
    obtain ⟨y, declared, -, scalar⟩ := (covers v covered).scalar
    refine (agrees.reveal (shaped v y declared scalar) x).mono fun frame u inside out => ?_
    obtain ⟨out, other⟩ := out
    unfold Hidden.above at out ⊢
    split at out
    next last =>
      rw [if_pos last]
      refine (shown u out).resolve_right fun same => other ⟨by omega, ?_⟩
      exact (Option.some.inj same.1).symm
    next last => rwa [if_neg last]
  · refine (agrees.deliver d).above_mono fun u out => ?_
    exact (shown u out).resolve_right fun same => result ⟨u, out, same⟩

/-- What a callee leaves in agreement is what its caller finds. -/
theorem Agrees.pop_above (agrees : m.Agrees ((below.above size top).above (size + 1) top') n)
    (counted : m.frames.size = size + 1) : m.pop.Agrees (below.above size top) n.pop := by
  refine agrees.pop.mono fun frame v inside out => ?_
  have lower : frame < m.frames.size - 1 := by simpa [Machine.pop] using inside
  rw [Hidden.above, if_neg (by omega)] at out
  exact out

end Machine

/-- The second run follows the first at these points. -/
structure Together (t : Terms) (k : Track) (below : Hidden) (p p' : Point) : Prop where
  sound : k.Sound t p.graph p'.graph
  abreast : Abreast t below p.callers p'.callers
  framed : p.Framed
  meets : k.Meets t p.graph below p.spot p.machine p'

namespace Together

variable (together : Together t k below p p')
include together

theorem framed' : p'.Framed := by
  rw [Point.Framed, together.meets.agrees.size, together.framed, together.abreast.taken.length_eq]

theorem private_iff : p'.graph.Private t.watch.shared v ↔ p.graph.Private t.watch.shared v := by
  have vars := together.sound.alike.vars
  have taken := together.sound.taken v
  exact ⟨fun ⟨scalar, untaken, unshared⟩ => ⟨vars ▸ scalar, mt (taken unshared).2 untaken, unshared⟩,
    fun ⟨scalar, untaken, unshared⟩ => ⟨vars ▸ scalar, mt (taken unshared).1 untaken, unshared⟩⟩

theorem passed' (passed : p'.machine.Passed t.watch.shared p'.graph q x n) :
    p'.machine.Passed t.watch.shared p.graph q x n :=
  ⟨passed.size, fun v hides => passed.top v (together.private_iff.2 hides)⟩

theorem stores (safe : p.graph.StoresToMemory q) : p'.graph.StoresToMemory q := by
  intro base i x store
  rw [together.sound.alike.vars]
  exact safe base i x store

/-- What a quadruple of both runs names is in sight. -/
theorem sees (copies : k.Copies t p.graph p.spot q p.machine p') (named : v ∈ q.uses) :
    p.machine.tick.Sees (below.above p.machine.frames.size (k.hidden p.spot)) v :=
  sees_above (m := p.machine.tick) together.meets.some_frame (copies.seen v named)

theorem agrees_tick : p.machine.tick.Agrees (below.above p.machine.frames.size (k.hidden p.spot)) p'.machine.tick :=
  together.meets.agrees.tick_left.tick_right

theorem clear (next : p.quad? = some q) (fenced : p.Fenced t.watch.shared) (slot : Place × Nat)
    (reached : slot ∈ p.machine.tick.reached? p.graph q.op) :
    slot.1.Seen (below.above p.machine.frames.size (k.hidden p.spot)) :=
  together.abreast.seen together.framed (fun v => together.sound.covers p.spot v) (fenced q next slot reached)

variable (copies : k.Copies t p.graph p.spot q p.machine p')
include copies

theorem effect (next : p.quad? = some q) (fenced : p.Fenced t.watch.shared) :
    p'.machine.tick.effect t.strings p'.graph q.op = p.machine.tick.effect t.strings p.graph q.op := by
  rw [together.sound.alike.akin.effect]
  exact together.agrees_tick.effect (fun v named => together.sees copies named) (together.clear next fenced)

theorem fenced (next : p.quad? = some q) (fenced : p.Fenced t.watch.shared) : p'.Fenced t.watch.shared := by
  intro q' next' slot reached
  cases copies.next.symm.trans next'
  refine together.abreast.exposed together.sound.taken (fenced q next slot ?_)
  have same : p'.machine.tick.reached? p'.graph q.op = p.machine.tick.reached? p.graph q.op := by
    rw [together.sound.alike.reached?]
    exact together.agrees_tick.reached? fun v named => together.sees copies named
  exact same ▸ reached

/-- The second run passes a quadruple with the first. -/
theorem advance (served : q.Served t.watch.strict x)
    (yields : p.machine.Yields t.strings p.graph q x) (delivered : m.destination p.graph q.result x = .ok d)
    (agrees : m.Agrees (below.above p.machine.frames.size (k.hidden p.spot)) n)
    (size : m.frames.size = p.machine.frames.size) (room : m.room = p.machine.room) (pace : t.free ∨ n.steps ≤ m.steps)
    (passed : p.graph.StoresToMemory q → p.machine.Passed t.watch.shared p.graph q x (m.deliver d) ∧
      p'.machine.Passed t.watch.shared p.graph q x (n.deliver d)) :
    Together t k below (p.advance (m.deliver d)) (p'.advance (n.deliver d)) where
  sound := together.sound
  abreast := together.abreast
  framed := together.framed.advance (by simp [size])
  meets := {
    agrees := by
      simp only [Point.advance, deliver_frames_size]
      rw [← size] at agrees
      refine agrees.deliver_result delivered (together.meets.shaped.of_room size room)
        (size ▸ together.meets.some_frame) (together.sound.covers p.spot) fun v out => ?_
      exact copies.hidden x served v out
    shaped := together.meets.shaped.of_room (by simp [Point.advance, size]) (by simp [Point.advance, room])
    some_frame := by simpa [Point.advance, size] using together.meets.some_frame
    pace := by simpa [Point.advance] using pace
    follows := copies.follows x _ _ served yields passed }

end Together

/-- Every function of the first program has one in the second that keeps track of it. -/
structure Module.Tracked (t : Terms) (program program' : Module) : Prop where
  strings : program.strings = t.strings
  strings' : program'.strings = t.strings
  graphs : ∀ name, Option.Rel (fun g g' => ∃ k : Track, k.Sound t g g') (program.graph? name) (program'.graph? name)

namespace Together

variable {name : Label} {xs : List Arg} (together : Together t k below p p')
include together

/-- The second run evaluates the arguments of a call as the first does. -/
theorem args (copies : k.Copies t p.graph p.spot q p.machine p') (call : q.op = .call name xs) :
    p'.machine.tick.args p'.graph xs = p.machine.tick.args p.graph xs := by
  rw [together.sound.alike.akin.args]
  refine together.agrees_tick.args fun v named => together.sees copies ?_
  rw [Quad.uses, call]
  exact mem_append_left _ named

/-- A call is never left out. -/
theorem copies_call (next : p.quad? = some q) (call : q.op = .call name xs) :
    k.Copies t p.graph p.spot q p.machine p' := by
  rcases together.sound.quad below p.spot p.machine p' q rfl together.meets next with copies | skips
  · exact copies
  · cases (congrArg Op.isCall call).symm.trans skips.plain

variable {frame : Frame}

theorem callee_ok (tracked : program.Tracked t program') (copies : k.Copies t p.graph p.spot q p.machine p')
    (call : q.op = .call name xs) (admitted : p.callee program name xs = .ok (h, frame)) :
    ∃ h' k', p'.callee program' name xs = .ok (h', frame) ∧ Track.Sound t k' h h' := by
  obtain ⟨args, evaluated, found, entered⟩ := callee_eq_ok.1 admitted
  obtain ⟨h', found', k', sound⟩ := Module.graph?_paired (tracked.graphs name) found
  exact ⟨h', k', callee_eq_ok.2 ⟨args, (together.args copies call).trans evaluated, found',
    (sound.alike.enter args).trans entered⟩, sound⟩

theorem callee_error (tracked : program.Tracked t program') (copies : k.Copies t p.graph p.spot q p.machine p')
    (call : q.op = .call name xs) (refused : p.callee program name xs = .error e) :
    p'.callee program' name xs = .error e := by
  unfold callee at *
  rw [together.args copies call]
  revert refused
  cases p.machine.tick.args p.graph xs with
  | error e' => exact id
  | ok args =>
    dsimp only [bind, Except.bind]
    have related := tracked.graphs name
    generalize program.graph? name = one at related
    generalize program'.graph? name = other at related
    cases related with
    | none => exact id
    | some sound =>
      obtain ⟨k', sound⟩ := sound
      dsimp only
      rw [sound.alike.enter]
      cases Frame.enter _ args with
      | error e' => exact id
      | ok frame => rintro ⟨⟩

/-- The second run enters the function that keeps track of the callee, and goes ahead until it follows. -/
theorem enters {h' : Graph} {k' : Track} (sound : k'.Sound t h h') {args : List Value}
    (entered : Frame.enter h args = .ok frame) :
    k'.Arrives t h (below.above p.machine.frames.size (k.hidden p.spot)) ⟨h.entry, 0⟩
      (p.into h frame).machine (p'.into h' frame) := by
  refine sound.entry _ _ _ rfl rfl rfl (together.agrees_tick.push_above frame _) (Frame.enter_shaped _ entered)
    (Array.size_push _ ▸ Nat.succ_pos _) ?_
  simpa [Point.into, Point.start] using together.meets.pace

/-- The suspended activations while a callee runs. -/
theorem abreast_into : Abreast t (below.above p.machine.frames.size (k.hidden p.spot)) (p.callers ++ [p.graph])
      (p'.callers ++ [p'.graph]) where
  taken := rel_append together.abreast.taken (.cons together.sound.taken .nil)
  covers := together.framed.covered_into together.abreast.covers (together.sound.covers _)

/-- If runs of the callee are followed to their ends, so is this one. -/
theorem ends_into (tracked : program.Tracked t program') (copies : k.Copies t p.graph p.spot q p.machine p')
    (call : q.op = .call name xs) (admitted : p.callee program name xs = .ok (h, frame))
    (followed : ∀ {r' : Point} {k : Track} {below : Hidden}, Together t k below (p.into h frame) r' →
      ∃ ending, Ends program' t.watch.lax r' ending ∧
        Ends.Alike t below (p.into h frame).machine.frames.size r ending) :
    ∃ h' ending, p'.callee program' name xs = .ok (h', frame) ∧ Ends program' t.watch.lax (p'.into h' frame) ending ∧
        Ends.Alike t (below.above p.machine.frames.size (k.hidden p.spot)) (p.machine.frames.size + 1) r ending := by
  obtain ⟨h', k', admitted', sound⟩ := together.callee_ok tracked copies call admitted
  obtain ⟨args, -, -, entered⟩ := callee_eq_ok.1 admitted
  obtain ⟨r', glides, ⟨e, soft, fails⟩ | meets⟩ := together.enters sound entered
  · exact ⟨h', _, admitted', Point.Glides.ends (tracked.strings' ▸ glides) (tracked.strings' ▸ fails).ends, .soft soft⟩
  · obtain ⟨graph, callers⟩ := glides.graph
    have together' : Together t k' _ (p.into h frame) r' := {
      sound := graph ▸ sound
      abreast := callers ▸ together.abreast_into
      framed := together.framed.into h frame
      meets }
    obtain ⟨ending, ended, alike⟩ := followed together'
    exact ⟨h', ending, admitted', Point.Glides.ends (tracked.strings' ▸ glides) ended,
      p.into_frames_size h frame ▸ alike⟩

end Together

/-- The second program ends as the first does, or on its own. -/
theorem Ends.tracked (tracked : program.Tracked t program') (ends : Ends program t.watch p r)
    (together : Together t k below p p') :
    ∃ r', Ends program' t.watch.lax p' r' ∧ Ends.Alike t below p.machine.frames.size r r' := by
  induction ends generalizing p' k below with
  | @ret p x next returned =>
    have leaves := together.sound.tail below p.callers p.spot p.machine p' rfl together.meets next
      fun b jumped => by cases returned.symm.trans jumped
    rw [show p.machine.tick.next p.graph (p.graph.tail p.spot.block) = _ from returned] at leaves
    refine ⟨_, .ret leaves.1 leaves.2, .ok together.agrees_tick ?_⟩
    simpa using together.meets.pace
  | @jump p b r next left jumped more ih =>
    have leaves := together.sound.tail below p.callers p.spot p.machine p' rfl together.meets next
      fun _ _ => left
    rw [show p.machine.tick.next p.graph (p.graph.tail p.spot.block) = _ from jumped] at leaves
    obtain ⟨r', glides, ⟨e, soft, fails⟩ | meets⟩ := leaves
    · refine ⟨_, Point.Glides.ends (tracked.strings' ▸ glides) (tracked.strings' ▸ fails).ends, .soft soft⟩
    · obtain ⟨graph, callers⟩ := glides.graph
      have together' : Together t k below (p.goto b) r' := {
        sound := graph ▸ together.sound
        abreast := callers ▸ together.abreast
        framed := together.framed.goto b
        meets }
      obtain ⟨ending, ended, alike⟩ := ih together'
      exact ⟨ending, Point.Glides.ends (tracked.strings' ▸ glides) ended, alike⟩
  | @lost p e next failed =>
    have leaves := together.sound.tail below p.callers p.spot p.machine p' rfl together.meets next
      fun b jumped => by cases failed.symm.trans jumped
    rw [show p.machine.tick.next p.graph (p.graph.tail p.spot.block) = _ from failed] at leaves
    exact ⟨_, .lost leaves.1 leaves.2, .error⟩
  | @act p q e m r next plain fenced done served acted more ih =>
    rcases together.sound.quad below p.spot p.machine p' q rfl together.meets next with copies | skips
    · obtain ⟨_, d, done', delivered, rfl⟩ := act_eq_ok.1 acted
      cases done.symm.trans done'
      rw [tracked.strings] at done
      have done' := (together.effect copies next fenced).trans done
      have agrees := together.agrees_tick.perform e
      have acted' : p'.machine.tick.act t.strings p'.graph q = .ok ((p'.machine.tick.perform e).deliver d) := by
        refine act_eq_ok.2 ⟨e, d, done', ?_, rfl⟩
        rw [together.sound.alike.akin.destination, agrees.destination, delivered]
      have fenced' := together.fenced copies next fenced
      obtain ⟨ending, ended, alike⟩ := ih (together.advance copies served (fun _ => ⟨e, done, rfl⟩) delivered agrees
        (by simp) (by simp) (by simpa using together.meets.pace) fun safe =>
          ⟨fenced.passed together.framed next safe done (tracked.strings ▸ acted),
            together.passed' (fenced'.passed together.framed' copies.next (together.stores safe) done' acted')⟩)
      exact ⟨ending, .act copies.next plain fenced' (tracked.strings' ▸ done') served
        (tracked.strings' ▸ acted') ended, by simpa [advance] using alike⟩
    · obtain ⟨m', acted', meets⟩ := skips.acts
      rw [tracked.strings, acted'] at acted
      cases acted
      have size := act_frames_size acted'
      have together' : Together t k below (p.advance m) p' :=
        { together with framed := together.framed.advance size, meets }
      obtain ⟨ending, ended, alike⟩ := ih together'
      exact ⟨ending, ended, by simpa [advance, size] using alike⟩
  | @stuck p q e next plain fenced failed =>
    rcases together.sound.quad below p.spot p.machine p' q rfl together.meets next with copies | skips
    · refine ⟨_, .stuck copies.next plain (together.fenced copies next fenced) ?_, .error⟩
      rw [tracked.strings, act_eq_error] at failed
      rw [tracked.strings', act_eq_error, together.effect copies next fenced]
      rcases failed with lost | ⟨f, done, lost⟩
      · exact .inl lost
      · refine .inr ⟨f, done, ?_⟩
        rw [together.sound.alike.akin.destination, (together.agrees_tick.perform f).destination, lost]
    · obtain ⟨m', acted, -⟩ := skips.acts
      rw [tracked.strings, acted] at failed
      cases failed
  | @call p q name xs h frame y m d r next call admitted first served back more inner outer =>
    have copies := together.copies_call next call
    obtain ⟨h', ending, admitted', ended, alike⟩ := together.ends_into tracked copies call admitted inner
    cases alike with
    | soft soft => exact ⟨_, .broken copies.next call admitted' ended, .soft soft⟩
    | @ok _ _ n top agrees pace =>
      have left := first.spares (together.framed.into h frame)
      have spared := left.pop together.framed
      have spared' := (ended.spares (together.framed'.into h' frame)).pop together.framed'
      have agrees := agrees.pop_above (left.size.trans (p.into_frames_size h frame))
      have back' : n.pop.destination p'.graph q.result y = .ok d := by
        rw [together.sound.alike.akin.destination, agrees.destination, back]
      have yields : p.machine.Yields t.strings p.graph q y := fun plain => by
        cases (congrArg Op.isCall call).symm.trans plain
      obtain ⟨ending, ended', alike⟩ := outer (together.advance copies served yields back agrees spared.size
        spared.room pace fun _ => ⟨spared.passed together.framed back,
          together.passed' (spared'.passed together.framed' back')⟩)
      exact ⟨ending, .call copies.next call admitted' ended served back' ended',
        by simpa [advance, spared.size] using alike⟩
  | @refused p q name xs e next call refused =>
    have copies := together.copies_call next call
    exact ⟨_, .refused copies.next call (together.callee_error tracked copies call refused), .error⟩
  | @broken p q name xs h frame e next call admitted first inner =>
    have copies := together.copies_call next call
    obtain ⟨h', ending, admitted', ended, alike⟩ := together.ends_into tracked copies call admitted inner
    cases alike with
    | soft soft => exact ⟨_, .broken copies.next call admitted' ended, .soft soft⟩
    | error => exact ⟨_, .broken copies.next call admitted' ended, .error⟩
  | @unserved p q name xs h frame y m e next call admitted first back inner =>
    have copies := together.copies_call next call
    obtain ⟨h', ending, admitted', ended, alike⟩ := together.ends_into tracked copies call admitted inner
    cases alike with
    | soft soft => exact ⟨_, .broken copies.next call admitted' ended, .soft soft⟩
    | @ok _ _ n top agrees pace =>
      have left := first.spares (together.framed.into h frame)
      have agrees := agrees.pop_above (left.size.trans (p.into_frames_size h frame))
      refine ⟨_, .unserved copies.next call admitted' ended ?_, .error⟩
      rw [together.sound.alike.akin.destination, agrees.destination, back]

end Runs

end Quadcode
