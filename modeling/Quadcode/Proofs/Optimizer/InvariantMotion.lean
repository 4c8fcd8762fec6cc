import Quadcode.Proofs.Eval.Tracing
import Quadcode.Proofs.Optimizer.Gateways
import Quadcode.Proofs.Optimizer.Hoisting
import Quadcode.Proofs.Optimizer.LoopPasses

/-!
# Moving invariant code keeps what a program does

The edited function computes the lifted quadruples in front of the loop. From then on, and as long as control
stays in the loop, each of their variables holds what its quadruple would compute, since the rest of the loop
assigns neither the variable nor what the quadruple reads. The old function has another value for it only
where it is not live.
-/

namespace Quadcode.InvariantMotion

open List Std.ExtTreeSet Machine Quadcode.Graph PassM Point

variable {strings : StringPool}

variable {g g' : Graph} {l : Loop} {memory vars : VarSet} {found : Found} {spot : Spot} {q r : Quad} {v : VarId}
  {m n : Machine}

/-! ## Movable quadruples -/

theorem movable_cases (movable : isMovable q) : q.op.base? = none ∧ q.op.isCall = false := by
  unfold isMovable at movable
  split at movable <;> simp_all [Op.base?, Op.isCall]

/-- What a movable quadruple computes depends on its arguments only. -/
theorem effect_congr (movable : isMovable q) (same : ∀ a ∈ q.op.args, n.arg g a = m.arg g a) :
    n.effect strings g q.op = m.effect strings g q.op := by
  unfold isMovable at movable
  split at movable
  · simp_all [effect, Op.args]
  · simp_all [effect, Op.args]
  · simp_all [effect, Op.args]
  · simp_all [effect, Op.args]
  · cases movable

/-- A movable quadruple computes a value, or stops where an argument does or at one that is missing or of
another type. -/
theorem effect_failsOnly {soft : Stop → Prop} (mild : ∀ e : Stop, e.Mild → soft e) (movable : isMovable q)
    (arg : ∀ a ∈ q.op.args, FailsOnly soft (m.arg g a)) : FailsOnly soft (m.effect strings g q.op) := by
  unfold isMovable at movable
  split at movable
  next x op =>
    rw [op] at arg ⊢
    exact (arg x (by simp [Op.args])).bind fun _ _ => .ok _
  next c x y op =>
    rw [op] at arg movable ⊢
    refine (arg x (by simp [Op.args])).bind fun x' _ => (arg y (by simp [Op.args])).bind
      fun y' at_y => .bind (.binOp mild fun division => ?_) fun _ _ => .ok _
    -- A division that cannot trap is one by a constant other than zero.
    rintro rfl
    simp only [Op.canTrap, division, Bool.true_and] at movable
    split at movable
    · cases at_y
      simp at movable
    · cases movable
  next c x op =>
    rw [op] at arg ⊢
    exact (arg x (by simp [Op.args])).bind fun x' _ => .bind (.unOp mild c g x') fun _ _ => .ok _
  next c x y op =>
    rw [op] at arg ⊢
    exact (arg x (by simp [Op.args])).bind fun x' _ => (arg y (by simp [Op.args])).bind
      fun y' _ => .bind (.comparison mild c g x' y') fun _ _ => .ok _
  · cases movable

/-- What a movable quadruple does is to compute a value from those of its arguments. -/
theorem effect_value {e : Effect} (movable : isMovable q) (done : m.effect strings g q.op = .ok e) :
    (∃ x, e = .value x) ∧ ∀ a ∈ q.op.args, ∃ x, m.arg g a = .ok x := by
  unfold isMovable at movable
  split at movable
  next op =>
    simp only [op, effect, bind_eq_ok, pure_eq_ok] at done
    obtain ⟨x, at_x, rfl⟩ := done
    exact ⟨⟨x, rfl⟩, by simp [op, Op.args, at_x]⟩
  next op =>
    simp only [op, effect, bind_eq_ok, pure_eq_ok] at done
    obtain ⟨_, at_x, _, at_y, x, -, rfl⟩ := done
    exact ⟨⟨x, rfl⟩, by simp [op, Op.args, at_x, at_y]⟩
  next op =>
    simp only [op, effect, bind_eq_ok, pure_eq_ok] at done
    obtain ⟨_, at_x, x, -, rfl⟩ := done
    exact ⟨⟨x, rfl⟩, by simp [op, Op.args, at_x]⟩
  next op =>
    simp only [op, effect, bind_eq_ok, pure_eq_ok] at done
    obtain ⟨_, at_x, _, at_y, x, -, rfl⟩ := done
    exact ⟨⟨_, rfl⟩, by simp [op, Op.args, at_x, at_y]⟩
  · cases movable

/-! ## Values in advance -/

/-- The variable of a lifted quadruple holds what the quadruple computes. -/
structure Ready (t : Terms) (g : Graph) (q : Quad) (v : VarId) (n : Machine) : Prop where
  hides : ∀ u ∈ v :: q.uses, g.Private t.watch.shared u
  value : ∃ x, n.effect t.strings g q.op = .ok (.value x) ∧ n.top v = some x

variable {t : Terms} {s : Quadcode.Spot} {below : Hidden} {pre : BlockId} {f : Graph} {p' : Point}

/-- A quadruple that assigns neither the variable nor an operand leaves the value where it is. -/
theorem Ready.kept (ready : Ready t g q v m) (movable : isMovable q) (top : ∀ u ∈ v :: q.uses, n.top u = m.top u) :
    Ready t g q v n := by
  obtain ⟨x, computed, here⟩ := ready.value
  refine ⟨ready.hides, x, ?_, (top v mem_cons_self).trans here⟩
  rw [← computed]
  refine effect_congr movable fun a listed => ?_
  have used {u : VarId} (named : u ∈ a.var?) : u ∈ v :: q.uses :=
    mem_cons_of_mem v (mem_append_left _ (mem_filterMap.2 ⟨a, listed, named⟩))
  exact arg_congr_top (fun u named => ready.hides u (used named)) fun u named => top u (used named)

/-- All that was lifted is ready. -/
def AllReady (t : Terms) (g : Graph) (spots : List Spot) (n : Machine) : Prop :=
  ∀ spot ∈ spots, ∀ q v, (g.body spot.1)[spot.2]? = some q → q.result = some v → Ready t g q v n

theorem AllReady.kept (lifted : Lifted g l memory found) (ready : AllReady t g found.spots m)
    (top : ∀ u, (u ∈ found.vars ∨ ∀ b ∈ l.blocks, ∀ r ∈ g.body b, r.result ≠ some u) →
      g.Private t.watch.shared u → n.top u = m.top u) : AllReady t g found.spots n := by
  intro spot member q v here result
  obtain ⟨vars, q', v', liftable, lifts, before⟩ := lifted.of_spot member
  cases here.symm.trans liftable.here
  cases result.symm.trans liftable.result
  have readied := ready spot member q v here result
  refine readied.kept liftable.movable fun u named => top u ?_ (readied.hides u named)
  rcases mem_cons.1 named with rfl | read
  · exact .inl lifts
  · exact (liftable.reads u read).2.imp_left (before u)

/-- The rest of the loop leaves what was lifted alone. -/
theorem AllReady.passed {x : Option Value} (lifted : Lifted g l memory found) (ready : AllReady t g found.spots m)
    (inside : s.block ∈ l.blocks) (here : (g.body s.block)[s.index]? = some r)
    (stays : (s.block, s.index) ∉ found.spots) (passed : m.Passed t.watch.shared g r x n) :
    AllReady t g found.spots n := by
  refine ready.kept lifted fun u kind hides => ?_
  rw [passed.top u hides, if_neg fun result => ?_]
  rcases kind with lifts | unassigned
  · obtain ⟨spot, member, vars, q, liftable⟩ := lifted.of_var lifts
    exact stays (liftable.once _ inside _ r here result ▸ member)
  · exact unassigned _ inside r (mem_of_getElem? here) result

/-! ## In front of the loop -/

/-- The variables of lifted quadruples, where they are not live. -/
def hidden (t : Terms) (g : Graph) (vars : VarSet) (s : Quadcode.Spot) (v : VarId) : Prop :=
  g.Private t.watch.shared v ∧ v ∈ vars ∧ ¬g.LiveFrom v s

theorem unused (t : Terms) (g : Graph) (vars : VarSet) (strict : t.watch.strict) :
    Track.Unused t g (hidden t g vars) where
  quad b _ i q here v named out := out.2.2 (Graph.Uses.quad here (.inl named)).liveFrom
  tail b _ v named out := out.2.2 (Graph.Uses.tail named).liveFrom
  step b _ i q here v out := by
    by_cases result : q.result = some v
    · exact .inr ⟨result, strict⟩
    · refine .inl ⟨out.1, out.2.1, fun live => out.2.2 (live.back (.step ?_) ?_)⟩
      · exact (List.getElem?_eq_some_iff.1 here).1.le
      · rintro ⟨q', here', result'⟩
        cases here.symm.trans here'
        exact result result'
  edge b _ c leads v out := by
    refine ⟨out.1, out.2.1, fun live => out.2.2 ?_⟩
    have ended (i : Nat) (past : (g.body b).length ≤ i) : ¬g.Assigns v ⟨b, i⟩ :=
      not_assigns_of_ended (getElem?_eq_none past)
    exact (live.back (.edge leads) (ended _ (Nat.le_succ _))).back (.step le_rfl) (ended _ le_rfl)

section Front

variable (way : Underway strings True f g)
include way

/-- A lifted quadruple fails in front of the loop only at a value that is missing or of another type, or at a
variable that is in no table. -/
theorem act_failsOnly (shaped : m.Shaped g) (liftable : Liftable g l f.memoryResident vars spot q v)
    (listed : q ∈ g.bodies) : FailsOnly (Terms.onLoops strings True f).soft (m.act strings g q) := by
  have effect : FailsOnly (Terms.onLoops strings True f).soft (m.effect strings g q.op) := by
    refine effect_failsOnly (fun e => .inl) liftable.movable fun a member => ?_
    have used {u : VarId} (named : u ∈ a.var?) : u ∈ q.uses :=
      mem_append_left _ (mem_filterMap.2 ⟨a, member, named⟩)
    exact way.arg_failsOnly shaped (fun u named => (liftable.reads u (used named)).1)
      fun u named => way.not_declared listed (mem_append_left _ (used named))
  refine effect.bind fun e done => .bind ?_ fun _ _ => .ok _
  obtain ⟨⟨x, rfl⟩, -⟩ := effect_value liftable.movable done
  rw [liftable.result]
  by_cases declared : v < g.vars.size
  · have there := shaped.destination (way.hides liftable.resident declared) x
    exact there ▸ .ok _
  · have failed : m.destination g (some v) (some x) = .error .fault := by
      rw [destination, place, Array.getElem?_eq_none (Nat.le_of_not_lt declared)]
      rfl
    refine failed ▸ failsOnly_error.2 (.inr ⟨rfl, way.not_declared listed ?_ declared⟩)
    simp [liftable.result]

/-- A lifted quadruple that does not fail in front of the loop makes its variable ready, which is not in sight
yet. -/
theorem act_ready (shaped : m.Shaped g) (liftable : Liftable g l f.memoryResident vars spot q v)
    (acted : m.act strings g q = .ok n) :
    Ready (.onLoops strings True f) g q v n ∧
      (∃ x, m.effect strings g q.op = .ok (.value x) ∧ n = m.put (.local (m.frames.size - 1) v) 0 x) ∧
      ∀ u, u ≠ v → g.Private f.addressTaken u → n.top u = m.top u := by
  obtain ⟨e, d, done, delivered, rfl⟩ := act_eq_ok.1 acted
  obtain ⟨⟨x, rfl⟩, valued⟩ := effect_value liftable.movable done
  replace delivered : m.destination g (some v) (some x) = .ok d := liftable.result ▸ delivered
  have hides : g.Private f.addressTaken v := by
    refine way.hides liftable.resident ?_
    obtain ⟨p, placed, -⟩ := destination_eq_ok.1 delivered
    obtain ⟨y, declared, -⟩ := place_eq_ok.1 placed
    exact (Array.getElem?_eq_some_iff.1 declared).1
  have hides_use {u : VarId} (read : u ∈ q.uses) : g.Private f.addressTaken u := by
    refine way.hides (liftable.reads u read).1 ?_
    have direct : q.uses = q.op.args.filterMap Arg.var? := by
      simp [Quad.uses, (movable_cases liftable.movable).1]
    obtain ⟨a, member, named⟩ := mem_filterMap.1 (direct ▸ read)
    obtain ⟨y, at_a⟩ := valued a member
    exact declared_of_arg at_a named
  have top (u : VarId) (hides : g.Private f.addressTaken u) := deliver_top hides delivered
  have other {u : VarId} (read : u ∈ q.uses) : u ≠ v := by
    rintro rfl
    rcases (liftable.reads u read).2 with earlier | unassigned
    · exact liftable.new earlier
    · exact unassigned _ liftable.inside q (mem_of_getElem? liftable.here) liftable.result
  refine ⟨⟨fun u named => ?_, x, ?_, ?_⟩, ⟨x, done, ?_⟩, fun u differs hides => ?_⟩
  · rcases mem_cons.1 named with rfl | read
    · exact hides
    · exact hides_use read
  · refine (effect_congr liftable.movable fun a member => ?_).trans done
    have used {u : VarId} (named : u ∈ a.var?) : u ∈ q.uses :=
      mem_append_left _ (mem_filterMap.2 ⟨a, member, named⟩)
    refine arg_congr_top (fun u named => hides_use (used named)) fun u named => ?_
    refine (top u (hides_use (used named))).trans (if_neg fun same => other (used named) ?_)
    exact (Option.some.inj same).symm
  · exact (top v hides).trans (if_pos rfl)
  · cases (shaped.destination hides x).symm.trans delivered
    rfl
  · exact (top u hides).trans (if_neg fun same => differs (Option.some.inj same).symm)

/-- The second run does what was lifted in front of the loop, while the first is about to enter it. -/
theorem runs_ahead (laid : ∀ b ∈ l.blocks, b ∈ g.layout) (lifted : Lifted g l f.memoryResident found)
    (known : ∀ v ∈ found.vars, v ∈ vars) (alike : g.Alike p'.graph) {front rest : List Quad}
    (code : p'.graph.body p'.block = front ++ quadsAt g found.spots.reverse ++ rest) (index : p'.index = front.length)
    (agrees : m.Agrees (below.above m.frames.size (hidden (.onLoops strings True f) g vars ⟨l.header, 0⟩)) p'.machine)
    (shaped : m.Shaped g) (some_frame : 0 < m.frames.size) :
    ∃ r', p'.Glides strings r' ∧ ((∃ e, (Terms.onLoops strings True f).soft e ∧ r'.Fails strings e) ∨
        r'.spot = ⟨p'.block, front.length + (quadsAt g found.spots.reverse).length⟩ ∧
        m.Agrees (below.above m.frames.size (hidden (.onLoops strings True f) g vars ⟨l.header, 0⟩)) r'.machine ∧
        AllReady (.onLoops strings True f) g found.spots r'.machine) := by
  induction lifted generalizing rest with
  | nothing =>
    refine ⟨p', .here, .inr ⟨?_, agrees, nofun⟩⟩
    rw [Point.spot, index]
    rfl
  | @more found spot q v lifted liftable ih =>
    have quads : quadsAt g (spot :: found.spots).reverse = quadsAt g found.spots.reverse ++ [q] := by
      have last : quadsAt g [spot] = [q] := by simp [quadsAt, liftable.here]
      rw [reverse_cons, quadsAt, filterMap_append]
      exact congrArg (_ ++ ·) last
    rw [quads] at code
    have code' : p'.graph.body p'.block = front ++ quadsAt g found.spots.reverse ++ q :: rest := by simpa using code
    obtain ⟨r', glides, soft | ⟨spot', agrees', ready⟩⟩ := ih
      (fun u member => known u (mem_insert.2 (.inr member))) code'
    · exact ⟨r', glides, .inl soft⟩
    · obtain ⟨graph, -⟩ := glides.graph
      have next : r'.quad? = some q := by
        rw [quad?_at graph spot', code]
        simp
      obtain ⟨direct, plain⟩ := movable_cases liftable.movable
      have listed : q ∈ g.bodies := mem_flatMap.2
        ⟨_, laid _ liftable.inside, mem_of_getElem? liftable.here⟩
      have akin := (graph ▸ alike : g.Alike r'.graph).akin
      have shaped' : r'.machine.tick.Shaped g := shaped.of_room agrees'.size agrees'.room
      cases acted : r'.machine.tick.act strings g q with
      | error e =>
        refine ⟨r', glides, .inl ⟨e, act_failsOnly way shaped' liftable listed e acted, ?_⟩⟩
        exact .quad next plain direct ((akin.act _ _ _).trans acted)
      | ok k =>
        obtain ⟨readied, ⟨x, computed, rfl⟩, others⟩ := act_ready way shaped' liftable acted
        refine ⟨_, glides.trans (.act next plain direct ((akin.effect _ _ _).trans computed)
          ((akin.act _ _ _).trans acted) .here), .inr ⟨?_, ?_, ?_⟩⟩
        · rw [quads, length_append, ← Nat.add_assoc]
          exact congrArg Spot.next spot'
        · refine agrees'.tick_right.put_right ?_ 0 x
          rw [tick_frames, agrees'.size, Hidden.above, if_pos (Nat.sub_add_cancel some_frame)]
          exact ⟨readied.hides v mem_cons_self, known v mem_insert_self, liftable.dead⟩
        · intro spot' member q' v' here result
          rcases mem_cons.1 member with rfl | earlier
          · cases liftable.here.symm.trans here
            cases liftable.result.symm.trans result
            exact readied
          · refine AllReady.kept lifted ready (fun u kind hides => ?_) spot' earlier q' v' here result
            refine others u ?_ hides
            rintro rfl
            rcases kind with member | unassigned
            · exact liftable.new member
            · exact unassigned _ liftable.inside q (mem_of_getElem? liftable.here) liftable.result

end Front

/-! ## Inside the loop -/

/-- Inside the loop the second run is behind the same quadruples less those that were lifted, which are
ready. -/
def inside (t : Terms) (g : Graph) (spots : List Spot) (s s' : Quadcode.Spot) (_ n : Machine) : Prop :=
  s' = shift spots s ∧ AllReady t g spots n

/-- How a function without its invariant code follows the old one. -/
def track (t : Terms) (g : Graph) (l : Loop) (found : Found) : Track :=
  .around g l (hidden t g found.vars) (inside t g found.spots)

/-- What an edit makes of a loop. -/
structure Lifts (g g' : Graph) (l : Loop) (spots : List Spot) (pre : BlockId) (gate : Nat) : Prop where
  gateway : g.Gateway g' l pre gate
  body : ∀ b ∈ l.blocks, g'.body b = remaining g spots b
  tail : ∀ b ∈ l.blocks, g'.tail b = g.tail b
  front : ∃ code, g'.body pre = code ++ quadsAt g spots.reverse ∧ gate = code.length
  leads : (g'.tail pre).only? = some l.header

section Loop

variable {gate : Nat}

theorem opens (way : Underway strings True f g) (loop : g.HasLoop l) (lifted : Lifted g l f.memoryResident found)
    (lifts : Lifts g g' l found.spots pre gate) :
    Graph.Gateway.Opens (.onLoops strings True f) g g' l pre gate
      (hidden (.onLoops strings True f) g found.vars) (inside (.onLoops strings True f) g found.spots)
      fun _ => True := by
  intro below m p' graph spot agrees shaped some_frame _ _
  have block : p'.block = pre := congrArg Quadcode.Spot.block spot
  have index : p'.index = gate := congrArg Quadcode.Spot.index spot
  obtain ⟨code, front, gate_eq⟩ := lifts.front
  have whole : p'.graph.body p'.block = code ++ quadsAt g found.spots.reverse ++ [] := by
    rw [graph, block, front, append_nil]
  obtain ⟨r', glides, soft | ⟨spot', agrees', ready⟩⟩ := runs_ahead way (fun b => loop.mem_layout way.linked)
    lifted (fun _ => id) (graph ▸ lifts.gateway.alike) whole (index.trans gate_eq) agrees shaped some_frame
  · exact ⟨r', glides, .inl soft⟩
  · -- All is done, and the block ends there.
    have graph' : r'.graph = g' := glides.graph.1.trans graph
    have ended : r'.quad? = none := by
      rw [quad?_at graph' spot', block, front, getElem?_eq_none_iff]
      simp
    have leads : r'.machine.tick.next r'.graph r'.tail = .ok (.inl l.header) := by
      rw [tail_at graph' spot', block]
      exact next_only lifts.leads
    refine ⟨_, glides.trans (.jump ended leads .here), .inr ⟨agrees'.tick_right, shaped, some_frame, .inl trivial,
      loop.header_mem_layout way.linked, Nat.zero_le _, fun _ => ⟨rfl, ?_⟩, fun outside => ?_⟩⟩
    · exact ready.kept lifted fun _ _ _ => rfl
    · exact absurd (loop.natural way.linked).header_mem outside

/-- Where the first run comes to a lifted quadruple, the second has the value already. -/
theorem skips (lifted : Lifted g l f.memoryResident found)
    (meets : (track (.onLoops strings True f) g l found).Meets (.onLoops strings True f) g below s m p')
    (member : s.block ∈ l.blocks) (here : (g.body s.block)[s.index]? = some q)
    (moved : (s.block, s.index) ∈ found.spots) :
    (track (.onLoops strings True f) g l found).Skips (.onLoops strings True f) g below s q m p' := by
  obtain ⟨laid, -, follows, -⟩ := meets.follows
  obtain ⟨spot, ready⟩ := follows member
  have unused := unused (.onLoops strings True f) g found.vars trivial
  obtain ⟨vars, q', v, liftable, -, -⟩ := lifted.of_spot moved
  cases here.symm.trans liftable.here
  obtain ⟨hides, x, computed, value⟩ := ready _ moved q v here liftable.result
  have hides_v := hides v mem_cons_self
  have computed' : m.tick.effect strings g q.op = .ok (.value x) := by
    rw [← computed]
    refine (effect_congr liftable.movable fun a listed => ?_).symm
    refine meets.agrees.tick_left.arg fun u named => meets.sees ?_
    exact unused.quad s.block laid s.index q here u (mem_append_left _ (mem_filterMap.2 ⟨a, listed, named⟩))
  have shaped : m.tick.Shaped g := meets.shaped
  obtain ⟨y, declared, -, scalar⟩ := hides_v.scalar
  refine ⟨(movable_cases liftable.movable).2, m.tick.put (.local (m.frames.size - 1) v) 0 x, ?_, ?_⟩
  · refine act_eq_ok.2 ⟨.value x, some (.local (m.frames.size - 1) v, x), computed', ?_, rfl⟩
    rw [liftable.result]
    exact shaped.destination hides_v x
  · rw [top, meets.agrees.size] at value
    have agrees := meets.agrees.tick_left.catch_up (shaped v y declared scalar) value
    refine ⟨agrees.mono fun frame u inside out => ?_, shaped.of_room (by simp) (by simp), ?_, .inl trivial, laid,
      (List.getElem?_eq_some_iff.1 here).1, fun _ => ⟨spot.trans (shift_next_of_mem moved).symm, ready⟩,
      absurd member⟩
    · obtain ⟨out, other⟩ := out
      rw [put_frames_size, tick_frames]
      unfold Hidden.above at out ⊢
      split at out
      next last =>
        rw [if_pos last]
        refine (unused.step s.block laid s.index q here u out).resolve_right fun stepped => ?_
        exact other ⟨Nat.eq_sub_of_add_eq last, Option.some.inj (stepped.1.symm.trans liftable.result)⟩
      next last => rwa [if_neg last]
    · rw [put_frames_size]
      exact meets.some_frame

theorem copies_or_skips (stores : ∀ q ∈ g.bodies, g.StoresToMemory q) (lifted : Lifted g l f.memoryResident found)
    (lifts : Lifts g g' l found.spots pre gate) (graph : p'.graph = g')
    (meets : (track (.onLoops strings True f) g l found).Meets (.onLoops strings True f) g below s m p')
    (member : s.block ∈ l.blocks) (here : (g.body s.block)[s.index]? = some q) :
    (track (.onLoops strings True f) g l found).Copies (.onLoops strings True f) g s q m p' ∨
      (track (.onLoops strings True f) g l found).Skips (.onLoops strings True f) g below s q m p' := by
  obtain ⟨laid, bound, follows, -⟩ := meets.follows
  obtain ⟨spot, ready⟩ := follows member
  have unused := unused (.onLoops strings True f) g found.vars trivial
  by_cases moved : (s.block, s.index) ∈ found.spots
  · exact .inr (skips lifted meets member here moved)
  · refine .inl (Track.copies_of_next unused meets here ?_ fun _ x m' n' _ passed => ?_)
    · rw [quad?_at graph spot]
      exact lifts.body s.block member ▸ remaining_getElem? here moved
    · have listed : q ∈ g.bodies := mem_flatMap.2 ⟨_, laid, mem_of_getElem? here⟩
      refine ⟨?_, ready.passed lifted member here moved (passed (stores q listed)).2⟩
      rw [spot, shift_next_of_not_mem moved]

/-- A function whose invariant code was lifted out of a loop keeps track of the old one. -/
theorem Lifts.sound (way : Underway strings True f g) (stores : ∀ q ∈ g.bodies, g.StoresToMemory q) (loop : g.HasLoop l)
    (lifted : Lifted g l f.memoryResident found) (lifts : Lifts g g' l found.spots pre gate)
    (bodies : ∀ q ∈ g'.bodies, q ∈ g.bodies) :
    (track (.onLoops strings True f) g l found).Sound (.onLoops strings True f) g g' := by
  have unused := unused (.onLoops strings True f) g found.vars trivial
  refine lifts.gateway.sound way.linked loop unused (fun v unshared => ?_) (fun s v out => out.1)
    (opens way loop lifted lifts) (fun _ _ _ _ _ _ _ => trivial) (fun _ _ => trivial)
    (fun below s m p' q graph meets => copies_or_skips stores lifted lifts graph meets)
    fun below s m p' graph meets member ended => ?_
  · have untaken := way.not_mem_addressTaken unshared
    exact iff_of_false (mt (addressTaken_mono bodies) untaken) untaken
  · obtain ⟨spot, ready⟩ := meets.follows.2.2.1 member
    have ended' : p'.quad? = none := by
      rw [quad?_at graph spot]
      exact lifts.body s.block member ▸ remaining_ended (getElem?_eq_none_iff.1 ended)
    refine Track.leaves_inside unused meets ended way.linked lifts.gateway.alike graph ended' (f := id) ?_
      (fun _ _ => rfl) fun c _ => ⟨rfl, ready.kept lifted fun _ _ _ => rfl⟩
    rw [tail_at graph spot, shift, lifts.tail s.block member]
    cases g.tail s.block <;> rfl

end Loop

/-! ## The pass -/

section Pass

variable {h k : Graph}

/-- The code after a move from the blocks of a loop, in a graph that may have more blocks. -/
theorem move_body_of_lifted (lifted : Lifted g l memory found) (same : ∀ b ∈ l.blocks, k.body b = g.body b)
    (inside : ∀ b ∈ l.blocks, b < k.blocks.size) (bound : pre < k.blocks.size) (outside : pre ∉ l.blocks) :
    (move k found.spots.reverse pre).body pre = k.body pre ++ quadsAt g found.spots.reverse ∧
      (∀ b ∈ l.blocks, (move k found.spots.reverse pre).body b = remaining g found.spots b) ∧
      ∀ b, b ∉ l.blocks → b ≠ pre → (move k found.spots.reverse pre).body b = k.body b := by
  have member {spot : Spot} (listed : spot ∈ found.spots.reverse) : spot.1 ∈ l.blocks := by
    obtain ⟨_, _, _, liftable, -⟩ := lifted.of_spot (mem_reverse.1 listed)
    exact liftable.inside
  have moved := move_body bound (fun spot listed => inside _ (member listed))
    fun spot listed front => outside (front ▸ member listed)
  refine ⟨?_, fun b listed => ?_, fun b away other => ?_⟩
  · rw [moved, if_pos rfl]
    refine congrArg _ (filterMap_congr fun spot listed => ?_)
    exact congrArg (·[spot.2]?) (same _ (member listed))
  · have other : b ≠ pre := fun front => outside (front ▸ listed)
    rw [moved, if_neg other, remaining, remaining, same b listed]
    simp
  · rw [moved, if_neg other]
    exact remaining_of_clear fun spot listed front => away (front ▸ member listed)

/-- Lifts code into the block in front of the loop, once the edges are fresh. -/
theorem move_underway (way : Underway strings True f g) (stores : ∀ q ∈ g.bodies, g.StoresToMemory q)
    (loop : g.HasLoop l) (lifted : Lifted g l f.memoryResident found) (fronts : g.Fronts h l pre) (linked : k.Linked)
    (alike : h.Alike k) (size : k.blocks.size = h.blocks.size) (entry : k.entry = h.entry)
    (layout : ∀ b ∈ k.layout, b ∈ h.layout) (body : ∀ b, k.body b = h.body b) (tail : ∀ b, k.tail b = h.tail b) :
    Underway strings True f (move k found.spots.reverse pre) := by
  obtain ⟨alike', tail'⟩ := moved_move k found.spots.reverse pre
  have shape := Kept.move_sameShape k found.spots.reverse pre
  have bound : ∀ b ∈ h.layout, b < k.blocks.size := fun b laid => size ▸ fronts.closed.lt_size b laid
  have laid : ∀ b ∈ l.blocks, b ∈ h.layout := fun b member =>
    (fronts.mem_layout b).2 (.inr (loop.mem_layout way.linked member))
  obtain ⟨at_pre, at_loop, elsewhere⟩ := move_body_of_lifted (k := k) lifted
    (fun b member => (body b).trans (fronts.loop_body b member)) (fun b member => bound b (laid b member))
    (bound pre ((fronts.mem_layout pre).2 (.inl rfl))) fronts.outside
  rw [body] at at_pre
  have lifts : Lifts g (move k found.spots.reverse pre) l found.spots pre (h.body pre).length := by
    refine ⟨fronts.gateway _ ?_ (fun b _ away other => ?_) ⟨_, at_pre⟩ (fun b _ _ _ => ?_)
      (shape.entry.trans entry), at_loop, fun b member => ?_, ⟨_, at_pre, rfl⟩, ?_⟩
    · exact (fronts.alike.trans alike).trans alike'
    · rw [elsewhere b away other, body]
    · rw [tail', tail]
    · rw [tail', tail, fronts.loop_tail b member]
    · rw [tail', tail, fronts.leads]
  have bodies : ∀ q ∈ (move k found.spots.reverse pre).bodies, q ∈ g.bodies := by
    intro q listed
    obtain ⟨b, laid', inside⟩ := mem_flatMap.1 listed
    rw [shape.layout] at laid'
    have kept (inside : q ∈ h.body b) : q ∈ g.bodies := fronts.bodies q (mem_flatMap.2 ⟨b, layout b laid', inside⟩)
    have old {c : BlockId} {i : Nat} (member : c ∈ l.blocks) (here : (g.body c)[i]? = some q) : q ∈ g.bodies :=
      mem_flatMap.2 ⟨c, loop.mem_layout way.linked member, mem_of_getElem? here⟩
    by_cases front : b = pre
    · rw [front, at_pre] at inside
      rcases mem_append.1 inside with early | late
      · exact kept (front ▸ early)
      · obtain ⟨spot, member, here⟩ := mem_filterMap.1 late
        obtain ⟨_, _, _, liftable, -⟩ := lifted.of_spot (mem_reverse.1 member)
        exact old liftable.inside here
    · by_cases member : b ∈ l.blocks
      · rw [at_loop b member] at inside
        obtain ⟨⟨q', i⟩, there, rfl⟩ := mem_map.1 inside
        exact old member (mem_zipIdx_iff_getElem?.1 (mem_filter.1 there).1)
      · exact kept (body b ▸ elsewhere b member front ▸ inside)
  refine way.edit (shape.linked linked) bodies (fun b laid' v named => ?_) (lifts.sound way stores loop lifted bodies)
  rw [tail', tail] at named
  exact fronts.tails b (layout b (shape.layout ▸ laid')) v named

variable {w : Work} {old : Context} (stores : ∀ q ∈ f.bodies, f.StoresToMemory q)
include stores

theorem hoist_onLoops (on : w.OnLoops strings True f old) (loop : w.graph.HasLoop l) :
    w.Goes strings True f old (hoist f.memoryResident l) := by
  refine on.ask (fun _ => trivial) (ensures_dominators on.coherent) fun d w₁ _ same₁ on => ?_
  refine on.ask (fun _ => trivial) (ensures_liveness on.coherent) fun live w₂ solved same₂ on => ?_
  have loop : w₂.graph.HasLoop l := same₂ ▸ same₁ ▸ loop
  simp only [ensures_bind, ensures_graph, ensures_ofExcept]
  refine ⟨fun spots done => ?_, fun _ _ => on.left fun _ => trivial⟩
  obtain ⟨found, lifted, rfl⟩ := invariants_lifted on.kept.linked loop (same₂ ▸ solved) done
  have stores := on.kept.stores stores
  split
  · exact on
  · rw [ensures_bind, Kept.ensures_preheader, Graph.fronted]
    cases front : l.preheader? w₂.graph with
    | some p =>
      have shape := Kept.move_sameShape w₂.graph found.spots.reverse p
      have way := move_underway on.kept stores loop lifted (fronts_preheader on.kept.linked loop front)
        on.kept.linked (.refl _) rfl rfl (fun _ => id) (fun _ => rfl) fun _ => rfl
      exact ⟨way, on.coherent.current.quadsOnly shape, on.coherent.fresh⟩
    | none =>
      have fronts := fronts_insertPreheader on.kept.linked loop w₂.supply
      have shape := Kept.move_sameShape (w₂.graph.insertPreheader l w₂.supply).2.1.relink found.spots.reverse
        (w₂.graph.insertPreheader l w₂.supply).1
      obtain ⟨linked, layout⟩ := fronts.closed.relink_linked
      have way := move_underway on.kept stores loop lifted fronts linked ⟨rfl, rfl, rfl⟩ (relink_size _) rfl
        layout (relink_body _) (relink_tail _)
      exact ⟨way, Analyses.Match.everything.quadsOnly shape, on.coherent.fresh⟩

omit stores in
theorem pass_underway {changed : Bool} {w' : Work} (linked : w.graph.Linked)
    (stores : ∀ q ∈ w.graph.bodies, w.graph.StoresToMemory q) (fresh : w.context.analyses = {})
    (done : Gives pass w changed w') : Underway strings True w.graph w'.graph := by
  have ensures : Ensures pass w (fun _ w' => Underway strings True w.graph w'.graph)
      (Work.Left (fun _ _ => True) w.context) := by
    have on : w.OnLoops strings True w.graph w.context := .start linked fresh
    rw [pass, ensures_bind, ensures_graph]
    exact (Kept.visitLoops (fun _ => trivial) (hoist_onLoops stores) _ _ _ on).bind fun total w' on => on.kept
  exact ensures.of_gives done

end Pass

/-- Moving the invariant code of one function of a module changes no successful run on which every quadruple
with a result gets a value and pointers lead only to globals and to variables whose address the owner of the
frame takes. The run may only stop early where a value is missing or of another type, after too many steps,
or at a variable that is in no table. -/
theorem motion_keeps_outcome {program : Module} {before after : List Graph} {w w' : Work} {changed : Bool}
    (listed : program.graphs = before ++ w.graph :: after) (linked : w.graph.Linked)
    (stores : ∀ q ∈ w.graph.bodies, w.graph.StoresToMemory q) (fresh : w.context.analyses = {})
    (moved : Gives pass w changed w') {entry : Label} {args : List Value} {input : List Int32} {outcome : Outcome}
    (ran : program.run entry args input = .ok outcome)
    (productive : ∀ p, program.Comes entry args input p → p.Productive program)
    (confined : ∀ p, program.Comes entry args input p → p.Confined) :
    Module.run { program with graphs := before ++ w'.graph :: after } entry args input = .ok outcome ∨
      ∃ e, Module.run { program with graphs := before ++ w'.graph :: after } entry args input = .error e ∧
        (e.Mild ∨ e = .fault ∧ ¬w.graph.Declared) :=
  (pass_underway linked stores fresh moved).run listed ran confined fun _ => productive

/-- The function without invariant code in its loops. -/
def lightened (f : Function) : Graph := (outcome pass ⟨f.graph, {}, {}⟩).2.graph

/-- Fills the array `a` with `k * 3 + 1`, stores to `x` through `p` and adds up. The variables `k`, `s`, `i`,
`t`, `u`, `a`, `x` and `p` are 0 to 7. -/
def summing : Function where
  name := "main"
  vars := #[.declare "k" .int .local, .declare "s" .int .local, .declare "i" .int .local,
    .declare "t" .int .local, .declare "u" .int .local, .declare "a" (.array .int 3) .local,
    .declare "x" .int .local, .declare "p" (.pointer .int) .local]
  quads := [
    ⟨some 0, .assign (.const (.int 2))⟩,
    ⟨some 1, .assign (.const (.int 0))⟩,
    ⟨some 2, .assign (.const (.int 0))⟩,
    ⟨some 7, .address 6⟩,
    .effect (.label "head"),
    .effect (.jumpIf .ge (.var 2) (.const (.int 3)) "exit"),
    ⟨some 3, .binOp .mul (.var 0) (.const (.int 3))⟩,
    ⟨some 4, .binOp .add (.var 3) (.const (.int 1))⟩,
    .effect (.store 5 (.var 2) (.var 4)),
    .effect (.derefStore 7 (.var 4)),
    ⟨some 1, .binOp .add (.var 1) (.var 6)⟩,
    ⟨some 2, .binOp .add (.var 2) (.const (.int 1))⟩,
    .effect (.goto "head"),
    .effect (.label "exit"),
    .effect (.print (.var 1)),
    .effect (.ret (some (.var 1)))]

theorem summing_keeps_outcome :
    (summing.module []).run "main" [] [] = .ok ⟨some (.int 21), "21"⟩ ∧ lightened summing ≠ summing.graph ∧
      (Module.run { summing.module [] with graphs := [lightened summing] } "main" [] [] = .ok ⟨some (.int 21), "21"⟩ ∨
        ∃ e, Module.run { summing.module [] with graphs := [lightened summing] } "main" [] [] = .error e ∧
          (e.Mild ∨ e = .fault ∧ ¬summing.graph.Declared)) := by
  have ran : (summing.module []).run "main" [] [] = .ok ⟨some (.int 21), "21"⟩ := by decide +kernel
  have watched : ∀ p ∈ (summing.module []).trace "main" [] [], p.Productive (summing.module []) ∧ p.Confined := by
    decide +kernel
  have moved : Gives pass ⟨summing.graph, {}, {}⟩ true (outcome pass ⟨summing.graph, {}, {}⟩).2 :=
    Prod.ext (by decide +kernel) rfl
  have listed : (summing.module []).graphs = [] ++ summing.graph :: [] := rfl
  refine ⟨ran, by decide +kernel, ?_⟩
  exact motion_keeps_outcome listed (summing.graph_linked rfl) (by decide +kernel) rfl moved ran
    (fun p comes => (watched p comes.mem_trace).1) fun p comes => (watched p comes.mem_trace).2

/-- Counts to 3 around a quadruple that is never reached and names a variable that is in no table. The
variables `i` and `t` are 0 and 1. -/
def straying : Function where
  name := "main"
  vars := #[.declare "i" .int .local, .declare "t" .int .local]
  quads := [
    ⟨some 0, .assign (.const (.int 0))⟩,
    .effect (.label "head"),
    .effect (.jumpIf .ge (.var 0) (.const (.int 3)) "exit"),
    .effect (.jumpIf .lt (.var 0) (.const (.int 7)) "next"),
    ⟨some 1, .binOp .add (.var 9) (.const (.int 1))⟩,
    .effect (.label "next"),
    ⟨some 0, .binOp .add (.var 0) (.const (.int 1))⟩,
    .effect (.goto "head"),
    .effect (.label "exit"),
    .effect (.ret (some (.var 0)))]

/-- Such a quadruple is moved to where it is reached. -/
theorem straying_faults : (∀ q ∈ straying.graph.bodies, straying.graph.StoresToMemory q) ∧
      (∀ p ∈ (straying.module []).trace "main" [] [], p.Productive (straying.module []) ∧ p.Confined) ∧
      (straying.module []).run "main" [] [] = .ok ⟨some (.int 3), ""⟩ ∧
      Module.run { straying.module [] with graphs := [lightened straying] } "main" [] [] = .error .fault := by
  decide +kernel

/-- Adds up multiples of `k`, which it never sets. The variables `n`, `k`, `t`, `i` and `s` are 0 to 4. -/
def scaling : Function where
  name := "main"
  vars := #[.declare "n" .int .param, .declare "k" .int .local, .declare "t" .int .local, .declare "i" .int .local,
    .declare "s" .int .local]
  params := [0]
  quads := [
    ⟨some 3, .assign (.const (.int 0))⟩,
    ⟨some 4, .assign (.const (.int 0))⟩,
    .effect (.label "head"),
    .effect (.jumpIfNot .lt (.var 3) (.var 0) "exit"),
    ⟨some 2, .binOp .mul (.var 1) (.const (.int 3))⟩,
    ⟨some 4, .binOp .add (.var 4) (.var 2)⟩,
    ⟨some 3, .binOp .add (.var 3) (.const (.int 1))⟩,
    .effect (.goto "head"),
    .effect (.label "exit"),
    .effect (.ret (some (.var 4)))]

/-- The optimization as a whole moves the undefined product in front of the loop, which is never entered. -/
theorem scaling_stops : (scaling.module []).run "main" [.int 0] [] = .ok ⟨some (.int 0), ""⟩ ∧
    ((scaling.module []).optimize {} {}).toOption.map (·.1.run "main" [.int 0] []) =
      some (.error (.error (.undefined "main"))) := by
  decide +kernel

end Quadcode.InvariantMotion
