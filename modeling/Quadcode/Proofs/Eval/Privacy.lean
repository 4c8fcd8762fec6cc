import Quadcode.Proofs.Eval.Endings
import Quadcode.Proofs.Eval.Frames
import Quadcode.Proofs.Eval.Variables
import Quadcode.Proofs.Eval.Visibility
import Quadcode.Proofs.Graph.Residence

/-!
# Private variables

A scalar of a function that is no global is private if pointers never lead to it. A quadruple of the
function changes it only if it is the result, and an activation changes no private variable of those below.
-/

namespace Quadcode

open List Option Machine

variable {d : Option (Place × Value)} {shared : VarSet} {k m n : Machine} {p : Point} {v : VarId} {y x : Option Value}
  {r : Option VarId} {q : Quad} {frame : Frame} {g : Graph}

/-- A scalar of the function's own that no pointer leads to. -/
structure Graph.Private (g : Graph) (shared : VarSet) (v : VarId) : Prop where
  scalar : ∃ x, g.vars[v]? = some x ∧ x.isGlobal = false ∧ x.ty.isScalar
  untaken : v ∉ g.addressTaken
  unshared : v ∉ shared

/-- A store by name goes to an aggregate, or through a pointer. -/
def Graph.StoresToMemory (g : Graph) (q : Quad) : Prop :=
  ∀ base i x, q.op = .store base i x → ∃ y, g.vars[base]? = some y ∧ (y.ty.isScalar = false ∨ y.ty.isPointer)

/-- The base of a store by name. -/
def Op.stored? : Op → Option VarId
  | .store base _ _ => some base
  | _ => none

instance (g : Graph) (q : Quad) : Decidable (g.StoresToMemory q) :=
  decidable_of_iff (∀ base ∈ q.op.stored?, ∃ y ∈ g.vars[base]?, y.ty.isScalar = false ∨ y.ty.isPointer) <| by
    unfold Graph.StoresToMemory
    cases q.op <;> simp [Op.stored?]

theorem Ty.slots?_of_isScalar {t : Ty} (scalar : t.isScalar) : t.slots? = some 1 := by
  cases t <;> first | rfl | cases scalar

namespace Machine

variable {a : Arg}

/-- The value of a variable in the frame on top. -/
def top (m : Machine) (v : VarId) : Option Value := m.slot? (.local (m.frames.size - 1) v) 0

/-- The frame on top has one slot for each scalar of the function. -/
def Shaped (m : Machine) (g : Graph) : Prop :=
  ∀ v x, g.vars[v]? = some x → x.ty.isScalar → m.room (m.frames.size - 1) v = some 1

theorem Shaped.of_room (shaped : m.Shaped g) (size : n.frames.size = m.frames.size) (room : n.room = m.room) :
    n.Shaped g := by
  intro v x declared scalar
  rw [room, size]
  exact shaped v x declared scalar

theorem Shaped.top (shaped : m.Shaped g) (hides : g.Private shared v) : ∃ y, m.top v = some y := by
  obtain ⟨x, declared, -, scalar⟩ := hides.scalar
  obtain ⟨slots, here, size⟩ := map_eq_some_iff.1 (shaped v x declared scalar)
  refine ⟨slots[0], ?_⟩
  simp [Machine.top, slot?, here]

/-- A private variable has its place in the frame on top. -/
theorem place_of_private (hides : g.Private shared v) : m.place g v = .ok (.local (m.frames.size - 1) v) := by
  obtain ⟨x, declared, owned, -⟩ := hides.scalar
  exact place_eq_ok.2 ⟨x, declared, by simp [owned]⟩

theorem varValue_of_top {y : Value} (hides : g.Private shared v) : m.varValue g v = .ok y ↔ m.top v = some y := by
  rw [varValue_eq_ok]
  constructor
  · rintro ⟨p, placed, here⟩
    cases (place_of_private hides).symm.trans placed
    exact here
  · exact fun here => ⟨_, place_of_private hides, here⟩

/-- What an argument comes to depends only on the private variables that it names. -/
theorem arg_congr_top (hides : ∀ v ∈ a.var?, g.Private shared v) (top : ∀ v ∈ a.var?, n.top v = m.top v) :
    n.arg g a = m.arg g a := by
  cases a with
  | var v =>
    have same : n.slot? (.local (n.frames.size - 1) v) 0 = m.slot? (.local (m.frames.size - 1) v) 0 := top v rfl
    rw [arg, arg, varValue, varValue, place_of_private (hides v rfl), place_of_private (hides v rfl)]
    simp only [bind, Except.bind, fetch, same]
  | const | str => rfl

/-- Arguments that name private variables come to values. -/
theorem Shaped.arg (shaped : m.Shaped g) (hides : ∀ v ∈ a.var?, g.Private shared v) : ∃ x, m.arg g a = .ok x := by
  cases a with
  | var v =>
    obtain ⟨x, here⟩ := shaped.top (hides v rfl)
    exact ⟨x, (varValue_of_top (hides v rfl)).2 here⟩
  | const | str => exact ⟨_, rfl⟩

/-- A private variable can receive a value. -/
theorem Shaped.destination (shaped : m.Shaped g) (hides : g.Private shared v) (x : Value) :
    m.destination g (some v) (some x) = .ok (some (.local (m.frames.size - 1) v, x)) := by
  obtain ⟨y, here⟩ := shaped.top hides
  refine destination_eq_ok.2 ⟨_, place_of_private hides, ?_, rfl⟩
  exact isSome_iff_exists.2 ⟨y, here⟩

/-! ## Passing a quadruple -/

/-- Of the private variables, only the result of a quadruple has changed, if there was a value for it. -/
structure Passed (shared : VarSet) (g : Graph) (q : Quad) (x : Option Value) (m n : Machine) : Prop where
  size : n.frames.size = m.frames.size
  top : ∀ v, g.Private shared v → n.top v = if q.result = some v then x.or (m.top v) else m.top v

theorem deliver_top (hides : g.Private shared v) (delivered : m.destination g r x = .ok d) :
    (m.deliver d).top v = if r = some v then x.or (m.top v) else m.top v := by
  have placed := place_of_private (m := m) hides
  rw [top, deliver_frames_size, slot?]
  by_cases same : r = some v
  · subst same
    rw [if_pos rfl]
    cases x with
    | none =>
      cases delivered
      rfl
    | some x =>
      obtain ⟨p, placed', present, rfl⟩ := destination_eq_ok.1 delivered
      cases placed.symm.trans placed'
      obtain ⟨old, here⟩ := isSome_iff_exists.1 present
      rw [some_or, deliver, ← slot?, put_slot?, if_pos ⟨rfl, rfl⟩, here]
      rfl
  · rw [if_neg same, deliver_slots? delivered, top, slot?]
    intro u result placed'
    obtain ⟨y, -, at_u⟩ := place_eq_ok.1 placed'
    split at at_u
    · cases at_u
    · cases at_u
      exact same result

end Machine

namespace Point

variable {strings : StringPool} {e : Effect} {h : Graph}

/-- An operation stores to no private variable of the running function or of those below it. -/
theorem Fenced.perform_slots? (fenced : p.Fenced shared) (next : p.quad? = some q)
    (done : p.machine.tick.effect strings p.graph q.op = .ok e) {frame : Nat}
    (owner : (p.callers ++ [p.graph])[frame]? = some h) (untaken : v ∉ h.addressTaken)
    (unshared : v ∉ shared)
    (unnamed : ∀ base i x var, q.op = .store base i x → p.graph.vars[base]? = some var →
      var.ty.isPointer = false → p.machine.tick.place p.graph base ≠ .ok (.local frame v)) :
    (p.machine.tick.perform e).slots? (.local frame v) = p.machine.slots? (.local frame v) := by
  rw [Machine.perform_slots?, Machine.tick_slots?]
  rintro offset x rfl
  rcases Machine.write_place done with ⟨base, i, y, var, store, declared, direct, placed⟩ | reached
  · exact unnamed base i y var store declared direct placed
  · obtain ⟨h', owner', exposed⟩ := fenced q next _ reached
    cases Option.some.inj (owner.symm.trans owner')
    exact exposed.elim untaken unshared

/-- Where a function stores to memory only, its quadruples leave its private variables alone but for the
result. -/
theorem Fenced.passed (fenced : p.Fenced shared) (framed : p.Framed) (next : p.quad? = some q)
    (safe : p.graph.StoresToMemory q) (done : p.machine.tick.effect strings p.graph q.op = .ok e)
    (acted : p.machine.tick.act strings p.graph q = .ok n) : Machine.Passed shared p.graph q e.result? p.machine n := by
  obtain ⟨_, d, done', delivered, rfl⟩ := act_eq_ok.1 acted
  cases done.symm.trans done'
  refine ⟨by simp, fun v hides => ?_⟩
  have size : p.machine.frames.size - 1 = p.callers.length := by
    rw [framed]
    rfl
  have kept : (p.machine.tick.perform e).top v = p.machine.top v := by
    rw [top, top, perform_frames_size, tick_frames, slot?,
      slot?, size, fenced.perform_slots? next done (by simp) hides.untaken hides.unshared]
    intro base i x var store declared direct placed
    obtain ⟨var', declared', aggregate⟩ := safe base i x store
    cases declared.symm.trans declared'
    -- The base is an aggregate, so it is another variable.
    obtain ⟨_, declared'', at_base⟩ := place_eq_ok.1 placed
    split at at_base
    · cases at_base
    · obtain ⟨-, rfl⟩ := Place.local.inj at_base
      obtain ⟨y, found, -, scalar⟩ := hides.scalar
      cases found.symm.trans declared
      simp_all
  rw [deliver_top hides delivered, kept]

/-! ## Activations -/

/-- A store that is about to be made goes to a variable of the running function or to an exposed place. -/
def Contained (shared : VarSet) (strings : StringPool) (p : Point) : Prop := ∀ q ∈ p.quad?, ∀ place offset x,
    p.machine.effect strings p.graph q.op = .ok (.write place offset x) →
      (∃ v, p.machine.place p.graph v = .ok place) ∨ p.Exposed shared place

theorem Fenced.contained (fenced : p.Fenced shared) (strings : StringPool) : p.Contained shared strings := by
  intro q next place offset x stored
  rcases write_place stored with ⟨base, -, -, -, -, -, -, placed⟩ | reached
  · exact .inl ⟨base, placed⟩
  · exact .inr (fenced q next _ reached)

/-- The private variables of the suspended activations are as they were, and all frames have their shape. -/
structure Spared (shared : VarSet) (callers : List Graph) (m n : Machine) : Prop where
  size : n.frames.size = m.frames.size
  room : n.room = m.room
  slots : ∀ frame h v, callers[frame]? = some h → v ∉ h.addressTaken → v ∉ shared →
    n.slots? (.local frame v) = m.slots? (.local frame v)

theorem Spared.tick (shared : VarSet) (callers : List Graph) (m : Machine) : Spared shared callers m m.tick :=
  ⟨rfl, rfl, fun _ _ _ _ _ _ => rfl⟩

theorem Spared.trans {callers : List Graph} (first : Spared shared callers m k) (second : Spared shared callers k n) :
    Spared shared callers m n :=
  ⟨second.size.trans first.size, second.room.trans first.room, fun frame h v owner untaken unshared =>
    (second.slots frame h v owner untaken unshared).trans (first.slots frame h v owner untaken unshared)⟩

/-- A quadruple leaves a variable of a suspended activation alone unless it is exposed. -/
theorem Contained.spared (contained : p.Contained shared strings) (framed : p.Framed) (next : p.quad? = some q)
    (acted : p.machine.tick.act strings p.graph q = .ok n) : Spared shared p.callers p.machine n := by
  refine ⟨(act_frames_size acted :), (act_room acted :), fun frame h v owner untaken unshared => ?_⟩
  have inside : frame < p.callers.length := (List.getElem?_eq_some_iff.1 owner).1
  have below : frame + 1 < p.machine.tick.frames.size := by
    rw [tick_frames, framed]
    omega
  rw [act_slots? acted, tick_slots?]
  · intro offset x stored
    rcases contained q next _ offset x stored with ⟨u, placed⟩ | ⟨h', owner', exposed⟩
    · exact place_ne_local below placed
    · rw [getElem?_append_left inside, owner] at owner'
      cases owner'
      exact exposed.elim untaken unshared
  · exact fun u _ => place_ne_local below

/-- What a callee spares of the activations below it is what its caller finds. -/
theorem Spared.pop (framed : p.Framed) (spared : Spared shared (p.callers ++ [p.graph]) (p.into h frame).machine k) :
    Spared shared (p.callers ++ [p.graph]) p.machine k.pop := by
  have depth : k.frames.size = p.callers.length + 2 := by
    rw [spared.size, framed.into]
    simp [Point.into, Point.start]
  have size : k.pop.frames.size = p.machine.frames.size := by
    rw [framed]
    simp [Machine.pop, depth]
  unfold Framed at framed
  refine ⟨size, ?_, fun j owner v owns untaken unshared => ?_⟩
  · funext j v
    by_cases inside : j < p.callers.length + 1
    · rw [pop_room _ _ (by omega), spared.room]
      exact push_room _ _ _ (by rw [tick_frames]; omega)
    · rw [room_of_size_le _ _ (by omega), room_of_size_le _ _ (by omega)]
  · have inside : j < p.callers.length + 1 := by
      simpa using (List.getElem?_eq_some_iff.1 owns).1
    rw [pop_slots? _ _ (by omega), spared.slots j owner v owns untaken unshared]
    exact push_slots? _ _ _ (by rw [tick_frames]; omega)

/-- The result of a call goes to a variable of the running function. -/
theorem Spared.deliver (spared : Spared shared (p.callers ++ [p.graph]) p.machine k) (framed : p.Framed)
    (back : k.destination p.graph r y = .ok d) : Spared shared p.callers p.machine (k.deliver d) := by
  refine ⟨(deliver_frames_size _ _).trans spared.size, (deliver_room _ _).trans spared.room,
    fun j h v owner untaken unshared => ?_⟩
  have inside : j < p.callers.length := (List.getElem?_eq_some_iff.1 owner).1
  have below : j + 1 < k.frames.size := by
    rw [spared.size, framed]
    omega
  rw [deliver_slots? back fun u _ => place_ne_local below]
  exact spared.slots j h v (by rw [getElem?_append_left inside, owner]) untaken unshared

end Point

section Activations

variable {program : Module} {w : Watch}

/-- An activation within the limit of steps spares the ones below it. -/
theorem Runs.spares (run : Runs program p x n) (framed : p.Framed)
    (contained : ∀ r, Visits program p r → r.Contained shared program.strings) :
    Point.Spared shared p.callers p.machine n := by
  induction run with
  | ret => exact .tick ..
  | jump next live jumped more ih =>
    exact (Point.Spared.tick ..).trans (ih (framed.goto _) fun r visits => contained r (.jump next live jumped visits))
  | act next plain live acted more ih =>
    have here := (contained _ .here).spared framed next acted
    exact here.trans (ih (framed.advance here.size) fun r visits => contained r (.act next plain live acted visits))
  | call next call live evaluated found entered first back more inner outer =>
    have callee := inner (framed.into _ _) fun r visits =>
      contained r (.into next call live evaluated found entered visits)
    have here := (callee.pop framed).deliver framed back
    exact here.trans (outer (framed.advance here.size) fun r visits =>
      contained r (.past next call live evaluated found entered first back visits))

/-- An activation spares the ones below it. -/
theorem Ends.spares (ends : Ends program w p (.ok (x, n))) (framed : p.Framed) :
    Point.Spared w.shared p.callers p.machine n := by
  generalize ended : (Except.ok (x, n) : Except Stop (Option Value × Machine)) = r at ends
  induction ends generalizing x n with
  | ret =>
    cases ended
    exact .tick ..
  | jump next _ jumped more ih => exact (Point.Spared.tick ..).trans (ih (framed.goto _) ended)
  | act next plain fenced done served acted more ih =>
    have here := (fenced.contained _).spared framed next acted
    exact here.trans (ih (framed.advance here.size) ended)
  | call next call admitted first served back more inner outer =>
    have here := ((inner (framed.into _ _) rfl).pop framed).deliver framed back
    exact here.trans (outer (framed.advance here.size) ended)
  | lost | stuck | refused | broken | unserved => cases ended

end Activations

/-- The private variables of a function are as they were after a call, but for the result. -/
theorem Point.Spared.passed (framed : p.Framed) (spared : Spared shared (p.callers ++ [p.graph]) p.machine k)
    (back : k.destination p.graph q.result y = .ok d) : Machine.Passed shared p.graph q y p.machine (k.deliver d) := by
  refine ⟨(deliver_frames_size _ _).trans spared.size, fun v hides => ?_⟩
  have kept : k.top v = p.machine.top v := by
    have size : p.machine.frames.size - 1 = p.callers.length := by
      rw [framed]
      rfl
    rw [top, top, slot?, slot?, spared.size, size, spared.slots _ p.graph v (by simp) hides.untaken hides.unshared]
  rw [deliver_top hides back, kept]

namespace Frame

variable {args : List Value}

/-- The arguments leave every variable its number of slots. -/
theorem enter_size (entered : enter g args = .ok frame) (v : VarId) :
    ∃ start, blank g = .ok start ∧ frame[v]?.map Array.size = start[v]?.map Array.size := by
  unfold enter at entered
  rw [bind_eq_ok] at entered
  obtain ⟨start, blanked, filled⟩ := entered
  refine ⟨start, blanked, ?_⟩
  refine foldlM_ok (fun _ (f : Frame) => f[v]?.map Array.size = start[v]?.map Array.size) rfl ?_ filled
  rintro done ⟨u, a⟩ rest f f' split before step
  simp only at step
  split at step
  · cases step
    rw [← before, Array.getElem?_modify]
    split
    · simp [Function.comp_def]
    · rfl
  · cases step

/-- A fresh frame has the shape of its function. -/
theorem enter_shaped (m : Machine) (entered : enter g args = .ok frame) : (m.push frame).Shaped g := by
  intro v x declared scalar
  obtain ⟨start, blanked, same⟩ := enter_size entered v
  obtain ⟨slots, here, stored⟩ := blank_of_declared blanked declared
  obtain ⟨n, counted, rfl⟩ := storage_eq stored
  rw [Ty.slots?_of_isScalar scalar] at counted
  cases counted
  rw [here, map_some, Array.size_replicate] at same
  simpa [room, slots?, push] using same

end Frame

end Quadcode
