import Quadcode.Proofs.Eval.Agreement
import Quadcode.Proofs.Eval.Confinement

/-!
# Variables out of sight

Two states agree but for some hidden variables when they differ only in the number of steps and in the
contents of these. A step that neither names a hidden variable nor comes to one through a pointer does the
same in both, and the states agree after it.
-/

namespace Quadcode

open List Option Array Machine

/-- A variable of some frame is out of sight. -/
abbrev Hidden := Nat → VarId → Prop

/-- No hidden variable lives at the place. -/
def Place.Seen (hidden : Hidden) : Place → Prop
  | .global _ => True
  | .local frame v => ¬hidden frame v

namespace Machine

variable {m n : Machine} {g : Graph} {strings : StringPool} {op : Op} {p : Place} {i : Nat} {x : Value} {v : VarId}
  {frame : Nat}

/-! ## Room -/

/-- The number of slots of a variable in a frame. -/
def room (m : Machine) (frame : Nat) (v : VarId) : Option Nat := (m.slots? (.local frame v)).map Array.size

@[simp]
theorem tick_room (m : Machine) : m.tick.room = m.room := rfl

@[simp]
theorem put_room (m : Machine) (p : Place) (i : Nat) (x : Value) : (m.put p i x).room = m.room := by
  funext frame v
  rw [room, room, put_slots?]
  split
  · simp [Function.comp_def]
  · rfl

@[simp]
theorem perform_room (m : Machine) (e : Effect) : (m.perform e).room = m.room := by
  cases e <;> first | exact put_room _ _ _ _ | rfl

@[simp]
theorem deliver_room (m : Machine) (d : Option (Place × Value)) : (m.deliver d).room = m.room := by
  cases d <;> first | exact put_room _ _ _ _ | rfl

theorem act_room {q : Quad} (acted : m.act strings g q = .ok n) : n.room = m.room := by
  obtain ⟨e, d, -, -, rfl⟩ := act_eq_ok.1 acted
  simp

/-- There is no room in a frame that is not there. -/
theorem room_of_size_le (m : Machine) (v : VarId) (gone : m.frames.size ≤ frame) : m.room frame v = none := by
  simp [room, slots?, Array.getElem?_eq_none gone]

theorem pop_room (m : Machine) (v : VarId) (below : frame + 1 < m.frames.size) :
    m.pop.room frame v = m.room frame v := by
  rw [room, room, pop_slots? m v below]

theorem push_room (m : Machine) (f : Frame) (v : VarId) (below : frame < m.frames.size) :
    (m.push f).room frame v = m.room frame v := by
  rw [room, room, push_slots? m f v below]

/-- A variable with one slot holds one value. -/
theorem slots?_of_single (single : m.room frame v = some 1) (here : m.slot? (.local frame v) 0 = some x) :
    m.slots? (.local frame v) = some #[x] := by
  obtain ⟨s, slots, size⟩ := map_eq_some_iff.1 single
  rw [slot?, slots, bind_some] at here
  obtain ⟨inside, rfl⟩ := Array.getElem?_eq_some_iff.1 here
  rw [slots]
  refine congrArg some (Array.ext size fun i bound _ => ?_)
  obtain rfl : i = 0 := by omega
  rfl

theorem put_slots?_of_single (single : m.room frame v = some 1) (x : Value) :
    (m.put (.local frame v) 0 x).slots? (.local frame v) = some #[x] := by
  refine slots?_of_single (by rw [put_room, single]) ?_
  obtain ⟨s, slots, size⟩ := map_eq_some_iff.1 single
  rw [slot?, put_slots?, if_pos rfl, slots, map_some, bind_some, getElem?_setIfInBounds]
  simp [size]

/-! ## Agreement -/

/-- The same state but for the number of steps and the contents of hidden variables. -/
structure Agrees (hidden : Hidden) (m n : Machine) : Prop where
  globals : n.globals = m.globals
  input : n.input = m.input
  output : n.output = m.output
  size : n.frames.size = m.frames.size
  room : n.room = m.room
  seen : ∀ frame v, ¬hidden frame v → n.slots? (.local frame v) = m.slots? (.local frame v)

/-- The variable of the running function is in sight. -/
def Sees (hidden : Hidden) (m : Machine) (v : VarId) : Prop := ¬hidden (m.frames.size - 1) v

namespace Agrees

variable {hidden hidden' : Hidden}

theorem refl (hidden : Hidden) (m : Machine) : Agrees hidden m m := ⟨rfl, rfl, rfl, rfl, rfl, fun _ _ _ => rfl⟩

section

variable (agrees : Agrees hidden m n)
include agrees

theorem symm : Agrees hidden n m where
  globals := agrees.globals.symm
  input := agrees.input.symm
  output := agrees.output.symm
  size := agrees.size.symm
  room := agrees.room.symm
  seen frame v seen := (agrees.seen frame v seen).symm

theorem mono (more : ∀ frame v, frame < m.frames.size → hidden frame v → hidden' frame v) : Agrees hidden' m n := by
  refine { agrees with seen := fun frame v seen => ?_ }
  by_cases inside : frame < m.frames.size
  · exact agrees.seen frame v fun covered => seen (more frame v inside covered)
  · have gone := Nat.le_of_not_lt inside
    simp [slots?, Array.getElem?_eq_none gone, Array.getElem?_eq_none (agrees.size ▸ gone)]

theorem tick_left : Agrees hidden m.tick n := { agrees with }

theorem tick_right : Agrees hidden m n.tick := { agrees with }

end

section Reading

variable (agrees : Agrees hidden m n) {a : Arg}
include agrees

theorem slots? (seen : p.Seen hidden) : n.slots? p = m.slots? p := by
  cases p with
  | «local» frame v => exact agrees.seen frame v seen
  | global name => simp [slots?, agrees.globals]

theorem isSome_slot? (p : Place) (i : Nat) : (n.slot? p i).isSome = (m.slot? p i).isSome := by
  cases p with
  | global name => simp [slot?, Machine.slots?, agrees.globals]
  | «local» frame v =>
    have same := congrFun (congrFun agrees.room frame) v
    unfold Machine.room at same
    unfold slot?
    generalize n.slots? (.local frame v) = s' at same
    generalize m.slots? (.local frame v) = s at same
    rcases s with - | s <;> rcases s' with - | s' <;> simp only [map_none, map_some,
      reduceCtorEq, Option.some.injEq] at same
    · rfl
    · rw [bind_some, bind_some]
      by_cases inside : i < s.size <;> simp [inside, same]

theorem place (v : VarId) : n.place g v = m.place g v := place_congr agrees.size

omit agrees in
theorem seen_place (sees : m.Sees hidden v) (placed : m.place g v = .ok p) : p.Seen hidden := by
  obtain ⟨x, -, rfl⟩ := place_eq_ok.1 placed
  split
  · trivial
  · exact sees

theorem fetch (seen : p.Seen hidden) (i : Nat) : n.fetch g p i = m.fetch g p i := by
  rw [Machine.fetch, Machine.fetch, slot?, slot?, agrees.slots? seen]

theorem varValue (sees : m.Sees hidden v) : n.varValue g v = m.varValue g v := by
  rw [Machine.varValue, Machine.varValue, agrees.place]
  cases placed : m.place g v with
  | error e => rfl
  | ok p => exact agrees.fetch (seen_place sees placed) 0

theorem arg (sees : ∀ v ∈ a.var?, m.Sees hidden v) : n.arg g a = m.arg g a := by
  cases a with
  | var v => exact agrees.varValue (sees v rfl)
  | const | str => rfl

theorem args {xs : List Arg} (sees : ∀ v ∈ xs.filterMap Arg.var?, m.Sees hidden v) : n.args g xs = m.args g xs := by
  unfold Machine.args
  induction xs with
  | nil => rfl
  | cons a rest ih =>
    have here : n.arg g a = m.arg g a := agrees.arg fun v named =>
      sees v (mem_filterMap.2 ⟨a, mem_cons_self, named⟩)
    have there := ih fun v listed => sees v (by
      obtain ⟨a', member, named⟩ := mem_filterMap.1 listed
      exact mem_filterMap.2 ⟨a', mem_cons_of_mem a member, named⟩)
    rw [mapM_cons, mapM_cons, here, there]

theorem index (sees : ∀ v ∈ a.var?, m.Sees hidden v) : n.index g a = m.index g a := by
  rw [Machine.index, Machine.index, agrees.arg sees]

theorem element {base : VarId} (sees : m.Sees hidden base) (i : Nat) : n.element g base i = m.element g base i := by
  unfold Machine.element
  rw [agrees.varValue sees, agrees.place]

theorem pointee (sees : m.Sees hidden v) : n.pointee g v = m.pointee g v := by
  rw [Machine.pointee, Machine.pointee, agrees.varValue sees]

theorem existing (p : Place) (i : Nat) : n.existing g p i = m.existing g p i := by
  have same := agrees.isSome_slot? p i
  unfold Machine.existing
  cases here : m.slot? p i <;> cases there : n.slot? p i <;> simp_all

theorem destination (r : Option VarId) (x : Option Value) : n.destination g r x = m.destination g r x := by
  cases r <;> cases x <;> simp only [Machine.destination, agrees.place, agrees.existing]

theorem next {t : Tail} (sees : ∀ v ∈ t.uses, m.Sees hidden v) : n.next g t = m.next g t := by
  have arg : ∀ a ∈ t.args, n.arg g a = m.arg g a := fun a member =>
    agrees.arg fun v named => sees v (mem_filterMap.2 ⟨a, member, named⟩)
  cases t with
  | branch c x y onTrue onFalse =>
    simp only [Machine.next, arg x (by simp [Tail.args]), arg y (by simp [Tail.args])]
  | ret x =>
    cases x with
    | none => rfl
    | some x => simp only [Machine.next, arg x (by simp [Tail.args])]
  | jump | fall => rfl

theorem reached? (sees : ∀ v ∈ op.args.filterMap Arg.var? ++ op.base?.toList, m.Sees hidden v) :
    n.reached? g op = m.reached? g op := by
  cases op with
  | load base i | store base i =>
    have index : n.index g i = m.index g i := agrees.index fun v named =>
      sees v (by simp_all [Op.args])
    have element : n.element g base = m.element g base := funext (agrees.element (sees base (by simp [Op.base?])))
    simp only [reached?, index, element]
  | deref v | derefStore v => simp only [reached?, agrees.pointee (sees v (by simp [Op.base?]))]
  | _ => rfl

/-- A quadruple that names no hidden variable and reaches none does the same in both states. -/
theorem effect (sees : ∀ v ∈ op.args.filterMap Arg.var? ++ op.base?.toList, m.Sees hidden v)
    (clear : ∀ slot ∈ m.reached? g op, slot.1.Seen hidden) : n.effect strings g op = m.effect strings g op := by
  have arg : ∀ a ∈ op.args, n.arg g a = m.arg g a := fun a member =>
    agrees.arg fun v named => sees v (mem_append_left _ (mem_filterMap.2 ⟨a, member, named⟩))
  have index : ∀ a ∈ op.args, n.index g a = m.index g a := fun a member => by
    rw [Machine.index, Machine.index, arg a member]
  cases op with
  | assign x | unOp _ x | print x => simp only [effect, arg x (by simp [Op.args])]
  | binOp _ x y | cmp _ x y =>
    simp only [effect, arg x (by simp [Op.args]), arg y (by simp [Op.args])]
  | address v => simp only [effect, agrees.place]
  | read => simp only [effect, agrees.input]
  | derefStore v x =>
    simp only [effect, arg x (by simp [Op.args]), agrees.pointee (sees v (by simp [Op.base?])), agrees.existing]
  | store base i x =>
    have element : n.element g base = m.element g base := funext (agrees.element (sees base (by simp [Op.base?])))
    simp only [effect, index i (by simp [Op.args]), arg x (by simp [Op.args]), element, agrees.existing]
  | deref v =>
    simp only [effect, agrees.pointee (sees v (by simp [Op.base?]))]
    cases found : m.pointee g v with
    | error e => rfl
    | ok slot =>
      have seen := clear slot (by simp [Machine.reached?, found, Except.toOption])
      exact congrArg (fun x => x >>= fun y => pure (Effect.value y)) (agrees.fetch seen slot.2)
  | load base i =>
    have sees_base := sees base (by simp [Op.base?])
    simp only [effect, index i (by simp [Op.args])]
    cases indexed : m.index g i with
    | error e => rfl
    | ok k =>
      dsimp only [bind, Except.bind]
      rw [agrees.element sees_base]
      cases found : m.element g base k with
      | error e => rfl
      | ok slot =>
        have seen : slot.1.Seen hidden := by
          by_cases pointer : (g.vars.getD base default).ty.isPointer
          · refine clear slot ?_
            simp only [Machine.reached?, pointer, if_true, indexed]
            rw [show (Except.ok k >>= fun i => m.element g base i) = .ok slot from found]
            rfl
          · unfold Machine.element at found
            split at found
            · cases found
            next x declared =>
              rw [getD_eq_getD_getElem?, declared, getD_some] at pointer
              rw [if_neg pointer, bind_eq_ok] at found
              obtain ⟨p, placed, same⟩ := found
              cases same
              exact seen_place sees_base placed
        dsimp only
        rw [agrees.fetch seen]
  | _ => rfl

end Reading

section Writing

variable (agrees : Agrees hidden m n)
include agrees

theorem put (p : Place) (i : Nat) (x : Value) : Agrees hidden (m.put p i x) (n.put p i x) where
  globals := by cases p <;> simp [Machine.put, agrees.globals]
  input := by cases p <;> simp [Machine.put, agrees.input]
  output := by cases p <;> simp [Machine.put, agrees.output]
  size := by simp [agrees.size]
  room := by simp [agrees.room]
  seen frame v seen := by rw [put_slots?, put_slots?, agrees.seen frame v seen]

theorem perform (e : Effect) : Agrees hidden (m.perform e) (n.perform e) := by
  cases e with
  | write p i x => exact agrees.put p i x
  | input x => exact { agrees with input := congrArg List.tail agrees.input }
  | output text => exact { agrees with output := congrArg (· ++ text) agrees.output }
  | nothing | value => exact agrees

theorem deliver (d : Option (Place × Value)) : Agrees hidden (m.deliver d) (n.deliver d) := by
  cases d with
  | none => exact agrees
  | some d => exact agrees.put d.1 0 d.2

/-- Nothing is hidden in a new frame. -/
theorem push (f : Frame) : Agrees (fun frame v => frame < m.frames.size ∧ hidden frame v) (m.push f) (n.push f) where
  __ := agrees
  size := by simp [Machine.push, agrees.size]
  room := by
    funext frame v
    have same := congrFun (congrFun agrees.room frame) v
    simp only [Machine.room, Machine.slots?, Machine.push, getElem?_push, agrees.size] at same ⊢
    split
    · rfl
    · exact same
  seen frame v seen := by
    simp only [Machine.slots?, Machine.push, getElem?_push, agrees.size]
    split
    · rfl
    · by_cases inside : frame < m.frames.size
      · exact agrees.seen frame v fun covered => seen ⟨inside, covered⟩
      · have gone := Nat.le_of_not_lt inside
        rw [Array.getElem?_eq_none gone, Array.getElem?_eq_none (agrees.size ▸ gone)]

theorem pop : Agrees hidden m.pop n.pop where
  __ := agrees
  size := by simp [Machine.pop, agrees.size]
  room := by
    funext frame v
    have same := congrFun (congrFun agrees.room frame) v
    simp only [Machine.room, Machine.slots?, Machine.pop, getElem?_pop, agrees.size] at same ⊢
    split
    · exact same
    · rfl
  seen frame v seen := by
    have same := agrees.seen frame v seen
    simp only [Machine.slots?, Machine.pop, getElem?_pop, agrees.size] at same ⊢
    split
    · exact same
    · rfl

/-- A variable with one slot is in sight again once both states have received the same value for it. -/
theorem reveal (single : m.room frame v = some 1) (x : Value) :
    Agrees (fun frame' v' => hidden frame' v' ∧ ¬(frame' = frame ∧ v' = v))
      (m.put (.local frame v) 0 x) (n.put (.local frame v) 0 x) := by
  refine { agrees.put (.local frame v) 0 x with seen := fun frame' v' seen => ?_ }
  by_cases same : frame' = frame ∧ v' = v
  · obtain ⟨rfl, rfl⟩ := same
    rw [put_slots?_of_single single, put_slots?_of_single (agrees.room ▸ single)]
  · exact (agrees.put (.local frame v) 0 x).seen frame' v' fun covered => seen ⟨covered, same⟩

/-- The first state receives a value that the second one has already. -/
theorem catch_up (single : m.room frame v = some 1) (here : n.slot? (.local frame v) 0 = some x) :
    Agrees (fun frame' v' => hidden frame' v' ∧ ¬(frame' = frame ∧ v' = v)) (m.put (.local frame v) 0 x) n where
  __ := agrees
  size := by simp [agrees.size]
  room := by simp [agrees.room]
  seen frame' v' seen := by
    by_cases same : frame' = frame ∧ v' = v
    · obtain ⟨rfl, rfl⟩ := same
      rw [put_slots?_of_single single, slots?_of_single (agrees.room ▸ single) here]
    · rw [put_slots?, if_neg (by rintro ⟨⟩; exact same ⟨rfl, rfl⟩)]
      exact agrees.seen frame' v' fun covered => seen ⟨covered, same⟩

/-- What is hidden may change in the second state. -/
theorem put_right (covered : hidden frame v) (i : Nat) (x : Value) : Agrees hidden m (n.put (.local frame v) i x) where
  __ := agrees
  size := by simp [agrees.size]
  room := by simp [agrees.room]
  seen frame' v' seen := by
    rw [put_slots?, if_neg (by rintro ⟨⟩; exact seen covered)]
    exact agrees.seen frame' v' seen

/-- What is hidden may change in the first state. -/
theorem put_left (covered : hidden frame v) (i : Nat) (x : Value) : Agrees hidden (m.put (.local frame v) i x) n :=
  (agrees.symm.put_right covered i x).symm

end Writing

end Agrees

end Machine

end Quadcode
