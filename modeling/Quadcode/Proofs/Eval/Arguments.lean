import Quadcode.Proofs.Eval.Agreement
import Quadcode.Proofs.Eval.Frames

/-!
# Arguments that come in

The arguments of a call are written to the first slots of the parameters. If no parameter is named twice,
the order does not matter, and some of them may as well be written by the first quadruples of the
function.
-/

namespace Quadcode

open List Array

variable {x : Variable} {g : Graph}

namespace Frame

variable {frame frame' : Frame} {p q : VarId} {a b : Value} {pairs : List (VarId × Value)}

/-- The variable has a slot for a value. -/
def HasSlot (frame : Frame) (p : VarId) : Prop := ((frame[p]?).bind (·[0]?)).isSome

instance : Decidable (frame.HasSlot p) := inferInstanceAs (Decidable (_ = true))

/-- Writes to the first slot of a variable. -/
def write (frame : Frame) (p : VarId) (a : Value) : Frame := frame.modify p (·.setIfInBounds 0 a)

/-- Writes values to variables, if all of them have a slot. -/
def fill : List (VarId × Value) → Frame → Option Frame
  | [], frame => some frame
  | (p, a) :: rest, frame => if frame.HasSlot p then fill rest (frame.write p a) else none

theorem enter_eq (g : Graph) (args : List Value) : enter g args =
    blank g >>= fun start => (fill (g.params.zip args) start).elim (.error .fault) .ok := by
  unfold enter
  refine congrArg (blank g >>= ·) (funext fun start => ?_)
  generalize g.params.zip args = pairs
  induction pairs generalizing start with
  | nil => rfl
  | cons pair rest ih =>
    obtain ⟨p, a⟩ := pair
    rw [foldlM_cons, fill]
    dsimp only
    split
    next x slot =>
      rw [if_pos (show HasSlot start p by simp [HasSlot, slot])]
      exact ih (write start p a)
    next slot =>
      rw [if_neg (show ¬HasSlot start p by simp [HasSlot, slot])]
      rfl

theorem write_getElem? (frame : Frame) (p : VarId) (a : Value) (v : VarId) :
    (frame.write p a)[v]? = if p = v then frame[v]?.map (·.setIfInBounds 0 a) else frame[v]? :=
  getElem?_modify

@[simp]
theorem hasSlot_write : (frame.write q a).HasSlot p ↔ frame.HasSlot p := by
  unfold HasSlot
  rw [write_getElem?]
  split
  · cases frame[p]? with
    | none => simp
    | some slots => simp
  · rfl

theorem write_comm (other : p ≠ q) : (frame.write p a).write q b = (frame.write q b).write p a := by
  refine ext_getElem? fun v => ?_
  simp only [write_getElem?]
  split <;> split <;> simp_all

theorem fill_append (front : List (VarId × Value)) (rest : List (VarId × Value)) (frame : Frame) :
    fill (front ++ rest) frame = (fill front frame).bind (fill rest) := by
  induction front generalizing frame with
  | nil => rfl
  | cons pair front ih =>
    rw [cons_append, fill, fill, ih]
    split <;> rfl

/-- Writes to different variables can be done in any order. -/
theorem fill_perm {pairs' : List (VarId × Value)} (perm : pairs.Perm pairs') (distinct : (pairs.map (·.1)).Nodup)
    (frame : Frame) : fill pairs frame = fill pairs' frame := by
  induction perm generalizing frame with
  | nil => rfl
  | cons pair _ ih =>
    rw [fill, fill, ih (nodup_cons.1 distinct).2]
  | swap x y rest =>
    have other : y.1 ≠ x.1 := by
      intro same
      simp [same] at distinct
    simp only [fill, hasSlot_write]
    split <;> split <;> simp [write_comm other]
  | trans first _ ih ih' => exact (ih distinct frame).trans (ih' ((first.map _).nodup_iff.1 distinct) frame)

theorem hasSlot_fill (filled : fill pairs frame = some frame') : frame'.HasSlot p ↔ frame.HasSlot p := by
  induction pairs generalizing frame with
  | nil =>
    cases filled
    rfl
  | cons pair rest ih =>
    rw [fill] at filled
    split at filled
    · exact (ih filled).trans hasSlot_write
    · cases filled

/-- Only a variable without a slot gets in the way. -/
theorem exists_of_fill_eq_none (stuck : fill pairs frame = none) : ∃ pair ∈ pairs, ¬frame.HasSlot pair.1 := by
  induction pairs generalizing frame with
  | nil => cases stuck
  | cons pair rest ih =>
    rw [fill] at stuck
    split at stuck
    · obtain ⟨other, member, none⟩ := ih stuck
      exact ⟨other, .tail _ member, fun slot => none (hasSlot_write.2 slot)⟩
    next none => exact ⟨pair, mem_cons_self, none⟩

theorem blank_akin {h : Graph} (akin : g.Akin h) : blank h = blank g := by
  have tys (k : Graph) : blank k = (k.vars.map (·.ty)).mapM (·.storage .undef) := by
    rw [Array.mapM_map]
    rfl
  rw [tys, tys, akin.tys]

/-- In a fresh frame, what has no slot is of a type without. -/
theorem slots_of_blank (blanked : blank g = .ok frame) (declared : g.vars[p]? = some x)
    (none : ¬frame.HasSlot p) : x.ty.slots? = some 0 := by
  have size : frame.size = g.vars.size := by
    unfold blank at blanked
    rw [mapM_eq_mapM_toList, map_eq_ok] at blanked
    obtain ⟨list, mapped, rfl⟩ := blanked
    simpa using (mapM_eq_ok.1 mapped).length_eq.symm
  obtain ⟨bound, -⟩ := Array.getElem?_eq_some_iff.1 declared
  obtain ⟨slots, here⟩ : ∃ slots, frame[p]? = some slots := ⟨_, getElem?_eq_getElem (size ▸ bound)⟩
  obtain ⟨y, declared', stored⟩ := blank_getElem? blanked here
  cases declared.symm.trans declared'
  obtain ⟨n, counted, rfl⟩ := storage_eq stored
  rw [counted]
  cases n with
  | zero => rfl
  | succ n => exact absurd (by simp [HasSlot, here]) none

end Frame

namespace Machine

variable {program : Module} {fuel : Nat} {m n : Machine} {frame frame' : Frame}

/-- Quadruples that set variables to constants. -/
def settings (pairs : List (VarId × Const)) : List Quad := pairs.map fun (p, c) => ⟨some p, .assign (.const c)⟩

/-- A variable of the running function that is not global lives in the frame. -/
theorem quad_setting {p : VarId} {c : Const} (declared : g.vars[p]? = some x)
    (owned : x.isGlobal = false) (slot : frame.HasSlot p) :
    (m.push frame).quad program fuel g ⟨some p, .assign (.const c)⟩ =
      (.ok (), m.push (frame.write p (.ofConst c))) := by
  have place : (m.push frame).place g p = .ok (.local m.frames.size p) := by
    rw [Machine.place, declared]
    simp [owned, push]
  have there : ((m.push frame).slot? (.local m.frames.size p) 0).isSome := by
    simpa [slot?, slots?, push, Frame.HasSlot] using slot
  have destination : (m.push frame).destination g (some p) (some (.ofConst c)) =
      .ok (some (.local m.frames.size p, .ofConst c)) :=
    destination_eq_ok.2 ⟨_, place, there, rfl⟩
  have put : (m.push frame).put (.local m.frames.size p) 0 (.ofConst c) = m.push (frame.write p (.ofConst c)) := by
    have top : (m.frames.push frame).modify m.frames.size (·.write p (.ofConst c)) =
        m.frames.push (frame.write p (.ofConst c)) := by
      refine ext_getElem? fun i => ?_
      rw [Array.getElem?_modify, Array.getElem?_push, Array.getElem?_push]
      by_cases same : i = m.frames.size
      · simp [same]
      · simp [same, Ne.symm same]
    exact congrArg (fun frames => { m with frames }) top
  rw [quad_act (by simp)]
  simp only [effect, arg, pure, Except.pure, bind, Except.bind, andThen, perform, Effect.result?,
    destination, deliver, put]

/-- Code that sets variables first goes on as if they had been set in the first place, or is cut off. -/
theorem exec_settings {pairs : List (VarId × Const)} {rest : List Quad} {tail : Tail}
    (owned : ∀ pair ∈ pairs, ∃ x, g.vars[pair.1]? = some x ∧ x.isGlobal = false)
    (filled : frame.fill (pairs.map fun (p, c) => (p, .ofConst c)) = some frame') (same : (m.push frame).Same n) :
    (exec program fuel g (settings pairs ++ rest) tail n).1 = .error .outOfSteps ∨ ∃ fuel' n', (m.push frame').Same n' ∧
        exec program fuel g (settings pairs ++ rest) tail n = exec program fuel' g rest tail n' := by
  induction pairs generalizing frame fuel n with
  | nil =>
    obtain rfl : frame = frame' := Option.some.inj filled
    exact .inr ⟨fuel, n, same, rfl⟩
  | cons pair pairs ih =>
    obtain ⟨⟨x, declared, own⟩, others⟩ := forall_mem_cons.1 owned
    rw [map_cons, Frame.fill] at filled
    split at filled
    next slot =>
      cases fuel with
      | zero => exact .inl rfl
      | succ fuel =>
        obtain ⟨steps, ticked⟩ := same.tick_right
        have set : n.tick.quad program fuel g ⟨some pair.1, .assign (.const pair.2)⟩ =
            (.ok (), push { m with steps } (frame.write pair.1 (.ofConst pair.2))) := by
          rw [ticked]
          exact quad_setting (m := { m with steps }) declared own slot
        rw [settings, map_cons, cons_append, exec_cons, stepped]
        split
        · exact .inl rfl
        · rw [set]
          exact ih others filled ⟨steps, rfl⟩
    · cases filled

end Machine

end Quadcode
