import Quadcode.Proofs.Eval.Storage

/-!
# Variables of the running function

Each variable of a function has a place of its own, so a step changes the value of its result and of
what it stores to, and of no other variable.
-/

namespace Quadcode

/-- A global goes by one number in a function. -/
def Graph.NamesGlobalsOnce (g : Graph) : Prop :=
  ∀ u ∈ g.globals, ∀ v ∈ g.globals, varName g.vars u = varName g.vars v → u = v

instance (g : Graph) : Decidable g.NamesGlobalsOnce :=
  inferInstanceAs (Decidable (∀ u ∈ g.globals, ∀ v ∈ g.globals, _ → _))

theorem Graph.mem_globals {g : Graph} {v : VarId} : v ∈ g.globals ↔ ∃ x, g.vars[v]? = some x ∧ x.isGlobal := by
  unfold Graph.globals
  rw [List.mem_filter, List.mem_range, Array.getD_eq_getD_getElem?]
  by_cases inside : v < g.vars.size <;> simp [inside]

namespace Machine

variable {m n : Machine} {strings : StringPool} {g : Graph} {q : Quad} {u v : VarId} {x : Value}

theorem varValue_eq_ok : m.varValue g v = .ok x ↔ ∃ p, m.place g v = .ok p ∧ m.slot? p 0 = some x := by
  unfold varValue
  rw [bind_eq_ok]
  refine exists_congr fun p => and_congr_right fun _ => ?_
  unfold fetch
  cases m.slot? p 0 <;> simp

/-- Two variables of a function live in two places. -/
theorem place_inj (once : g.NamesGlobalsOnce) {p : Place} (first : m.place g u = .ok p) (second : m.place g v = .ok p) :
    u = v := by
  obtain ⟨x, found, rfl⟩ := place_eq_ok.1 first
  obtain ⟨y, found', same⟩ := place_eq_ok.1 second
  by_cases global : x.isGlobal
  · by_cases global' : y.isGlobal
    · simp only [global, global', if_true, Place.global.injEq] at same
      refine once u (Graph.mem_globals.2 ⟨x, found, global⟩) v (Graph.mem_globals.2 ⟨y, found', global'⟩) ?_
      simpa only [varName, found, found'] using same
    · simp [global, global'] at same
  · by_cases global' : y.isGlobal
    · simp [global, global'] at same
    · simp_all

/-- A local variable is found in the frame on top. -/
theorem push_varValue {frame : Frame} {var : Variable} (declared : g.vars[v]? = some var)
    (localVar : var.isGlobal = false) (valued : (m.push frame).varValue g v = .ok x) :
    ∃ slots, frame[v]? = some slots ∧ slots[0]? = some x := by
  obtain ⟨p, placed, slot⟩ := varValue_eq_ok.1 valued
  obtain ⟨_, found, rfl⟩ := place_eq_ok.1 placed
  cases declared.symm.trans found
  simp only [localVar, Bool.false_eq_true, if_false, slot?, slots?, push, Array.size_push,
    Nat.add_sub_cancel, Array.getElem?_push_size, Option.bind_some] at slot
  exact Option.bind_eq_some_iff.1 slot

theorem put_slot? (m : Machine) (p p' : Place) (offset i : Nat) (x : Value) : (m.put p offset x).slot? p' i =
      if p = p' ∧ offset = i then (m.slot? p' i).map fun _ => x else m.slot? p' i := by
  unfold slot?
  rw [put_slots?]
  by_cases same : p = p'
  · subst same
    cases m.slots? p with
    | none => simp
    | some slots =>
      by_cases here : offset = i
      · subst here
        by_cases inside : offset < slots.size
        · simp [inside]
        · simp [inside]
      · simp [here]
  · simp [same]

/-- The value of a variable after a step is its result, or was stored, or was there before. -/
theorem act_varValue (once : g.NamesGlobalsOnce) (acted : m.act strings g q = .ok n) (valued : n.varValue g v = .ok x) :
    ∃ e, m.effect strings g q.op = .ok e ∧
      ((q.result = some v ∧ e.result? = some x) ∨ (∃ p y, m.place g v = .ok p ∧ e = .write p 0 y) ∨
        (m.varValue g v = .ok x ∧ (q.result = some v → e.result? = none))) := by
  obtain ⟨e, d, done, delivered, rfl⟩ := act_eq_ok.1 acted
  refine ⟨e, done, ?_⟩
  obtain ⟨p, placed, slot⟩ := varValue_eq_ok.1 valued
  rw [place_congr ((deliver_frames_size _ _).trans (perform_frames_size m e))] at placed
  have performed : (m.perform e).slot? p 0 = some x → (∃ y, e = .write p 0 y) ∨ m.slot? p 0 = some x := by
    intro slot
    cases e with
    | write p' offset y =>
      rw [perform, put_slot?] at slot
      split at slot
      next same => exact .inl ⟨y, by rw [same.1, same.2]⟩
      · exact .inr slot
    | _ => exact .inr slot
  have kept : (q.result = some v → e.result? = none) → (m.perform e).slot? p 0 = some x →
      (∃ p y, m.place g v = .ok p ∧ e = .write p 0 y) ∨
        (m.varValue g v = .ok x ∧ (q.result = some v → e.result? = none)) := by
    intro unvalued slot
    rcases performed slot with ⟨y, written⟩ | before
    · exact .inl ⟨p, y, placed, written⟩
    · exact .inr ⟨varValue_eq_ok.2 ⟨p, placed, before⟩, unvalued⟩
  rw [destination_eq_ok] at delivered
  split at delivered
  next r y result value =>
    obtain ⟨p', placed', present, rfl⟩ := delivered
    rw [place_congr (perform_frames_size m e)] at placed'
    by_cases same : r = v
    · subst same
      rw [placed] at placed'
      cases placed'
      rw [deliver, put_slot?, if_pos ⟨rfl, rfl⟩] at slot
      obtain ⟨old, here⟩ := Option.isSome_iff_exists.1 present
      rw [here, Option.map_some, Option.some.injEq] at slot
      exact .inl ⟨result, value.trans (congrArg some slot)⟩
    · have other : p' ≠ p := fun here => same (place_inj once (here ▸ placed') placed)
      rw [deliver, put_slot?, if_neg fun here => other here.1] at slot
      exact .inr (kept (fun here => absurd (Option.some.inj (result.symm.trans here)) same) slot)
  next missing =>
    rw [delivered] at slot
    refine .inr (kept (fun here => ?_) slot)
    cases value : e.result? with
    | none => rfl
    | some y => exact (missing v y here value).elim

end Machine

end Quadcode
