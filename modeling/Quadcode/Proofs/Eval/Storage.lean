import Quadcode.Proofs.Eval.Execution

/-!
# What a step writes

A quadruple other than a call writes at most two places: the one its operation stores to and the one
of its result. Everything else stays as it was, and so does the number of frames.
-/

namespace Quadcode

namespace Machine

variable {m n : Machine} {strings : StringPool} {g : Graph} {q : Quad}

/-! ## Slots -/

@[simp] theorem tick_slots? (m : Machine) (p : Place) : m.tick.slots? p = m.slots? p := by
  cases p <;> rfl

@[simp] theorem tick_frames (m : Machine) : m.tick.frames = m.frames := rfl
@[simp] theorem tick_arg (m : Machine) (g : Graph) (a : Arg) : m.tick.arg g a = m.arg g a := rfl
@[simp] theorem tick_place (m : Machine) (g : Graph) (v : VarId) : m.tick.place g v = m.place g v := rfl

/-- The contents of a variable after a write. -/
theorem put_slots? (m : Machine) (p p' : Place) (offset : Nat) (x : Value) : (m.put p offset x).slots? p' =
      if p = p' then (m.slots? p').map (·.setIfInBounds offset x) else m.slots? p' := by
  cases p with
  | «local» frame v =>
    cases p' with
    | «local» frame' v' =>
      simp only [put, slots?, Array.getElem?_modify, Place.local.injEq]
      by_cases same : frame = frame'
      · subst same
        cases m.frames[frame]? with
        | none => simp
        | some f => simp [Array.getElem?_modify]
      · simp [same]
    | global name => simp [put, slots?]
  | global name =>
    cases p' with
    | «local» frame' v' => simp [put, slots?]
    | global name' =>
      simp only [put, slots?, Place.global.injEq]
      rw [Std.ExtTreeMap.getElem?_modify]
      simp only [Std.LawfulEqCmp.compare_eq_iff_eq]
      split
      next same => simp [same]
      · rfl

@[simp]
theorem put_frames_size (m : Machine) (p : Place) (offset : Nat) (x : Value) :
    (m.put p offset x).frames.size = m.frames.size := by
  cases p <;> simp [put]

variable {p : Place} {frame : Nat} {v : VarId} {d : Option (Place × Value)} {x : Option Value} {r : Option VarId}

theorem push_slots? (m : Machine) (f : Frame) (v : VarId) (below : frame < m.frames.size) :
    (m.push f).slots? (.local frame v) = m.slots? (.local frame v) := by
  simp [push, slots?, Array.getElem?_push, Nat.ne_of_lt below]

theorem pop_slots? (m : Machine) (v : VarId) (below : frame + 1 < m.frames.size) :
    m.pop.slots? (.local frame v) = m.slots? (.local frame v) := by
  simp only [pop, slots?, Array.getElem?_pop]
  rw [if_pos (by omega)]

theorem place_eq_ok : m.place g v = .ok p ↔ ∃ x, g.vars[v]? = some x ∧
      p = if x.isGlobal then .global x.name else .local (m.frames.size - 1) v := by
  unfold place
  cases g.vars[v]? with
  | none => simp
  | some x => simp [eq_comm (b := p)]

/-- A function names no variable of the frames below its own. -/
theorem place_ne_local {u : VarId} (below : frame + 1 < m.frames.size) : m.place g u ≠ .ok (.local frame v) := by
  intro placed
  obtain ⟨x, -, same⟩ := place_eq_ok.1 placed
  split at same
  · cases same
  · cases same
    omega

theorem existing_eq_ok {offset : Nat} {r : Place × Nat} :
    m.existing g p offset = .ok r ↔ (m.slot? p offset).isSome ∧ r = (p, offset) := by
  unfold existing
  cases m.slot? p offset <;> simp [eq_comm]

/-! ## Steps -/

theorem act_eq_ok : m.act strings g q = .ok n ↔ ∃ e d, m.effect strings g q.op = .ok e ∧
    (m.perform e).destination g q.result e.result? = .ok d ∧ n = (m.perform e).deliver d := by
  simp [act, eq_comm (a := n)]

theorem act_eq_error {e : Stop} : m.act strings g q = .error e ↔ m.effect strings g q.op = .error e ∨
    ∃ f, m.effect strings g q.op = .ok f ∧ (m.perform f).destination g q.result f.result? = .error e := by
  simp [act, bind_eq_error, pure, Except.pure]

/-- The result variable receives its value at its place. -/
theorem destination_eq_ok : m.destination g r x = .ok d ↔ match r, x with
      | some r, some x => ∃ p, m.place g r = .ok p ∧ (m.slot? p 0).isSome ∧ d = some (p, x)
      | _, _ => d = none := by
  unfold destination
  cases r with
  | none => simp [eq_comm]
  | some r =>
    cases x with
    | none => simp [eq_comm]
    | some x => simp [existing_eq_ok, and_assoc, eq_comm (a := d)]

/-- What an operation does to the contents of a place. -/
theorem perform_slots? {e : Effect} (unwritten : ∀ offset x, e ≠ .write p offset x) :
    (m.perform e).slots? p = m.slots? p := by
  cases e with
  | write p' offset x =>
    have other : p' ≠ p := fun same => unwritten offset x (by rw [same])
    rw [perform, put_slots?, if_neg other]
  | _ => cases p <;> rfl

@[simp]
theorem perform_frames_size (m : Machine) (e : Effect) : (m.perform e).frames.size = m.frames.size := by
  cases e <;> simp [perform]

@[simp]
theorem deliver_frames_size (m : Machine) (d : Option (Place × Value)) : (m.deliver d).frames.size = m.frames.size := by
  cases d <;> simp [deliver]

theorem place_congr (same : n.frames.size = m.frames.size) : n.place g v = m.place g v := by
  unfold place
  rw [same]

theorem deliver_slots? (delivered : m.destination g r x = .ok d) (elsewhere : ∀ v ∈ r, m.place g v ≠ .ok p) :
    (m.deliver d).slots? p = m.slots? p := by
  rw [destination_eq_ok] at delivered
  split at delivered
  next v y =>
    obtain ⟨p', placed, -, rfl⟩ := delivered
    have other : p' ≠ p := fun same => elsewhere v rfl (same ▸ placed)
    rw [deliver, put_slots?, if_neg other]
  · rw [delivered]
    rfl

/-- A place that is neither stored to nor the result's keeps its contents. -/
theorem act_slots? (acted : m.act strings g q = .ok n)
    (unwritten : ∀ offset x, m.effect strings g q.op ≠ .ok (.write p offset x))
    (elsewhere : ∀ v ∈ q.result, m.place g v ≠ .ok p) : n.slots? p = m.slots? p := by
  obtain ⟨e, d, done, delivered, rfl⟩ := act_eq_ok.1 acted
  rw [deliver_slots? delivered, perform_slots?]
  · rintro offset x rfl
    exact unwritten offset x done
  · intro v result
    rw [place_congr (perform_frames_size m e)]
    exact elsewhere v result

theorem act_frames_size (acted : m.act strings g q = .ok n) : n.frames.size = m.frames.size := by
  obtain ⟨e, d, -, -, rfl⟩ := act_eq_ok.1 acted
  simp

end Machine

end Quadcode
