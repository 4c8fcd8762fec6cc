import Quadcode.Proofs.Eval.BigStep
import Quadcode.Proofs.Eval.Storage

/-!
# Pointers that stay where they belong

A run is confined when each pointer that it follows leads to a global or to a variable whose address
the owner of the frame takes. Then it stores nowhere else but to variables of the running function.
-/

namespace Quadcode

namespace Machine

variable {m : Machine} {strings : StringPool} {g : Graph} {op : Op} {p : Place} {offset : Nat} {x : Value}

/-- The slot that an operation reaches through a pointer. -/
def reached? (m : Machine) (g : Graph) : Op → Option (Place × Nat)
  | .load base i | .store base i _ =>
    if (g.vars.getD base default).ty.isPointer then
      (do m.element g base (← m.index g i)).toOption
    else none
  | .deref v | .derefStore v _ => (m.pointee g v).toOption
  | _ => none

/-- Quadruples store to variables of the function by name, and to anything through pointers. -/
theorem write_place (stored : m.effect strings g op = .ok (.write p offset x)) :
    (∃ base i y var, op = .store base i y ∧ g.vars[base]? = some var ∧ var.ty.isPointer = false ∧
      m.place g base = .ok p) ∨ m.reached? g op = some (p, offset) := by
  cases op with
  | store base i value =>
    simp only [effect, bind_eq_ok, pure_eq_ok, existing_eq_ok] at stored
    obtain ⟨i', index, y, -, ⟨p', o'⟩, element, ⟨p'', o''⟩, ⟨-, same⟩, written⟩ := stored
    cases same
    cases written
    have reached := element
    unfold Machine.element at element
    split at element
    · cases element
    next var found =>
      split at element
      next pointer =>
        refine .inr ?_
        simp only [reached?, Array.getD_eq_getD_getElem?, found, Option.getD_some, pointer, if_true, index]
        rw [show (Except.ok i' >>= fun i => m.element g base i) = m.element g base i' from rfl, reached]
        rfl
      next direct =>
        simp only [bind_eq_ok, pure_eq_ok, Prod.mk.injEq] at element
        obtain ⟨p', placed, rfl, rfl⟩ := element
        exact .inl ⟨base, i, value, var, rfl, found, Bool.eq_false_iff.2 direct, placed⟩
  | derefStore v value =>
    simp only [effect, bind_eq_ok, pure_eq_ok, existing_eq_ok] at stored
    obtain ⟨y, -, ⟨p', o'⟩, pointee, ⟨p'', o''⟩, ⟨-, same⟩, written⟩ := stored
    cases same
    cases written
    exact .inr (by simp [reached?, pointee, Except.toOption])
  | print value =>
    simp only [effect, bind_eq_ok] at stored
    obtain ⟨y, -, printed⟩ := stored
    cases y <;> simp at printed
  | read =>
    simp only [effect] at stored
    split at stored <;> simp at stored
  | _ => simp [effect] at stored

end Machine

/-- The owner of the frame takes the address of the variable. -/
def Point.Owned (p : Point) : Place → Prop
  | .global _ => True
  | .local frame v => ∃ h ∈ (p.callers ++ [p.graph])[frame]?, v ∈ h.addressTaken

/-- A pointer that is about to be followed leads to a global or to a variable whose address is taken
in the function that owns the frame. -/
def Point.Confined (p : Point) : Prop := ∀ q ∈ p.quad?, ∀ slot ∈ p.machine.reached? p.graph q.op, p.Owned slot.1

instance (p : Point) (place : Place) : Decidable (p.Owned place) :=
  match place with
  | .global _ => isTrue trivial
  | .local frame v =>
    inferInstanceAs (Decidable (∃ h ∈ (p.callers ++ [p.graph])[frame]?, v ∈ h.addressTaken))

instance (p : Point) : Decidable p.Confined := inferInstanceAs
    (Decidable (∀ q ∈ p.quad?, ∀ slot ∈ p.machine.reached? p.graph q.op, p.Owned slot.1))

/-- The machine has one frame for each activation. -/
def Point.Framed (p : Point) : Prop := p.machine.frames.size = p.callers.length + 1

namespace Point

variable {p : Point} {h : Graph} {frame : Frame} {b : BlockId} {m : Machine}

theorem framed_start {program : Module} {input : List Int32} (started : Machine.start program input = .ok m) (h : Graph)
    (frame : Frame) : (start [] h m frame).Framed := by
  simp only [Machine.start, bind_eq_ok, pure_eq_ok] at started
  obtain ⟨globals, -, rfl⟩ := started
  rfl

theorem Framed.goto (framed : p.Framed) (b : BlockId) : (p.goto b).Framed := framed

theorem Framed.advance (framed : p.Framed) (same : m.frames.size = p.machine.frames.size) : (p.advance m).Framed :=
  same.trans framed

theorem Framed.into (framed : p.Framed) (h : Graph) (frame : Frame) : (p.into h frame).Framed := by
  unfold Framed at *
  simp [Point.into, start, Machine.push, framed]

end Point

end Quadcode
