import Quadcode.Proofs.Eval.Frames
import Quadcode.Proofs.Eval.Variables
import Quadcode.Proofs.Graph.Built

/-!
# Calls that leave the frames of their callers alone

A function can reach the frames below its own only through a pointer. Where neither the globals nor the
arguments hold one, none is ever made: whatever a call does, and however it ends, the frames of the callers are
as they were, and no pointer to them is left behind.
-/

namespace Quadcode

open Option Array Machine Value

/-- A global, or a variable of a frame above the first `n`. -/
def Place.Above (n : Nat) : Place → Prop
  | .local frame _ => n ≤ frame
  | .global _ => True

/-- No pointer into the first `n` frames. -/
def Value.Above (n : Nat) : Value → Prop
  | .ptr p _ => p.Above n
  | _ => True

theorem Value.above_ofConst (n : Nat) (c : Const) : (ofConst c).Above n := by
  cases c <;> trivial

/-- What an operation writes, and where, stays clear of the first `n` frames. -/
def Effect.Above (n : Nat) : Effect → Prop
  | .value x | .input x => x.Above n
  | .write p _ x => p.Above n ∧ x.Above n
  | .nothing | .output _ => True

variable {v : VarId} {n i : Nat} {e : Effect} {g : Graph} {x z : Value} {frame : Frame}

theorem Effect.Above.result (above : e.Above n) (result : e.result? = some x) : x.Above n := by
  cases e <;> cases result <;> exact above

/-- The values of a fresh frame come in as arguments. -/
theorem Frame.enter_values {args : List Value} (entered : enter g args = .ok frame) {slots : Array Value}
    (here : frame[v]? = some slots) (slot : slots[i]? = some x) : x = .undef ∨ x ∈ args := by
  unfold enter at entered
  rw [bind_eq_ok] at entered
  obtain ⟨start, blanked, filled⟩ := entered
  refine foldlM_ok (fun _ (f : Frame) => ∀ v slots, f[v]? = some slots → ∀ i x, slots[i]? = some x →
    x = .undef ∨ x ∈ args) ?_ ?_ filled v slots here i x slot
  · intro v slots here i x slot
    obtain ⟨var, -, stored⟩ := blank_getElem? blanked here
    obtain ⟨n, -, rfl⟩ := storage_eq stored
    rw [getElem?_replicate] at slot
    split at slot
    · exact .inl (Option.some.inj slot).symm
    · cases slot
  · rintro done ⟨p, a⟩ rest f f' split before step v slots here i x slot
    have given : a ∈ args := (List.of_mem_zip (show (p, a) ∈ g.params.zip args by simp [split])).2
    simp only at step
    split at step
    · cases step
      rw [getElem?_modify] at here
      split at here
      · obtain ⟨old, was, rfl⟩ := map_eq_some_iff.1 here
        rw [getElem?_setIfInBounds] at slot
        split at slot
        · split at slot
          · exact .inr (Option.some.inj slot ▸ given)
          · cases slot
        · exact before v old was i x slot
      · exact before v slots here i x slot
    · cases step

theorem BinOp.above_of_apply {op : BinOp} {y : Value} (applied : op.apply g x y = .ok z) : z.Above n := by
  simp only [BinOp.apply, bind_eq_ok] at applied
  obtain ⟨a, -, b, -, applied⟩ := applied
  split at applied
  · cases applied
  · split at applied <;> cases applied
    exact above_ofConst n _

theorem UnOp.above_of_apply {op : UnOp} (applied : op.apply g x = .ok z) : z.Above n := by
  simp only [UnOp.apply, bind_eq_ok] at applied
  obtain ⟨a, -, applied⟩ := applied
  split at applied <;> cases applied
  exact above_ofConst n _

namespace Machine

variable {base : Array Frame} {m : Machine} {strings : StringPool} {op : Op} {p : Place}

/-- No global holds a pointer into the first `n` frames. -/
def GlobalsAbove (n : Nat) (m : Machine) : Prop :=
  ∀ (name : Label) (slots : Array Value), m.globals[name]? = some slots → ∀ x ∈ slots, x.Above n

/-- The frames of `base` stand as they were, and nothing above them points to them. -/
structure Above (base : Array Frame) (m : Machine) : Prop where
  below : ∀ i < base.size, m.frames[i]? = base[i]?
  clear : ∀ p i x, p.Above base.size → m.slot? p i = some x → x.Above base.size

namespace Above

variable (above : m.Above base)
include above

/-! ## Writing -/

theorem tick : m.tick.Above base where
  below := above.below
  clear p i x := by
    rw [slot?, tick_slots?]
    exact above.clear p i x

theorem put (place : p.Above base.size) (value : x.Above base.size) (i : Nat) : (m.put p i x).Above base where
  below j bound := by
    cases p with
    | global name => exact above.below j bound
    | «local» frame v =>
      have other : frame ≠ j := Nat.ne_of_gt (Nat.lt_of_lt_of_le bound place)
      rw [put, getElem?_modify, if_neg other, above.below j bound]
  clear p' j y place' here := by
    rw [put_slot?] at here
    split at here
    · obtain ⟨_, -, rfl⟩ := map_eq_some_iff.1 here
      exact value
    · exact above.clear p' j y place' here

theorem perform (effect : e.Above base.size) : (m.perform e).Above base := by
  cases e with
  | write p offset x => exact above.put effect.1 effect.2 offset
  | input x | output text | nothing | value x => exact ⟨above.below, above.clear⟩

theorem pop (size : base.size < m.frames.size) : m.pop.Above base where
  below j bound := by
    rw [Machine.pop, getElem?_pop, if_pos (by omega), above.below j bound]
  clear p i x place here := by
    refine above.clear p i x place ?_
    cases p with
    | global name => exact here
    | «local» frame v =>
      simp only [slot?, slots?, Machine.pop, getElem?_pop] at here ⊢
      split at here
      · exact here
      · simp at here

theorem push (size : base.size ≤ m.frames.size) {args : List Value} (given : ∀ x ∈ args, x.Above base.size)
    (entered : Frame.enter g args = .ok frame) : (m.push frame).Above base where
  below j bound := by
    rw [Machine.push, getElem?_push, if_neg (by omega), above.below j bound]
  clear p i x place here := by
    cases p with
    | global name => exact above.clear (.global name) i x place here
    | «local» f v =>
      simp only [slot?, slots?, Machine.push, getElem?_push] at here
      split at here
      · obtain ⟨slots, there, slot⟩ := bind_eq_some_iff.1 here
        rcases Frame.enter_values entered there slot with rfl | member
        · trivial
        · exact given x member
      · exact above.clear (.local f v) i x place here

end Above

/-! ## Reading -/

/-- A function names globals and variables of its own frame. -/
theorem place_above (size : n < m.frames.size) (placed : m.place g v = .ok p) : p.Above n := by
  obtain ⟨var, -, rfl⟩ := place_eq_ok.1 placed
  split
  · trivial
  · exact Nat.le_sub_one_of_lt size

namespace Above

variable (above : m.Above base) (size : base.size < m.frames.size) {y : Option Value}
include above size

theorem varValue (valued : m.varValue g v = .ok x) : x.Above base.size := by
  obtain ⟨p, placed, here⟩ := varValue_eq_ok.1 valued
  exact above.clear p 0 x (place_above size placed) here

theorem arg {a : Arg} (read : m.arg g a = .ok x) : x.Above base.size := by
  cases a with
  | var v => exact above.varValue size read
  | const c =>
    cases read
    exact above_ofConst _ c
  | str label =>
    cases read
    trivial

theorem args {xs : List Arg} {values : List Value} (read : m.args g xs = .ok values) :
    ∀ x ∈ values, x.Above base.size := by
  intro x member
  obtain ⟨a, -, valued⟩ := mem_of_mapM read member
  exact above.arg size valued

omit size in
theorem fetch (place : p.Above base.size) (read : m.fetch g p i = .ok x) : x.Above base.size := by
  unfold Machine.fetch at read
  split at read
  next here =>
    cases read
    exact above.clear p i x place here
  · cases read

theorem pointee (found : m.pointee g v = .ok (p, i)) : p.Above base.size := by
  obtain ⟨y, valued, pointer⟩ := bind_eq_ok.1 found
  have clear := above.varValue size valued
  cases y <;> cases pointer
  exact clear

theorem element {j : Nat} (found : m.element g v j = .ok (p, i)) : p.Above base.size := by
  unfold Machine.element at found
  split at found
  · cases found
  · split at found
    · obtain ⟨y, valued, pointer⟩ := bind_eq_ok.1 found
      have clear := above.varValue size valued
      split at pointer
      · split at pointer
        · cases pointer
          exact clear
        · cases pointer
      · cases pointer
    · simp only [bind_eq_ok, pure_eq_ok, Prod.mk.injEq] at found
      obtain ⟨p', placed, rfl, rfl⟩ := found
      exact place_above size placed

theorem effect (done : m.effect strings g op = .ok e) : e.Above base.size := by
  cases op with (simp only [effect, bind_eq_ok, pure_eq_ok, existing_eq_ok] at done)
  | assign a =>
    obtain ⟨x, read, rfl⟩ := done
    exact above.arg size read
  | binOp op x y =>
    obtain ⟨_, -, _, -, z, applied, rfl⟩ := done
    exact BinOp.above_of_apply applied
  | unOp op x =>
    obtain ⟨_, -, z, applied, rfl⟩ := done
    exact UnOp.above_of_apply applied
  | cmp c x y =>
    obtain ⟨_, -, _, -, z, -, rfl⟩ := done
    exact above_ofConst base.size (.ofBool z)
  | load v a =>
    obtain ⟨j, -, ⟨p, i⟩, found, x, read, rfl⟩ := done
    exact above.fetch (above.element size found) read
  | store v a b =>
    obtain ⟨j, -, x, read, ⟨p, i⟩, found, slot, ⟨-, rfl⟩, rfl⟩ := done
    exact ⟨above.element size found, above.arg size read⟩
  | address v =>
    obtain ⟨p, placed, rfl⟩ := done
    exact place_above (p := p) size placed
  | deref v =>
    obtain ⟨⟨p, i⟩, found, x, read, rfl⟩ := done
    exact above.fetch (above.pointee size found) read
  | derefStore v b =>
    obtain ⟨x, read, ⟨p, i⟩, found, slot, ⟨-, rfl⟩, rfl⟩ := done
    exact ⟨above.pointee size found, above.arg size read⟩
  | print a =>
    obtain ⟨x, -, printed⟩ := done
    cases x <;> cases printed <;> trivial
  | read =>
    split at done <;> cases done
    trivial
  | nop | printLine =>
    cases done
    trivial
  | call | label | goto | jumpIf | jumpIfNot | ret => cases done

/-- The result of a quadruple goes to the frame of its function or to a global. -/
theorem deliver {r : Option VarId} {d : Option (Place × Value)} (given : ∀ x, y = some x → x.Above base.size)
    (found : m.destination g r y = .ok d) : (m.deliver d).Above base := by
  rw [destination_eq_ok] at found
  split at found
  next x =>
    obtain ⟨p, placed, -, rfl⟩ := found
    exact above.put (place_above size placed) (given x rfl) 0
  · rw [found]
    exact above

theorem next {t : Tail} (left : m.next g t = .ok (.inr y)) (x : Value) (value : y = some x) : x.Above base.size := by
  cases t with
  | jump | fall => cases left
  | branch c a b onTrue onFalse => simp [Machine.next] at left
  | ret a =>
    cases a with
    | none =>
      cases left
      cases value
    | some a =>
      simp only [Machine.next, bind_eq_ok, pure_eq_ok, Sum.inr.injEq] at left
      obtain ⟨z, read, rfl⟩ := left
      cases value
      exact above.arg size read

end Above

/-! ## Runs -/

/-- However an activation ended: the frames of `base` stand as they were, and nothing that is left points to
them. -/
structure Spares (base : Array Frame) (size : Nat) (r : Ended) : Prop where
  above : r.2.Above base
  size : r.2.frames.size = size
  value : ∀ x, r.1 = .ok (some x) → x.Above base.size

variable {program : Module}

theorem Above.stopped (above : m.Above base) (e : Stop) : Spares base m.frames.size (.error e, m) := ⟨above, rfl, nofun⟩

/-- What the function of a name does in its own frame spares the frames below. -/
theorem Above.enter {run : Graph → Machine → Ended}
    (runs : ∀ g m, m.Above base → base.size < m.frames.size → Spares base m.frames.size (run g m))
    (above : m.Above base) (size : base.size ≤ m.frames.size) (name : Label) {args : List Value}
    (given : ∀ x ∈ args, x.Above base.size) : Spares base m.frames.size (m.enter run program name args) := by
  unfold Machine.enter
  split
  · exact above.stopped _
  next g _ =>
    split
    · exact above.stopped _
    next frame entered =>
      have inside : base.size < (m.push frame).frames.size := by
        rw [Machine.push, size_push]
        omega
      have spares := runs g (m.push frame) (above.push size given entered) inside
      have popped : (run g (m.push frame)).2.frames.size = m.frames.size + 1 := spares.size.trans (size_push _)
      refine ⟨spares.above.pop (by omega), ?_, spares.value⟩
      simp [Machine.pop, popped]

/-- The rest of an activation spares the frames below, whatever it does. -/
theorem exec_spares (fuel : Nat) (quads : List Quad) (tail : Tail) (above : m.Above base)
    (size : base.size < m.frames.size) : Spares base m.frames.size (exec program fuel g quads tail m) := by
  induction fuel generalizing g quads tail m with
  | zero => exact above.stopped _
  | succ fuel ih =>
    have ticked := above.tick
    cases quads with
    | nil =>
      rw [exec]
      split
      · exact ticked.stopped _
      · split
        · exact ticked.stopped _
        next y left => exact ⟨ticked, rfl, fun x value => ticked.next size left x (Except.ok.inj value)⟩
        · exact ih _ _ ticked size
    | cons q rest =>
      -- What follows once the quadruple has its value, from a call or by itself.
      have resumed {n : Machine} {y : Option Value} {d : Option (Place × Value)} (above : n.Above base)
          (same : n.frames.size = m.frames.size) (given : ∀ x, y = some x → x.Above base.size)
          (found : n.destination g q.result y = .ok d) :
          Spares base m.frames.size (exec program fuel g rest tail (n.deliver d)) := by
        have kept : (n.deliver d).frames.size = m.frames.size := (deliver_frames_size n d).trans same
        exact kept ▸ ih rest tail (above.deliver (same ▸ size) given found) (kept ▸ size)
      rw [exec]
      dsimp only
      split
      · exact ticked.stopped _
      · split
        next callee xs _ =>
          split
          · exact ticked.stopped _
          next args read =>
            have entered : Spares base m.frames.size
                (m.tick.enter (fun g m => exec program fuel g (g.body g.entry) (g.tail g.entry) m)
                  program callee args) :=
              ticked.enter (fun h n above size => ih _ _ above size) (Nat.le_of_lt size) callee (ticked.args size read)
            split
            next e n ended =>
              rw [ended] at entered
              exact entered
            next y n ended =>
              rw [ended] at entered
              split
              · exact entered.size ▸ entered.above.stopped _
              next d found =>
                exact resumed entered.above entered.size (fun x value => entered.value x (value ▸ rfl)) found
        · split
          · exact ticked.stopped _
          next e done =>
            have effect := ticked.effect size done
            have performed := ticked.perform effect
            have same : (m.tick.perform e).frames.size = m.frames.size := perform_frames_size m.tick e
            split
            · exact same ▸ performed.stopped _
            next d found => exact resumed performed same (fun x => effect.result) found

/-- A call cannot touch the frames of its callers unless it is handed a pointer to them: where no global and no
argument points into a frame, all frames are as they were when the call is over, whether it gave a value or
stopped with an error, and neither a global nor the value points into one of them. -/
theorem call_isolated (program : Module) (m : Machine) (name : Label) (args : List Value)
    (globals : m.GlobalsAbove m.frames.size) (given : ∀ x ∈ args, x.Above m.frames.size) :
    (m.call program name args).2.frames = m.frames ∧ (m.call program name args).2.GlobalsAbove m.frames.size ∧
      ∀ x, (m.call program name args).1 = .ok (some x) → x.Above m.frames.size := by
  have above : m.Above m.frames := by
    refine ⟨fun _ _ => rfl, fun p i x place here => ?_⟩
    obtain ⟨slots, found, slot⟩ := bind_eq_some_iff.1 here
    cases p with
    | global name => exact globals name slots found x (mem_of_getElem? slot)
    | «local» frame v => simp [slots?, getElem?_eq_none place] at found
  have spares : Spares m.frames m.frames.size (m.call program name args) :=
    above.enter (fun g n above size => exec_spares (stepLimit + 1) _ _ above size) (Nat.le_refl _) name given
  refine ⟨ext_getElem? fun i => ?_, fun name slots found x member => ?_, spares.value⟩
  · by_cases bound : i < m.frames.size
    · exact spares.above.below i bound
    · have past := Nat.le_of_not_lt bound
      rw [getElem?_eq_none past, getElem?_eq_none (spares.size ▸ past)]
  · obtain ⟨i, slot⟩ := mem_iff_getElem?.1 member
    exact spares.above.clear (.global name) i x trivial (bind_eq_some_iff.2 ⟨slots, found, slot⟩)

end Machine

/-- Calls itself once, and leaves a pointer into its own frame in the global and as its value. -/
def leaking : Function where
  name := "leaking"
  ret := some (.pointer .int)
  vars := #[.declare "again" .int .param, .declare "x" .int .local, .declare "p" (.pointer .int) .local,
    .declare "kept" (.pointer .int) .global]
  params := [0]
  quads := [
    .effect (.jumpIfNot .gt (.var 0) (.const (.int 0)) "last"),
    ⟨some 2, .call "leaking" [.const (.int 0)]⟩,
    .effect (.label "last"),
    ⟨some 2, .address 1⟩,
    .effect (.derefStore 2 (.const (.int 5))),
    ⟨some 3, .assign (.var 2)⟩,
    .effect (.ret (some (.var 2)))]

/-- One frame, whose only variable points to itself. -/
def sheltered : Machine where
  globals := (∅ : Std.ExtTreeMap Label (Array Value)).insert "kept" #[.undef]
  frames := #[#[#[.ptr (.local 0 0) 0]]]

theorem leaking_isolated : sheltered.GlobalsAbove 1 ∧ (∀ x ∈ [int 1], x.Above 1) ∧
    (sheltered.call ⟨[], .empty, [leaking.graph]⟩ "leaking" [.int 1]).1 = .ok (some (.ptr (.local 1 1) 0)) ∧
    (sheltered.call ⟨[], .empty, [leaking.graph]⟩ "leaking" [.int 1]).2.frames = sheltered.frames ∧
    (sheltered.call ⟨[], .empty, [leaking.graph]⟩ "leaking" [.int 1]).2.GlobalsAbove 1 := by
  have globals : sheltered.GlobalsAbove 1 := by
    intro name slots found x member
    rw [sheltered, Std.ExtTreeMap.getElem?_insert] at found
    split at found
    · cases found
      cases List.mem_singleton.1 (mem_def.1 member)
      trivial
    · simp at found
  have given : ∀ x ∈ [int 1], x.Above 1 := fun x member => List.mem_singleton.1 member ▸ trivial
  obtain ⟨frames, after, -⟩ :=
    sheltered.call_isolated ⟨[], .empty, [leaking.graph]⟩ "leaking" [.int 1] globals given
  exact ⟨globals, given, by decide +kernel, frames, after⟩

end Quadcode
