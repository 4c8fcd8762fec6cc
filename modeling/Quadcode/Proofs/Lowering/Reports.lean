import Quadcode.Proofs.Lowering.Straight

/-!
# How generating code fails

A stage comes to a value or reports why it does not. A fault is neither.
-/

namespace Quadcode

open List

variable {c : Prop}

/-- A failure that names its cause: something has no room or makes no sense, or sweeps were given up. -/
@[simp]
def Failure.Reported : Failure → Prop
  | .diagnostic ⟨_, _, .unplaceable _⟩ | .diagnostic ⟨_, _, .malformed _⟩ | .diagnostic ⟨_, _, .diverged _⟩ => True
  | _ => False

/-- Comes to a value or to a report. -/
abbrev Calm {α : Type} (x : Except Failure α) : Prop := FailsOnly Failure.Reported x

section Calm

variable {α β σ : Type} {x : Except Failure α} {f : α → Except Failure β} {items : List α}

@[simp]
theorem calm_map {f : α → β} : Calm (f <$> x) ↔ Calm x := by
  cases x <;> simp [Functor.map, Except.map]

@[simp]
theorem calm_if [Decidable c] {y : Except Failure α} : Calm (if c then x else y) ↔ (c → Calm x) ∧ (¬c → Calm y) := by
  split <;> simp_all

@[simp]
theorem calm_orFault {o : Option α} : Calm (orFault o) ↔ o.isSome := by
  cases o <;> simp [orFault]

theorem calm_foldlM {step : σ → α → Except Failure σ} (each : ∀ a ∈ items, ∀ s, Calm (step s a)) (s : σ) :
    Calm (items.foldlM step s) := by
  induction items generalizing s with
  | nil => exact FailsOnly.pure s
  | cons a rest ih => simp_all

theorem calm_mapM (each : ∀ a ∈ items, Calm (f a)) : Calm (items.mapM f) := by
  induction items with
  | nil => exact FailsOnly.pure []
  | cons a rest ih => simp_all

end Calm

namespace Lowering

open X86

variable {w : Literals}

/-- Comes to a value or to a report. -/
def Tame {α : Type} (x : LowerM α) (w : Literals) : Prop := Calm (outcome x w).1

section Tame

variable {α β : Type} {x y : LowerM α} {f : α → LowerM β}

@[simp]
theorem tame_pure (a : α) : Tame (pure a : LowerM α) w := FailsOnly.pure a

@[simp]
theorem tame_bind : Tame (x >>= f) w ↔ Tame x w ∧ ∀ a w', Gives x w a w' → Tame (f a) w' := by
  unfold Tame Gives
  rcases ran : outcome x w with ⟨e | a, w'⟩
  · simp [outcome_bind_error ran]
  · simp [outcome_bind_ok ran]

@[simp]
theorem tame_map {f : α → β} : Tame (f <$> x) w ↔ Tame x w := by simp [← bind_pure_comp]

@[simp]
theorem tame_ofExcept {z : Except Failure α} : Tame (LowerM.ofExcept z) w ↔ Calm z := by cases z <;> rfl

@[simp]
theorem tame_if [Decidable c] : Tame (if c then x else y) w ↔ (c → Tame x w) ∧ (¬c → Tame y w) := by
  split <;> simp_all

@[simp]
theorem tame_intern (d : Double) : Tame (LowerM.intern d) w := FailsOnly.pure _

@[simp]
theorem calm_malformed (s : Site) (what : String) : Calm (s.malformed what : Except Failure α) := by
  simp [Site.malformed]

end Tame

/-- The variable of an argument is in the table. -/
def Site.Names (s : Site) (a : Arg) : Prop := ∀ v ∈ a.var?, v < s.graph.vars.size

variable {s : Site} {x y index : Arg} {v : VarId} {dst : Operand}

@[simp]
theorem calm_var (inside : v < s.graph.vars.size) : Calm (s.var v) := by simp [Site.var, inside]

@[simp]
theorem calm_isFloat (named : s.Names x) : Calm (isFloat s x) := by
  unfold isFloat
  split <;> simp_all [Site.Names, Arg.var?]

@[simp]
theorem calm_printRoutine (named : s.Names x) : Calm (printRoutine s x) := by
  have kind := calm_isFloat named
  unfold printRoutine
  split <;> simp_all [Site.Names, Arg.var?]

section Walk

variable (sized : s.allocation.locations.size = s.graph.vars.size) {args : List Arg} {after : VarSet}
include sized

@[simp]
theorem calm_location (inside : v < s.graph.vars.size) : Calm (s.location v) := by simp [Site.location, sized, inside]

@[simp]
theorem calm_place (inside : v < s.graph.vars.size) : Calm (place s v) := by simp [place, sized, inside]

section One

variable (named : s.Names x)
include named

@[simp]
theorem tame_operand : Tame (operand s x) w := by
  unfold operand
  split <;> simp_all [Site.Names, Arg.var?]

theorem tame_unOp (op : UnOp) : Tame (unOp s op dst x) w := by
  cases op <;> simp [unOp, negate, sized, named]

theorem tame_element (inside : v < s.graph.vars.size) : Tame (element s v x) w := by
  have behind (w : Literals) : Tame (elementBehind s x) w := by
    unfold elementBehind
    split <;> simp [sized, named]
  simp only [element, tame_bind, tame_ofExcept, tame_if, calm_var inside, calm_place sized inside]
  refine ⟨trivial, fun _ _ _ => ⟨trivial, fun _ _ _ => ⟨by simp [behind], fun _ => ?_⟩⟩⟩
  split <;> simp [behind]

theorem tame_stage : Tame (stage s x) w := by simp [stage, sized, named]

theorem tame_pushArg : Tame (pushArg s x) w := by
  simp only [pushArg, tame_bind, tame_ofExcept, tame_if, calm_isFloat named, tame_operand sized named]
  refine ⟨trivial, fun _ _ _ => ⟨fun _ => ⟨trivial, fun _ _ _ => ?_⟩, by simp⟩⟩
  split <;> simp

variable (named' : s.Names y)
include named'

theorem tame_intBinOp (op : BinOp) : Tame (intBinOp s op dst x y) w := by
  cases op <;> simp [intBinOp, wrapping, division, sized, named, named']

theorem tame_floatBinOp (op : BinOp) : Tame (floatBinOp s op dst x y) w := by
  unfold floatBinOp
  split <;> simp [sized, named, named']

theorem tame_compare (c : Comparison) : Tame (compare s c x y) w := by
  cases swapped : isSwapped c <;> simp [compare, swapped, sized, named, named']

end One

/-! ## Calls -/

theorem tame_pushArgs (named : ∀ a ∈ args, s.Names a) : Tame (pushArgs s args) w := by
  induction args generalizing w with
  | nil => exact tame_pure _
  | cons a rest ih => simp_all [pushArgs, tame_pushArg sized]

theorem tame_call {name : Label} {r : Option VarId} (named : ∀ a ∈ args, s.Names a)
    (target : ∀ v ∈ r, v < s.graph.vars.size) (live : ∀ v ∈ after, v < s.graph.vars.size) :
    Tame (call s name args r after) w := by
  have kept : Calm (saved s after r) := by
    simp only [saved, failsOnly_bind, FailsOnly.pure, implies_true, and_true]
    exact calm_mapM fun v member => calm_location sized (live v (by simpa using (mem_filter.1 member).1))
  have received : Calm (receive s r) := by
    cases r with
    | none => exact FailsOnly.pure _
    | some v => simp [receive, sized, target v rfl]
  have pushed (w : Literals) := tame_pushArgs (w := w) sized fun a member => named a (mem_reverse.1 member)
  simp [call, kept, received, pushed]

/-! ## Quadruples -/

section Quad

variable {q : Quad} (inside : ∀ v ∈ q.uses, v < s.graph.vars.size)
include inside

omit sized in
theorem named_of_uses : (∀ a ∈ q.op.args, s.Names a) ∧ ∀ b ∈ q.op.base?, b < s.graph.vars.size := by
  simp only [Quad.uses, forall_mem_append, mem_filterMap, Option.mem_toList] at inside
  exact ⟨fun a member v is => inside.1 v ⟨a, member, is⟩, inside.2⟩

theorem tame_valueCode {float : Bool} : Tame (valueCode s q dst float) w := by
  obtain ⟨named, base⟩ := named_of_uses inside
  unfold valueCode
  split <;> rename_i op <;> simp only [op, Op.args, Op.base?, forall_mem_cons] at named base
  · simp [sized, named]
  · simp [tame_intBinOp sized, tame_floatBinOp sized, named]
  · exact tame_unOp sized named.1 _
  · simp [cmp, tame_compare sized, named]
  · simp [load, tame_element sized named.1 (base _ rfl)]
  · simp only [address, tame_bind, tame_ofExcept, tame_if, calm_place sized (base _ rfl), calm_malformed]
    refine ⟨trivial, fun _ _ _ => ⟨fun _ => ?_, by simp⟩⟩
    split <;> simp
  · simp [deref, sized, base _ rfl]
  · simp

theorem tame_quad (target : ∀ v ∈ q.result, v < s.graph.vars.size) (live : ∀ v ∈ after, v < s.graph.vars.size) :
    Tame (quad s q after) w := by
  obtain ⟨named, base⟩ := named_of_uses inside
  have placed : Calm (q.result.mapM fun r => do pure (← place s r, (← s.var r).ty.isFloat)) := by
    cases result : q.result with
    | none => exact FailsOnly.pure _
    | some r => simp [sized, target r result]
  simp only [quad, tame_if, tame_bind, tame_ofExcept, calm_malformed, placed, implies_true, true_and]
  intro _ dst _ _
  split
  · simp
  next base' index x op =>
    simp only [op, Op.args, Op.base?, forall_mem_cons] at named base
    simp [store, tame_stage sized, tame_element sized named.1 (base _ rfl), named]
  next p x op =>
    simp only [op, Op.args, Op.base?, forall_mem_cons] at named base
    simp [derefStore, tame_stage sized named.1, sized, base _ rfl]
  next op => exact tame_call sized (by simpa [op, Op.args] using named) target live
  next x op =>
    simp only [op, Op.args] at named
    simp [tame_call sized named _ live, named]
  · exact tame_call sized (by simp) (by simp) live
  · exact tame_call sized (by simp) target live
  · split
    · exact tame_valueCode sized inside
    · simp

end Quad

theorem tame_body {qs : List Quad} {afters : List VarSet}
    (inside : ∀ q ∈ qs, ∀ v ∈ q.uses ++ q.result.toList, v < s.graph.vars.size)
    (live : ∀ after ∈ afters, ∀ v ∈ after, v < s.graph.vars.size) : Tame (body s qs afters) w := by
  induction qs generalizing afters w with
  | nil => exact tame_pure _
  | cons q rest ih =>
    cases afters with
    | nil => exact tame_pure _
    | cons after more =>
      obtain ⟨here, later⟩ := forall_mem_cons.1 inside
      obtain ⟨uses, target⟩ := forall_mem_append.1 here
      rw [forall_mem_cons] at live
      simp [body, tame_quad sized uses (by simpa using target) live.1, ih later live.2]

theorem tame_tail {t : Tail} (inside : ∀ v ∈ t.uses, v < s.graph.vars.size) : Tame (tail s t) w := by
  have named : ∀ a ∈ t.args, s.Names a := fun a member v is => inside v (mem_filterMap.2 ⟨a, member, is⟩)
  unfold tail
  split <;> simp_all [Tail.args, tame_compare sized]

theorem calm_prologue (params : ∀ v ∈ s.graph.params, v < s.graph.vars.size) : Calm (prologue s) := by
  simp only [prologue, failsOnly_bind, FailsOnly.pure, implies_true, and_true]
  refine calm_mapM fun pair member => ?_
  simp [param, sized, params pair.1 (fst_mem_of_mem_zipIdx member)]

end Walk

end Lowering

end Quadcode
