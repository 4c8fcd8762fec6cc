import Quadcode.Proofs.Eval.Confinement
import Quadcode.Proofs.Eval.Frames
import Quadcode.Proofs.Eval.Variables
import Quadcode.Proofs.Flow.Constants

/-!
# Facts that hold in a state

Facts hold in a state when each variable of the running function is undefined or as they say. A
quadruple takes facts that hold to facts that hold as long as it overwrites no variable behind the
back of the analysis.
-/

namespace Quadcode

open Option Machine Facts Comparison Value

variable {g : Graph} {x y z : Value} {strings : StringPool} {facts : Facts} {c : Comparison} {m : Machine} {r : Bool}
  {op : BinOp}

/-- The values that a variable in a state may have. -/
def ConstState.Admits : ConstState → Value → Prop
  | .unknown, x => x = .undef
  | .constant c, x => x = .ofConst c ∨ x = .undef
  | .notConstant, _ => True

theorem ConstState.Admits.mono {a b : ConstState} (le : a.Le b) (h : a.Admits x) : b.Admits x := by
  cases a <;> cases b <;> simp_all [ConstState.Le, ConstState.Admits]

/-- Every variable of the running function is as the facts say. -/
def Facts.Hold (facts : Facts) (g : Graph) (m : Machine) : Prop :=
  ∀ v x, m.varValue g v = .ok x → (facts.lookup v).Admits x

theorem Facts.Hold.mono {facts' : Facts} (le : facts.Le facts') (hold : facts.Hold g m) : facts'.Hold g m :=
  fun v x valued => (hold v x valued).mono (le v)

/-- No operand of an operation or a tail is undefined. -/
def Machine.Defined (m : Machine) (g : Graph) (args : List Arg) : Prop := ∀ a ∈ args, m.arg g a ≠ .ok .undef

theorem Value.number_ofConst (g : Graph) (c : Const) : (ofConst c).number g = .ok c := by
  cases c <;> rfl

/-- An operator that folds gives the folded value. -/
theorem BinOp.apply_of_fold {a b c : Const} (folds : op.fold a b = some c) :
    op.apply g (.ofConst a) (.ofConst b) = .ok (.ofConst c) := by
  have nonzero : ¬(op.isDivision ∧ b = .int 0) := by
    rintro ⟨division, rfl⟩
    cases a <;> cases op <;> simp_all [BinOp.fold, BinOp.foldInt, BinOp.isDivision]
  unfold BinOp.apply
  rw [number_ofConst, number_ofConst]
  simp only [bind, Except.bind, if_neg nonzero, folds]

theorem UnOp.apply_of_fold {op : UnOp} {a c : Const} (folds : op.fold a = some c) :
    op.apply g (.ofConst a) = .ok (.ofConst c) := by
  unfold UnOp.apply
  rw [number_ofConst]
  simp only [bind, Except.bind, folds]

theorem Comparison.apply_of_fold {a b : Const} (folds : c.fold a b = some r) :
    c.apply g (.ofConst a) (.ofConst b) = .ok r := by
  cases a <;> cases b <;> simp_all [fold, apply, ofConst]

/-! Operators take no undefined operand. -/

theorem Value.ne_undef_of_number {c : Const} (number : x.number g = .ok c) : x ≠ .undef := by
  rintro rfl
  cases number

theorem BinOp.defined_of_apply (applied : op.apply g x y = .ok z) : x ≠ .undef ∧ y ≠ .undef := by
  simp only [BinOp.apply, bind_eq_ok] at applied
  obtain ⟨a, left, b, right, -⟩ := applied
  exact ⟨ne_undef_of_number left, ne_undef_of_number right⟩

theorem UnOp.defined_of_apply {op : UnOp} (applied : op.apply g x = .ok z) : x ≠ .undef := by
  simp only [UnOp.apply, bind_eq_ok] at applied
  obtain ⟨a, operand, -⟩ := applied
  exact ne_undef_of_number operand

theorem Comparison.defined_of_apply (applied : c.apply g x y = .ok r) : x ≠ .undef ∧ y ≠ .undef := by
  cases x <;> cases y <;> simp_all [apply]

namespace Facts

variable {op : Op} {a : Arg} {c : Const} {e : Effect}

/-- A defined operand that is known to be constant has that value. -/
theorem Hold.arg (hold : facts.Hold g m) (known : (facts.ofArg a).const? = some c) (valued : m.arg g a = .ok x)
    (defined : x ≠ .undef) : x = .ofConst c := by
  cases a with
  | var v =>
    have admitted := hold v x valued
    simp only [ofArg] at known
    cases state : facts.lookup v with
    | constant k =>
      rw [state] at known admitted
      cases known
      exact admitted.resolve_right defined
    | _ => simp [state, ConstState.const?] at known
  | const k =>
    cases known
    cases valued
    rfl
  | str label => cases known

theorem admits_known {o : Option Const} (h : ∀ c, o = some c → y = .ofConst c) : (eval.known o).Admits y := by
  cases o with
  | none => trivial
  | some c => exact .inl (h c rfl)

/-- The value of an operation is as its state says. -/
theorem Hold.eval (hold : facts.Hold g m) (done : m.effect strings g op = .ok e) (valued : e.result? = some x) :
    (facts.eval op).Admits x := by
  cases op with (simp only [Machine.effect, bind_eq_ok, pure_eq_ok] at done)
  | assign a =>
    obtain ⟨y, read, rfl⟩ := done
    cases valued
    cases a with
    | var v => exact hold v _ read
    | const c =>
      cases read
      exact .inl rfl
    | str label => trivial
  | binOp op a b =>
    obtain ⟨y, read, z, read', w, applied, rfl⟩ := done
    cases valued
    refine admits_known fun c folds => ?_
    simp only [bind_eq_some_iff] at folds
    obtain ⟨k, left, l, right, folds⟩ := folds
    obtain ⟨defined, defined'⟩ := BinOp.defined_of_apply applied
    rw [hold.arg left read defined, hold.arg right read' defined', BinOp.apply_of_fold folds] at applied
    exact (Except.ok.inj applied).symm
  | unOp op a =>
    obtain ⟨y, read, w, applied, rfl⟩ := done
    cases valued
    refine admits_known fun c folds => ?_
    simp only [bind_eq_some_iff] at folds
    obtain ⟨k, operand, folds⟩ := folds
    rw [hold.arg operand read (UnOp.defined_of_apply applied), UnOp.apply_of_fold folds] at applied
    exact (Except.ok.inj applied).symm
  | cmp k a b =>
    obtain ⟨y, read, z, read', w, applied, rfl⟩ := done
    cases valued
    refine admits_known fun c folds => ?_
    simp only [bind_eq_some_iff, map_eq_some_iff] at folds
    obtain ⟨i, left, j, right, r, folds, rfl⟩ := folds
    obtain ⟨defined, defined'⟩ := defined_of_apply applied
    rw [hold.arg left read defined, hold.arg right read' defined', apply_of_fold folds] at applied
    rw [Except.ok.inj applied]
  | _ => trivial

/-- An operation that gives no value is nothing that is folded. -/
theorem eval_of_no_value (done : m.effect strings g op = .ok e) (none : e.result? = none) :
    facts.eval op = .notConstant := by
  cases op with (simp only [Machine.effect, bind_eq_ok, pure_eq_ok] at done)
  | assign a =>
    obtain ⟨y, -, rfl⟩ := done
    cases none
  | binOp op a b =>
    obtain ⟨_, -, _, -, _, -, rfl⟩ := done
    cases none
  | unOp op a =>
    obtain ⟨_, -, _, -, rfl⟩ := done
    cases none
  | cmp k a b =>
    obtain ⟨_, -, _, -, _, -, rfl⟩ := done
    cases none
  | _ => rfl

end Facts

namespace Constants

variable {n : Machine} {q : Quad} {escaping addressTaken : List VarId}

theorem le_spoiled (facts : Facts) : facts.Le (spoiled escaping addressTaken q facts) := by
  have clobbered : ∀ vs, facts.Le (facts.clobber vs) := by
    intro vs v
    rw [lookup_clobber]
    split
    · cases facts.lookup v <;> simp [ConstState.Le]
    · exact .refl _
  unfold spoiled
  split
  · exact clobbered _
  · exact clobbered _
  · exact fun v => .refl _

/-- Only calls and stores spoil facts, and their results vary. -/
theorem eval_spoiled : (spoiled escaping addressTaken q facts).eval q.op = facts.eval q.op := by
  unfold spoiled
  split
  next op => simp only [op, Facts.eval]
  next op => simp only [op, Facts.eval]
  · rfl

/-- A step other than a call keeps facts true, unless it stores over a variable that they do not
call varying afterwards. -/
theorem hold_act (once : g.NamesGlobalsOnce) (hold : facts.Hold g m) (acted : m.act strings g q = .ok n)
    (noticed : ∀ v p y, m.place g v = .ok p → m.effect strings g q.op = .ok (.write p 0 y) →
      (after escaping addressTaken q facts).lookup v = .notConstant) :
    (after escaping addressTaken q facts).Hold g n := by
  intro v x valued
  obtain ⟨e, done, ⟨result, value⟩ | ⟨p, y, placed, rfl⟩ | ⟨before, unvalued⟩⟩ := act_varValue once acted valued
  · rw [lookup_after, if_pos result, eval_spoiled]
    exact hold.eval done value
  · rw [noticed v p y placed done]
    trivial
  · rw [lookup_after]
    split
    next result =>
      rw [eval_of_no_value done (unvalued result)]
      trivial
    · exact (hold v x before).mono (le_spoiled facts v)

/-- A call keeps facts true when it changes only what they let vary. -/
theorem hold_call (once : g.NamesGlobalsOnce) (hold : facts.Hold g m) {callee : Label} {xs : List Arg}
    (call : q.op = .call callee xs) {y : Option Value} {d : Option (Place × Value)}
    (kept : ∀ v x, v ∉ escaping → n.varValue g v = .ok x → m.varValue g v = .ok x)
    (delivered : n.destination g q.result y = .ok d) : (after escaping addressTaken q facts).Hold g (n.deliver d) := by
  intro v x valued
  rw [lookup_after]
  split
  · rw [call]
    trivial
  next other =>
    simp only [spoiled, call, lookup_clobber]
    split
    · trivial
    next inside =>
      refine hold v x (kept v x inside ?_)
      obtain ⟨p, placed, slot⟩ := varValue_eq_ok.1 valued
      rw [place_congr (deliver_frames_size n d)] at placed
      refine varValue_eq_ok.2 ⟨p, placed, ?_⟩
      rw [Machine.slot?, deliver_slots? delivered] at slot
      · exact slot
      · rintro u result placed'
        rw [place_inj once placed' placed] at result
        exact other result

/-- The facts at the entry hold in a fresh frame. -/
theorem hold_enter {args : List Value} {frame : Frame} (entered : Frame.enter g args = .ok frame) (m : Machine) :
    (problem g).boundary.Hold g (m.push frame) := by
  intro v x valued
  simp only [problem, lookup_clobber, lookup_empty]
  split
  · trivial
  next outside =>
    obtain ⟨_, placed, -⟩ := varValue_eq_ok.1 valued
    obtain ⟨var, found, -⟩ := place_eq_ok.1 placed
    simp only [List.mem_append, not_or] at outside
    have notGlobal : var.isGlobal = false := by
      rw [← Bool.not_eq_true]
      exact fun global => outside.2.1 (Graph.mem_globals.2 ⟨var, found, global⟩)
    obtain ⟨slots, here, slot⟩ := push_varValue found notGlobal valued
    exact Frame.enter_undef entered outside.1 here slot

end Constants

end Quadcode
