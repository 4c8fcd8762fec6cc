import Quadcode.Lowering.Routine
import Quadcode.Proofs.Eval.Variables
import Quadcode.Proofs.Lowering.Values

/-!
# The code of integer quadruples

Where the operands of a quadruple are in their places, running its code brings the value that the
interpreter computes to the place of the result. So constants that are folded become what code would compute.
-/

namespace Quadcode

open List Machine

/-- A variable or an integer. -/
def Arg.isIntegral : Arg → Bool
  | .var _ | .const (.int _) => true
  | _ => false

/-- An operation that computes an integer from integers. -/
def Op.isIntegral : Op → Bool
  | .assign _ | .binOp .. | .unOp .neg _ | .unOp .not _ | .cmp .. => true
  | _ => false

/-- A quadruple that computes an integer for a variable. -/
def Quad.isIntegral (q : Quad) : Bool := q.result.isSome && q.op.isIntegral && q.op.args.all Arg.isIntegral

namespace Lowering

open X86

@[simp]
theorem gives_ofExcept {α : Type} {e : Except Failure α} {a : α} {w w' : Literals} :
    Gives (LowerM.ofExcept e) w a w' ↔ e = .ok a ∧ w' = w := by
  cases e with
  | error e => simp [LowerM.ofExcept]
  | ok c => simp [LowerM.ofExcept, eq_comm (b := a)]

/-- The operand that stands for an argument. -/
inductive Denotes (s : Site) : Arg → Operand → Prop
  | var {v : VarId} {l : Location} : s.allocation.locations[v]? = some l → Denotes s (.var v) (ofLocation l)
  | int (i : Int32) : Denotes s (.const (.int i)) (.imm i.toInt64)

variable {s : Site} {a : Arg} {w w' : Literals} {x : Operand} {m : Machine} {v : VarId} {live : VarSet}

theorem place_eq_ok : place s v = .ok x ↔ ∃ l, s.allocation.locations[v]? = some l ∧ x = ofLocation l := by
  simp [place, Site.location, eq_comm (b := x)]

/-- The operand of an integer or a variable takes no code. -/
theorem gives_operand {β : Type} {b : β} {f : List Inst × Operand → LowerM β} (integral : a.isIntegral) :
    Gives (operand s a >>= f) w b w' ↔ ∃ x, Denotes s a x ∧ Gives (f ([], x)) w b w' := by
  cases a with
  | var v =>
    simp only [operand, gives_bind, gives_ofExcept, gives_pure, place_eq_ok]
    constructor
    · rintro ⟨_, _, ⟨x, _, ⟨⟨l, found, rfl⟩, rfl⟩, rfl, rfl⟩, rest⟩
      exact ⟨_, .var found, rest⟩
    · rintro ⟨x, ⟨found⟩, rest⟩
      exact ⟨_, _, ⟨_, _, ⟨⟨_, found, rfl⟩, rfl⟩, rfl, rfl⟩, rest⟩
  | const c =>
    cases c with
    | int i =>
      constructor
      · exact fun rest => ⟨_, .int i, rest⟩
      · rintro ⟨x, ⟨⟩, rest⟩
        exact rest
    | float => cases integral
  | str => cases integral

/-- A word stands for a value. Any word will do for one that is undefined. -/
def Represents (w : Word) : Value → Prop
  | .int i => w = extended i
  | .undef => True
  | _ => False

/-- The live variables of the running function are in their places. -/
def Holds (s : Site) (live : VarSet) (m : Machine) (t : State) : Prop := ∀ v ∈ live, ∀ x, m.varValue s.graph v = .ok x →
    ∀ l, s.allocation.locations[v]? = some l → Represents (t.value (ofLocation l)) x

/-- All variables have places that integer code can use, and none is a float. -/
structure Site.Integral (s : Site) : Prop where
  usable : ∀ (v : VarId) (l : Location), s.allocation.locations[v]? = some l → l.Usable
  unfloating : ∀ (v : VarId) (x : Variable), s.graph.vars[v]? = some x → x.ty.isFloat = false

/-- The machine is ready for the code of a quadruple where `live` is live. -/
structure Ready (s : Site) (live : VarSet) (m : Machine) (t : State) : Prop where
  site : s.Integral
  aligned : t.Aligned
  holds : Holds s live m t

theorem not_isFloat (site : s.Integral) (integral : a.isIntegral) {float : Bool} (given : isFloat s a = .ok float) :
    float = false := by
  cases a with
  | var v =>
    simp only [isFloat, Site.var, bind_eq_ok, orFault_eq_ok, pure_eq_ok] at given
    obtain ⟨x, declared, rfl⟩ := given
    exact site.unfloating v x declared
  | const c =>
    cases c with
    | int i =>
      cases given
      rfl
    | float => cases integral
  | str => cases integral

namespace Denotes

theorem integral (denotes : Denotes s a x) : a.isIntegral := by
  cases denotes <;> rfl

theorem steady (denotes : Denotes s a x) (site : s.Integral) : Steady x := by
  cases denotes with
  | var found => exact .place (site.usable _ _ found)
  | int i => exact .imm i

theorem represents {t : State} (denotes : Denotes s a x) (holds : Holds s live m t) (read : ∀ v, a = .var v → v ∈ live)
    {y : Value} (valued : m.arg s.graph a = .ok y) : Represents (t.value x) y := by
  cases denotes with
  | @var v l found => exact holds v (read v rfl) y valued l found
  | int i =>
    cases valued
    rfl

end Denotes

variable {c : Comparison} {op : BinOp} {outcome : Bool} {r : Value}

section Values

variable {g : Graph} {x y : Value} {u u' : Word}

/-- Only integers are numbers among the values that words stand for. -/
theorem number_of_represents (stands : Represents u x) {c : Const} (number : x.number g = .ok c) :
    ∃ i, x = .int i ∧ c = .int i ∧ u = extended i := by
  cases x with
  | int i =>
    cases number
    exact ⟨i, rfl, rfl, stands⟩
  | undef => cases number
  | float | ptr | str => exact stands.elim

theorem binOp_of_represents (stands : Represents u x) (stands' : Represents u' y) (applied : op.apply g x y = .ok r) :
    ∃ a b c, u = extended a ∧ u' = extended b ∧ op.foldInt a b = some c ∧ r = .int c := by
  unfold BinOp.apply at applied
  simp only [bind_eq_ok] at applied
  obtain ⟨_, first, _, second, rest⟩ := applied
  obtain ⟨a, rfl, rfl, same⟩ := number_of_represents stands first
  obtain ⟨b, rfl, rfl, same'⟩ := number_of_represents stands' second
  split at rest
  · cases rest
  · simp only [BinOp.fold] at rest
    cases folded : op.foldInt a b with
    | none => simp [folded] at rest
    | some c =>
      rw [folded] at rest
      cases rest
      exact ⟨a, b, c, same, same', folded, rfl⟩

theorem comparison_of_represents (stands : Represents u x) (stands' : Represents u' y)
    (applied : c.apply g x y = .ok outcome) : ∃ a b, u = extended a ∧ u' = extended b ∧ outcome = c.testInt a b := by
  cases x with
  | int a =>
    cases y with
    | int b =>
      cases applied
      exact ⟨a, b, stands, stands', rfl⟩
    | undef => cases applied
    | float | ptr | str => exact stands'.elim
  | undef =>
    cases y <;> cases applied
  | float | ptr | str => exact stands.elim

theorem represents_ofBool (b : Bool) : Represents (if b then 1 else 0) (.ofConst (.ofBool b)) := by
  cases b
  · exact (by decide : (0 : Word) = extended 0)
  · exact (by decide : (1 : Word) = extended 1)

end Values

section Codes

variable {l : Location} {x y : Arg} {code : List Inst} {w w' : Literals}

variable {dst : Operand} {p : Value}

/-- The code of an operator on operands. -/
def intCode (op : BinOp) (dst x y : Operand) : List Inst :=
  let wraps (op : IntOp) :=
    let r := workReg dst fun r => !y.reads r
    mov (.reg r) x ++ [.int op (.reg r) y, .movsxd r] ++ deliver dst r
  let divides (r : Reg) :=
    mov (.reg X86.result) x ++ [.cqo] ++ (unImmediate y).1 ++ [.idiv (unImmediate y).2, .movsxd r] ++ mov dst (.reg r)
  match op with
  | .add => wraps .add
  | .sub => wraps .sub
  | .mul => wraps .imul
  | .div => divides X86.result
  | .mod => divides .rdx

theorem gives_intBinOp (integral : x.isIntegral) (integral' : y.isIntegral) : Gives (intBinOp s op dst x y) w code w' ↔
      ∃ X, Denotes s x X ∧ ∃ Y, Denotes s y Y ∧ code = intCode op dst X Y ∧ w' = w := by
  cases op with
  | add | sub | mul =>
    simp only [intBinOp, wrapping, gives_operand integral, gives_operand integral', gives_pure, nil_append, intCode]
    grind
  | div | mod =>
    simp only [intBinOp, division, gives_operand integral, gives_operand integral', gives_pure, nil_append,
      append_nil, intCode]
    grind

variable {t : State} {after : VarSet} {e : Effect} {strings : StringPool} {q : Quad} {X : Operand}

/-- Arithmetic on words that are integers brings the integer that folding computes. -/
theorem brings_intCode {Y : Operand} {a b c : Int32} (usable : l.Usable) (steady : Steady X) (steady' : Steady Y)
    (aligned : t.Aligned) (left : t.value X = extended a) (right : t.value Y = extended b)
    (folded : op.foldInt a b = some c) : Brings (intCode op (ofLocation l) X Y) t l (extended c) := by
  have wraps (iop : IntOp) := brings_wrapping iop usable steady steady' aligned _ rfl
  have divides (remainder : Bool) := brings_division remainder usable steady steady' aligned left right
  rw [left, right] at wraps
  cases op with
  | add =>
    cases folded
    exact narrowed_add ▸ wraps .add
  | sub =>
    cases folded
    exact narrowed_sub ▸ wraps .sub
  | mul =>
    cases folded
    exact narrowed_mul ▸ wraps .imul
  | div =>
    obtain ⟨nonzero, rfl⟩ : b ≠ 0 ∧ a / b = c := by simpa [BinOp.foldInt] using folded
    exact divides false nonzero _ rfl
  | mod =>
    obtain ⟨nonzero, rfl⟩ : b ≠ 0 ∧ a % b = c := by simpa [BinOp.foldInt] using folded
    exact divides true nonzero _ rfl

/-- Arithmetic brings the result that the interpreter computes. -/
theorem brings_intBinOp {q : Value} (ready : Ready s live m t) (usable : l.Usable) (integral : x.isIntegral)
    (integral' : y.isIntegral) (read : ∀ v, .var v ∈ [x, y] → v ∈ live) (first : m.arg s.graph x = .ok p)
    (second : m.arg s.graph y = .ok q) (applied : op.apply s.graph p q = .ok r)
    (given : Gives (intBinOp s op (ofLocation l) x y) w code w') : ∃ u, Represents u r ∧ Brings code t l u := by
  obtain ⟨X, denotes, Y, denotes', rfl, -⟩ := (gives_intBinOp integral integral').1 given
  have stands := denotes.represents ready.holds (fun v is => read v (by simp [is])) first
  have stands' := denotes'.represents ready.holds (fun v is => read v (by simp [is])) second
  obtain ⟨a, b, c, left, right, folded, rfl⟩ := binOp_of_represents stands stands' applied
  exact ⟨_, rfl, brings_intCode usable (denotes.steady ready.site) (denotes'.steady ready.site) ready.aligned left
    right folded⟩

/-- The code of a change of sign. -/
def negCode (dst x : Operand) : List Inst :=
  let r := workReg dst fun _ => true
  mov (.reg r) x ++ [.neg (.reg r), .movsxd r] ++ deliver dst r

theorem gives_negate (whole : isFloat s x = .ok false) (integral : x.isIntegral) :
    Gives (unOp s .neg dst x) w code w' ↔ ∃ X, Denotes s x X ∧ code = negCode dst X ∧ w' = w := by
  simp only [unOp, negate, whole, LowerM.ofExcept, pure_bind, Bool.false_eq_true, if_false, gives_operand integral,
    gives_pure, nil_append, negCode]

theorem brings_negCode {i : Int32} (usable : l.Usable) (steady : Steady X) (aligned : t.Aligned)
    (value : t.value X = extended i) : Brings (negCode (ofLocation l) X) t l (extended (-i)) := by
  rw [← narrowed_neg, ← value]
  refine brings_narrowed usable (works_workReg l _) steady aligned ⟨some (.ofSub 0 (t.value X)), ?_⟩
  simp [Inst.perform, State.read, State.write]

theorem gives_not (integral : x.isIntegral) : Gives (unOp s .not dst x) w code w' ↔ ∃ X, Denotes s x X ∧
    code = mov (.reg scratch) X ++ [.cmp (.reg scratch) (.imm (0 : Int32).toInt64)] ++ [.set .e scratch] ++
      mov dst (.reg scratch) ∧ w' = w := by
  simp only [unOp, gives_operand integral, gives_pure]
  simp

theorem brings_unOp {op : UnOp} (ready : Ready s live m t) (usable : l.Usable) (kind : op = .neg ∨ op = .not)
    (integral : x.isIntegral) (read : ∀ v, .var v ∈ [x] → v ∈ live) (first : m.arg s.graph x = .ok p)
    (applied : op.apply s.graph p = .ok r) (given : Gives (unOp s op (ofLocation l) x) w code w') :
    ∃ u, Represents u r ∧ Brings code t l u := by
  unfold UnOp.apply at applied
  rw [bind_eq_ok] at applied
  obtain ⟨_, number, folded⟩ := applied
  rcases kind with rfl | rfl
  · have whole : isFloat s x = .ok false := by
      simp only [unOp, negate, gives_bind, gives_ofExcept] at given
      obtain ⟨float, _, ⟨floats, -⟩, -⟩ := given
      rw [floats, not_isFloat ready.site integral floats]
    obtain ⟨X, denotes, rfl, -⟩ := (gives_negate whole integral).1 given
    have stands := denotes.represents ready.holds (fun v is => read v (by simp [is])) first
    obtain ⟨i, rfl, rfl, value⟩ := number_of_represents stands number
    cases folded
    exact ⟨_, rfl, brings_negCode usable (denotes.steady ready.site) ready.aligned value⟩
  · obtain ⟨X, denotes, rfl, -⟩ := (gives_not integral).1 given
    have stands := denotes.represents ready.holds (fun v is => read v (by simp [is])) first
    obtain ⟨i, rfl, rfl, value⟩ := number_of_represents stands number
    cases folded
    have brings := brings_compare .e usable (denotes.steady ready.site) (.imm 0) ready.aligned
    have outcome : Cond.holds (.ofSub (t.value X) (t.value (.imm (0 : Int32).toInt64))) .e = (i == 0) := by
      rw [value]
      exact holds_ofSub .eq
    rw [outcome] at brings
    exact ⟨_, represents_ofBool _, brings⟩

theorem gives_compare {r : List Inst × Flags} (site : s.Integral) (integral : x.isIntegral) (integral' : y.isIntegral)
    (given : Gives (compare s c x y) w r w') :
    ∃ X Y, Denotes s x X ∧ Denotes s y Y ∧
      r = (mov (.reg scratch) X ++ [.cmp (.reg scratch) Y], ⟨.ofComparison c false, none⟩) := by
  simp only [compare, gives_bind, gives_ofExcept] at given
  obtain ⟨float, _, ⟨floats, rfl⟩, rest⟩ := given
  rw [not_isFloat site integral floats] at rest
  simp only [Bool.false_eq_true, if_false, gives_bind, gives_ofExcept] at rest
  obtain ⟨float', _, ⟨floats', rfl⟩, rest⟩ := rest
  rw [not_isFloat site integral' floats'] at rest
  simp only [Bool.false_eq_true, if_false, gives_operand integral, gives_operand integral', gives_pure,
    nil_append, append_nil] at rest
  obtain ⟨X, denotes, Y, denotes', rest⟩ := rest
  exact ⟨X, Y, denotes, denotes', rest.1⟩

theorem gives_cmp (site : s.Integral) (integral : x.isIntegral) (integral' : y.isIntegral)
    (given : Gives (cmp s c dst x y) w code w') :
    ∃ X Y, Denotes s x X ∧ Denotes s y Y ∧
      code = mov (.reg scratch) X ++ [.cmp (.reg scratch) Y] ++ [.set (.ofComparison c false) scratch] ++
        mov dst (.reg scratch) := by
  simp only [cmp, gives_bind] at given
  obtain ⟨_, _, compared, rest⟩ := given
  obtain ⟨X, Y, denotes, denotes', rfl⟩ := gives_compare site integral integral' compared
  simp only [gives_pure, settle, append_nil] at rest
  exact ⟨X, Y, denotes, denotes', rest.1⟩

theorem brings_cmp {q : Value} (ready : Ready s live m t) (usable : l.Usable) (integral : x.isIntegral)
    (integral' : y.isIntegral) (read : ∀ v, .var v ∈ [x, y] → v ∈ live) (first : m.arg s.graph x = .ok p)
    (second : m.arg s.graph y = .ok q) (applied : c.apply s.graph p q = .ok outcome)
    (given : Gives (cmp s c (ofLocation l) x y) w code w') :
    ∃ u, Represents u (.ofConst (.ofBool outcome)) ∧ Brings code t l u := by
  obtain ⟨X, Y, denotes, denotes', rfl⟩ := gives_cmp ready.site integral integral' given
  have stands := denotes.represents ready.holds (fun v is => read v (by simp [is])) first
  have stands' := denotes'.represents ready.holds (fun v is => read v (by simp [is])) second
  obtain ⟨a, b, left, right, rfl⟩ := comparison_of_represents stands stands' applied
  have brings := brings_compare (.ofComparison c false) usable (denotes.steady ready.site)
    (denotes'.steady ready.site) ready.aligned
  rw [left, right, holds_ofSub] at brings
  exact ⟨_, represents_ofBool _, brings⟩

/-- The code of an integer quadruple is that of its value. -/
theorem gives_quad (site : s.Integral) (integral : q.op.isIntegral) (result : q.result = some v)
    (given : Gives (quad s q after) w code w') :
    ∃ l, s.allocation.locations[v]? = some l ∧ Gives (valueCode s q (ofLocation l) false) w code w' := by
  obtain ⟨r, op⟩ := q
  cases result
  have plain : op.isControl = false := by
    cases op <;> first | rfl | cases integral
  simp only [quad, plain, Bool.false_eq_true, if_false, gives_bind, gives_ofExcept, Option.mapM_some,
    bind_eq_ok, pure_eq_ok, map_eq_ok, place_eq_ok, Site.var, orFault_eq_ok] at given
  obtain ⟨_, _, ⟨⟨_, ⟨_, ⟨l, placed, rfl⟩, x, declared, rfl⟩, rfl⟩, rfl⟩, rest⟩ := given
  refine ⟨l, placed, ?_⟩
  rw [← site.unfloating v x declared]
  cases op <;> first | exact rest | cases integral

/-- The code of a quadruple brings its value to the place of its result. -/
theorem brings_quad (ready : Ready s live m t) (integral : q.isIntegral) (read : ∀ v ∈ q.uses, v ∈ live)
    (result : q.result = some v) (placed : s.allocation.locations[v]? = some l)
    (done : m.effect strings s.graph q.op = .ok e) (given : Gives (quad s q after) w code w') :
    ∃ y u, e = .value y ∧ Represents u y ∧ Brings code t l u := by
  simp only [Quad.isIntegral, Bool.and_eq_true, all_eq_true] at integral
  obtain ⟨⟨-, computes⟩, integral⟩ := integral
  obtain ⟨l', placed', given⟩ := gives_quad ready.site computes result given
  obtain rfl : l' = l := Option.some.inj (placed'.symm.trans placed)
  have usable := ready.site.usable v l' placed
  have reads : ∀ v, .var v ∈ q.op.args → v ∈ live := fun v member =>
    read v (mem_append_left _ (mem_filterMap.2 ⟨_, member, rfl⟩))
  unfold valueCode at given
  cases op : q.op with
  | assign x =>
    rw [op] at given done integral reads
    simp only [gives_operand (integral x (by simp [Op.args])), gives_pure, nil_append] at given
    obtain ⟨X, denotes, rfl, -⟩ := given
    simp only [effect, bind_eq_ok, pure_eq_ok] at done
    obtain ⟨y, first, rfl⟩ := done
    exact ⟨y, _, rfl, denotes.represents ready.holds (fun v is => reads v (by simp [Op.args, is])) first,
      brings_mov usable (denotes.steady ready.site) ready.aligned⟩
  | binOp op' x y =>
    rw [op] at given done integral reads
    simp only [effect, bind_eq_ok, pure_eq_ok] at done
    obtain ⟨p, first, q, second, r, applied, rfl⟩ := done
    obtain ⟨u, stands, brings⟩ := brings_intBinOp ready usable (integral x (by simp [Op.args]))
      (integral y (by simp [Op.args])) reads first second applied given
    exact ⟨r, u, rfl, stands, brings⟩
  | unOp op' x =>
    rw [op] at given done integral reads computes
    simp only [effect, bind_eq_ok, pure_eq_ok] at done
    obtain ⟨p, first, r, applied, rfl⟩ := done
    have kind : op' = .neg ∨ op' = .not := by
      cases op' <;> first | exact .inl rfl | exact .inr rfl | cases computes
    obtain ⟨u, stands, brings⟩ := brings_unOp ready usable kind (integral x (by simp [Op.args])) reads
      first applied given
    exact ⟨r, u, rfl, stands, brings⟩
  | cmp c x y =>
    rw [op] at given done integral reads
    simp only [effect, bind_eq_ok, pure_eq_ok] at done
    obtain ⟨p, first, q, second, r, applied, rfl⟩ := done
    obtain ⟨u, stands, brings⟩ := brings_cmp ready usable (integral x (by simp [Op.args]))
      (integral y (by simp [Op.args])) reads first second applied given
    exact ⟨_, u, rfl, stands, brings⟩
  | _ =>
    rw [op] at computes
    cases computes

/-- Integers are folded to what their code computes. The code does not trap where there is a result. -/
theorem code_agrees_with_folding {X Y : Operand} {a b : Int32} (denotes : Denotes s x X) (denotes' : Denotes s y Y)
    (steady : Steady X) (steady' : Steady Y) (usable : l.Usable) (aligned : t.Aligned) (left : t.value X = extended a)
    (right : t.value Y = extended b) :
    (∀ op r, BinOp.fold op (.int a) (.int b) = some r → ∃ c code, r = .int c ∧
      Gives (intBinOp s op (ofLocation l) x y) w code w ∧ Brings code t l (extended c)) ∧
    (isFloat s x = .ok false → ∃ c code, UnOp.neg.fold (.int a) = some (.int c) ∧
      Gives (unOp s .neg (ofLocation l) x) w code w ∧ Brings code t l (extended c)) := by
  constructor
  · intro op r folded
    obtain ⟨c, computed, rfl⟩ := Option.map_eq_some_iff.1 folded
    exact ⟨c, _, rfl, (gives_intBinOp denotes.integral denotes'.integral).2 ⟨X, denotes, Y, denotes', rfl, rfl⟩,
      brings_intCode usable steady steady' aligned left right computed⟩
  · intro whole
    exact ⟨-a, _, rfl, (gives_negate whole denotes.integral).2 ⟨X, denotes, rfl, rfl⟩,
      brings_negCode usable steady aligned left⟩

end Codes

/-- A function with one variable, in `rbx`. -/
def single : Site where
  graph := { (default : Graph) with vars := #[.declare "n" .int .local] }
  allocation := ⟨#[.reg .rbx], 0, [], [], {}⟩

/-- The least integer divided by -1 is out of range. -/
theorem least_quotient_wraps : let t : State := ⟨fun _ => extended Int32.minValue, fun _ => 0, none⟩
    ∃ code, Gives (intBinOp single .div (.reg .rbx) (.var 0) (.const (.int (-1)))) {} code {} ∧
      Brings code t (.reg .rbx) (extended Int32.minValue) := by
  intro t
  have usable : (Location.reg .rbx).Usable := (by decide : Reg.rbx ∈ allocatable)
  have aligned : t.Aligned := (by decide : (extended Int32.minValue).toNat % slotBytes = 0)
  have agrees := code_agrees_with_folding (s := single) (w := {}) (a := Int32.minValue) (.var (v := 0) rfl) (.int (-1))
    (.place usable) (.imm (-1)) usable aligned rfl rfl
  obtain ⟨c, code, same, rest⟩ := agrees.1 .div (.int Int32.minValue) (by decide)
  cases same
  exact ⟨code, rest⟩

end Lowering

end Quadcode
