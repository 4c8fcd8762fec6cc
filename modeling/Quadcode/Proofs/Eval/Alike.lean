import Quadcode.Proofs.Eval.Execution

/-!
# Functions with the same variables

What a quadruple does depends on the function it stands in only through its variables, and through
its name in errors.
-/

namespace Quadcode

/-- What a run sees of a variable. -/
def Variable.outline (x : Variable) : Label × Ty × Bool := (x.name, x.ty, x.isGlobal)

/-- The two functions go by one name, and a run sees no difference between their variables. -/
structure Graph.Akin (g h : Graph) : Prop where
  name : h.name = g.name
  outline : ∀ v : VarId, h.vars[v]?.map Variable.outline = g.vars[v]?.map Variable.outline

namespace Graph.Akin

theorem refl (g : Graph) : g.Akin g := ⟨rfl, fun _ => rfl⟩

theorem trans {g h k : Graph} (first : g.Akin h) (second : h.Akin k) : g.Akin k :=
  ⟨second.name.trans first.name, fun v => (second.outline v).trans (first.outline v)⟩

variable {g h : Graph} (akin : g.Akin h) (m : Machine)
include akin

omit m in
/-- A variable is in both functions or in neither. -/
theorem var_cases (v : VarId) : h.vars[v]? = none ∧ g.vars[v]? = none ∨
    ∃ x y, h.vars[v]? = some y ∧ g.vars[v]? = some x ∧ y.name = x.name ∧ y.ty = x.ty ∧ y.isGlobal = x.isGlobal := by
  have outline := akin.outline v
  cases here : g.vars[v]? with
  | none =>
    rw [here] at outline
    exact .inl ⟨Option.map_eq_none_iff.1 outline, rfl⟩
  | some x =>
    rw [here] at outline
    obtain ⟨y, there, same⟩ := Option.map_eq_some_iff.1 outline
    simp only [Variable.outline, Prod.mk.injEq] at same
    exact .inr ⟨x, y, there, rfl, same⟩

omit m in
theorem owned {v : VarId} {x : Variable} (declared : g.vars[v]? = some x) (owned : x.isGlobal = false) :
    ∃ y, h.vars[v]? = some y ∧ y.isGlobal = false := by
  rcases akin.var_cases v with ⟨-, none⟩ | ⟨_, y, there, here, -, -, scope⟩
  · cases none.symm.trans declared
  · cases here.symm.trans declared
    exact ⟨y, there, scope.trans owned⟩

theorem place (v : VarId) : m.place h v = m.place g v := by
  unfold Machine.place
  rcases akin.var_cases v with ⟨there, here⟩ | ⟨x, y, there, here, name, -, scope⟩
  · rw [there, here]
  · simp only [there, here, name, scope]

theorem fetch (p : Place) (i : Nat) : m.fetch h p i = m.fetch g p i := by
  rw [Machine.fetch, Machine.fetch, akin.name]

theorem varValue (v : VarId) : m.varValue h v = m.varValue g v := by
  simp only [Machine.varValue, akin.place, akin.fetch]

theorem arg (a : Arg) : m.arg h a = m.arg g a := by
  cases a <;> simp only [Machine.arg, akin.varValue]

theorem args (xs : List Arg) : m.args h xs = m.args g xs := by
  simp only [Machine.args, show m.arg h = m.arg g from funext (akin.arg m)]

theorem index (a : Arg) : m.index h a = m.index g a := by
  rw [Machine.index, Machine.index, akin.arg, akin.name]

theorem element (base : VarId) (i : Nat) : m.element h base i = m.element g base i := by
  unfold Machine.element
  rcases akin.var_cases base with ⟨there, here⟩ | ⟨x, y, there, here, -, ty, -⟩
  · rw [there, here]
  · simp only [there, here, ty, akin.varValue, akin.place, akin.name]

theorem pointee (v : VarId) : m.pointee h v = m.pointee g v := by
  simp only [Machine.pointee, akin.varValue, akin.name]

theorem existing (p : Place) (i : Nat) : m.existing h p i = m.existing g p i := by
  rw [Machine.existing, Machine.existing, akin.name]

omit m in
theorem number (x : Value) : x.number h = x.number g := by
  unfold Value.number
  rw [akin.name]

omit m in
theorem binOp (op : BinOp) (x y : Value) : op.apply h x y = op.apply g x y := by
  simp only [BinOp.apply, akin.number, akin.name]

omit m in
theorem unOp (op : UnOp) (x : Value) : op.apply h x = op.apply g x := by
  simp only [UnOp.apply, akin.number, akin.name]

omit m in
theorem comparison (c : Comparison) (x y : Value) : c.apply h x y = c.apply g x y := by
  unfold Comparison.apply
  rw [akin.name]

theorem effect (strings : StringPool) (op : Op) : m.effect strings h op = m.effect strings g op := by
  cases op <;> simp only [Machine.effect, akin.arg, akin.index, akin.element, akin.fetch,
    akin.existing, akin.place, akin.pointee, akin.binOp, akin.unOp, akin.comparison,
    akin.name]

theorem destination (r : Option VarId) (x : Option Value) : m.destination h r x = m.destination g r x := by
  cases r <;> cases x <;> simp only [Machine.destination, akin.existing, akin.place]

theorem act (strings : StringPool) (q : Quad) : m.act strings h q = m.act strings g q := by
  simp only [Machine.act, akin.effect, akin.destination]

theorem next (t : Tail) : m.next h t = m.next g t := by
  unfold Machine.next
  simp only [akin.arg, akin.comparison]

omit m in
theorem tys : h.vars.map (·.ty) = g.vars.map (·.ty) := by
  refine Array.ext_getElem? fun v => ?_
  rw [Array.getElem?_map, Array.getElem?_map]
  rcases akin.var_cases v with ⟨there, here⟩ | ⟨x, y, there, here, -, ty, -⟩
  · rw [there, here]
  · rw [there, here, Option.map_some, Option.map_some, ty]

end Graph.Akin

/-- The two functions number their variables alike and go by one name. -/
structure Graph.Alike (g h : Graph) : Prop where
  vars : h.vars = g.vars
  params : h.params = g.params
  name : h.name = g.name

namespace Graph.Alike

theorem refl (g : Graph) : g.Alike g := ⟨rfl, rfl, rfl⟩

theorem trans {g h k : Graph} (first : g.Alike h) (second : h.Alike k) : g.Alike k :=
  ⟨second.vars.trans first.vars, second.params.trans first.params, second.name.trans first.name⟩

variable {g h : Graph} (alike : g.Alike h)
include alike

theorem akin : g.Akin h := ⟨alike.name, fun _ => by rw [alike.vars]⟩

theorem enter (args : List Value) : Frame.enter h args = Frame.enter g args := by
  rw [Frame.enter, Frame.enter, alike.vars, alike.params]

end Graph.Alike

end Quadcode
