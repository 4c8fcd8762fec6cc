import Quadcode.Flow.Constants
import Quadcode.Proofs.Flow.Convergence

/-!
# What is known of each variable

The operations on facts, variable by variable, and the order in which unknown is below every
constant and every constant below varying. Taking facts through a quadruple respects that order only
between facts that know the same operands of arithmetic: an operator makes its result vary when an
operand is unknown, and constant when it is a constant.
-/

namespace Quadcode

open List Std.ExtTreeMap ConstState

namespace ConstState

/-- Unknown is least, varying is greatest. -/
def Le : ConstState → ConstState → Prop
  | .unknown, _ => True
  | _, .notConstant => True
  | .constant a, .constant b => a = b
  | _, _ => False

/-- The place of a state in the order. -/
def level : ConstState → Nat
  | .unknown => 0
  | .constant _ => 1
  | .notConstant => 2

variable {a b c d : ConstState}

theorem Le.refl (a : ConstState) : a.Le a := by
  cases a <;> simp [Le]

theorem Le.trans (first : a.Le b) (second : b.Le c) : a.Le c := by
  cases a <;> cases b <;> cases c <;> simp_all [Le]

theorem Le.meet (first : a.Le c) (second : b.Le d) : (a.meet b).Le (c.meet d) := by
  cases a <;> cases b <;> cases c <;> cases d <;> simp_all [Le, meet] <;> grind [Le]

theorem le_meet_left (a b : ConstState) : a.Le (a.meet b) := by
  cases a <;> cases b <;> grind [Le, meet]

theorem le_meet_right (a b : ConstState) : b.Le (a.meet b) := by
  cases a <;> cases b <;> grind [Le, meet]

theorem Le.level_le (h : a.Le b) : a.level ≤ b.level := by
  cases a <;> cases b <;> simp_all [Le, level]

theorem Le.level_lt (h : a.Le b) (different : a ≠ b) : a.level < b.level := by
  cases a <;> cases b <;> simp_all [Le, level]

theorem level_le_two (a : ConstState) : a.level ≤ 2 := by
  cases a <;> simp [level]

@[simp]
theorem meet_unknown (a : ConstState) : a.meet .unknown = a := by
  cases a <;> rfl

@[simp]
theorem meet_eq_unknown : a.meet b = .unknown ↔ a = .unknown ∧ b = .unknown := by
  cases a <;> cases b <;> simp [meet]
  split <;> simp

end ConstState

namespace Facts

variable {m n : Facts} {v : VarId}

@[simp]
theorem lookup_empty (v : VarId) : lookup ∅ v = .unknown := by
  simp [lookup]

theorem lookup_insert (m : Facts) (v u : VarId) (s : ConstState) :
    lookup (m.insert v s) u = if v = u then s else m.lookup u := by
  unfold lookup
  rw [Std.ExtTreeMap.getElem?_insert]
  simp only [Nat.compare_eq_eq]
  split <;> rfl

theorem lookup_set (m : Facts) (v u : VarId) (s : ConstState) :
    (m.set v s).lookup u = if v = u then s else m.lookup u := by
  unfold set
  split
  next unknown =>
    unfold lookup
    rw [getElem?_erase]
    simp only [Nat.compare_eq_eq]
    split <;> simp [unknown]
  · exact lookup_insert m v u s

theorem lookup_clobber (m : Facts) (vs : List VarId) (u : VarId) :
    (m.clobber vs).lookup u = if u ∈ vs then .notConstant else m.lookup u := by
  unfold clobber
  induction vs generalizing m with
  | nil => simp
  | cons v rest ih =>
    rw [foldl_cons, ih, lookup_insert]
    by_cases later : u ∈ rest
    · simp [later]
    · simp [later, eq_comm (a := v)]

/-- Meeting facts meets what they say of each variable. -/
theorem lookup_meet (a b : Facts) (v : VarId) : (a.meet b).lookup v = (a.lookup v).meet (b.lookup v) := by
  -- Each entry of `b` is met with the old entry of `a`, and no other entry of `b` is for its key.
  have fold : ∀ (entries : List (VarId × ConstState)) (r : Facts), entries.Pairwise (fun e e' => e.1 ≠ e'.1) →
      (∀ s, (v, s) ∈ entries → lookup (entries.foldl (fun r e => set r e.1 ((lookup a e.1).meet e.2)) r) v =
          (a.lookup v).meet s) ∧
      ((∀ s, (v, s) ∉ entries) → lookup (entries.foldl (fun r e => set r e.1 ((lookup a e.1).meet e.2)) r) v =
          r.lookup v) := by
    intro entries
    induction entries with
    | nil => simp
    | cons e rest ih =>
      intro r distinct
      rw [pairwise_cons] at distinct
      obtain ⟨hit, miss⟩ := ih (set r e.1 ((lookup a e.1).meet e.2)) distinct.2
      rw [foldl_cons]
      refine ⟨fun s member => ?_, fun absent => ?_⟩
      · rcases mem_cons.1 member with rfl | later
        · rw [miss fun t later => distinct.1 _ later rfl, lookup_set, if_pos rfl]
        · exact hit s later
      · rw [miss fun t later => absent t (mem_cons_of_mem e later), lookup_set,
          if_neg fun same => absent e.2 (by simp [← same])]
  obtain ⟨hit, miss⟩ := fold b.toList a (by
    simpa only [Nat.compare_eq_eq, ne_eq] using distinct_keys_toList (t := b))
  unfold meet
  rw [foldl_eq_foldl_toList]
  cases entry : b[v]? with
  | none =>
    rw [miss fun s member => by
      rw [mem_toList_iff_getElem?_eq_some, entry] at member
      cases member]
    simp [lookup, entry]
  | some s =>
    rw [hit s (mem_toList_iff_getElem?_eq_some.2 entry)]
    simp [lookup, entry]

/-- Nothing is recorded of an unknown variable. -/
def Proper (m : Facts) : Prop := ∀ v : VarId, m[v]? ≠ some unknown

/-- Something is known of a variable: it has been assigned, or may have been. -/
def Known (m : Facts) (v : VarId) : Prop := m.lookup v ≠ .unknown

/-- Facts below others say the same of a variable, or nothing, or are contradicted. -/
def Le (m n : Facts) : Prop := ∀ v, (m.lookup v).Le (n.lookup v)

theorem proper_empty : Proper ∅ := by
  simp [Proper]

section

variable (proper : m.Proper)
include proper

theorem Proper.insert {s : ConstState} (known : s ≠ .unknown) : Proper (m.insert v s) := by
  intro u
  rw [Std.ExtTreeMap.getElem?_insert]
  split
  · simpa using known
  · exact proper u

theorem Proper.set (v : VarId) (s : ConstState) : (m.set v s).Proper := by
  unfold Facts.set
  split
  · intro u
    rw [getElem?_erase]
    split
    · simp
    · exact proper u
  next known => exact proper.insert known

theorem Proper.clobber (vs : List VarId) : (m.clobber vs).Proper :=
  List.foldlRecOn vs _ proper fun _ before _ _ => before.insert (by simp)

theorem Proper.meet (n : Facts) : (m.meet n).Proper := by
  unfold Facts.meet
  rw [foldl_eq_foldl_toList]
  exact List.foldlRecOn _ _ proper fun _ before _ _ => before.set _ _

/-- Facts that say the same of every variable are equal. -/
theorem Proper.ext (proper' : n.Proper) (same : ∀ v, m.lookup v = n.lookup v) : m = n := by
  apply Std.ExtTreeMap.ext_getElem?
  intro v
  have here := same v
  have := proper v
  have := proper' v
  unfold lookup at here
  cases left : m[v]? <;> cases right : n[v]? <;> simp_all [eq_comm]

end

theorem known_meet : (m.meet n).Known v ↔ m.Known v ∨ n.Known v := by
  rw [Known, lookup_meet, ne_eq, meet_eq_unknown, not_and_or]
  rfl

theorem known_clobber {vs : List VarId} : (m.clobber vs).Known v ↔ v ∈ vs ∨ m.Known v := by
  unfold Known
  rw [lookup_clobber]
  split <;> simp_all

theorem not_known_empty : ¬Known ∅ v := by
  simp [Known]

theorem le_meet_left (m n : Facts) : m.Le (m.meet n) := by
  intro v
  rw [lookup_meet]
  exact ConstState.le_meet_left _ _

theorem le_meet_right (m n : Facts) : n.Le (m.meet n) := by
  intro v
  rw [lookup_meet]
  exact ConstState.le_meet_right _ _

theorem Le.meet {m' n' : Facts} (first : m.Le m') (second : n.Le n') : (m.meet n).Le (m'.meet n') := by
  intro v
  rw [lookup_meet, lookup_meet]
  exact (first v).meet (second v)

end Facts

namespace Constants

variable {g : Graph} {escaping addressTaken : List VarId} {q : Quad} {m : Facts} {v : VarId}

/-- The facts once what a quadruple may overwrite unnamed has been made to vary. -/
def spoiled (escaping addressTaken : List VarId) (q : Quad) (m : Facts) : Facts :=
  match q.op with
  | .call .. => m.clobber escaping
  | .derefStore .. => m.clobber addressTaken
  | _ => m

theorem after_eq : after escaping addressTaken q m = match q.result with
    | some r => (spoiled escaping addressTaken q m).set r ((spoiled escaping addressTaken q m).eval q.op)
    | none => spoiled escaping addressTaken q m := rfl

theorem proper_spoiled (proper : m.Proper) : (spoiled escaping addressTaken q m).Proper := by
  unfold spoiled
  split
  · exact proper.clobber _
  · exact proper.clobber _
  · exact proper

theorem proper_after (proper : m.Proper) : (after escaping addressTaken q m).Proper := by
  rw [after_eq]
  split
  · exact (proper_spoiled proper).set _ _
  · exact proper_spoiled proper

/-- What is said of a variable after a quadruple. -/
theorem lookup_after : (after escaping addressTaken q m).lookup v =
    if q.result = some v then (spoiled escaping addressTaken q m).eval q.op
    else (spoiled escaping addressTaken q m).lookup v := by
  rw [after_eq]
  cases q.result with
  | none => simp
  | some r => simp [Facts.lookup_set]

/-- The facts before the quadruple that `front` leads up to. -/
def upTo (g : Graph) (front : List Quad) (m : Facts) : Facts := front.foldl (fun m q => (problem g).quad q m) m

theorem upTo_snoc (g : Graph) (front : List Quad) (q : Quad) (m : Facts) :
    upTo g (front ++ [q]) m = (problem g).quad q (upTo g front m) :=
  foldl_concat ..

theorem through_eq (g : Graph) (b : BlockId) (m : Facts) : (problem g).through g b m = upTo g (g.body b) m := rfl

end Constants

end Quadcode
