import Quadcode.Graph.Basic

/-!
# Variables that live in memory

A variable lives in memory if it is a global or an aggregate, or if some quadruple takes its address.
All others are private: nothing but the function itself reads or writes them.
-/

namespace Quadcode.Graph

open Array Std.ExtTreeSet

variable {g : Graph} {v : VarId}

theorem mem_addressTaken : v ∈ g.addressTaken ↔ ∃ q ∈ g.bodies, q.op = .address v := by
  have start : (∃ q ∈ g.bodies, q.op = .address v) ↔ v ∈ (∅ : VarSet) ∨ ∃ q ∈ g.bodies, q.op = .address v := by simp
  rw [start, addressTaken]
  generalize (∅ : VarSet) = s
  generalize g.bodies = qs
  induction qs generalizing s with
  | nil => simp
  | cons q rest ih =>
    refine (ih _).trans ?_
    cases op : q.op with
    | address x => simp [op, mem_insert, or_assoc, or_left_comm]
    | _ => simp [op]

theorem addressTaken_mono {h : Graph} (bodies : ∀ q ∈ h.bodies, q ∈ g.bodies) (taken : v ∈ h.addressTaken) :
    v ∈ g.addressTaken := by
  obtain ⟨q, listed, address⟩ := mem_addressTaken.1 taken
  exact mem_addressTaken.2 ⟨q, bodies q listed, address⟩

theorem mem_memoryResident : v ∈ g.memoryResident ↔ v ∈ g.addressTaken ∨
    ∃ x, g.vars[v]? = some x ∧ (x.isGlobal || !x.ty.isScalar) := by
  have loop : ∀ (vs : List VarId) (s : VarSet), v ∈ vs.foldl (fun s v =>
      let x := g.vars.getD v default
      if x.isGlobal || !x.ty.isScalar then s.insert v else s) s ↔
      v ∈ s ∨ v ∈ vs ∧ ((g.vars.getD v default).isGlobal || !(g.vars.getD v default).ty.isScalar) := by
    intro vs
    induction vs with
    | nil => simp
    | cons u rest ih =>
      intro s
      rw [List.foldl_cons, ih]
      simp only
      by_cases same : u = v
      · subst same
        split <;> simp_all
      · split <;> simp [mem_insert, same, Ne.symm same]
  rw [memoryResident, loop, List.mem_range]
  refine or_congr_right ⟨fun ⟨inside, kind⟩ => ⟨_, getElem?_eq_getElem inside, ?_⟩, fun ⟨x, declared, kind⟩ => ?_⟩
  · rwa [getD_eq_getD_getElem?, getElem?_eq_getElem inside, Option.getD_some] at kind
  · obtain ⟨inside, -⟩ := Array.getElem?_eq_some_iff.1 declared
    rw [getD_eq_getD_getElem?, declared]
    exact ⟨inside, kind⟩

end Quadcode.Graph
