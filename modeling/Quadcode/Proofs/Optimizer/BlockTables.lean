import Quadcode.Proofs.Eval.Lockstep
import Quadcode.Proofs.Graph.Edits
import Quadcode.Proofs.Optimizer.LocalEdits

/-!
# Passes that carry a table through a block

A pass within a block goes through its quadruples with a table of facts, which is empty where the block
begins. If the facts in the table hold wherever control comes to, and a quadruple is only replaced by one that
does the same as long as they do, the new function recasts the old one.
-/

namespace Quadcode

open List

variable {g : Graph} {q : Quad}

/-! ## Going through the blocks -/

/-- Transforming every block makes each laid-out block anew. -/
theorem Graph.Linked.transformBlocks (linked : g.Linked) (f : Block → Block × Nat) :
    g.Reworked (fun _ x y => y = (f x).1) g.layout (g.transformBlocks f).1 := by
  have run : g.layout.foldlM (fun r b => (.ok (r.1.modifyBlock b fun _ => (f (r.1.block b)).1,
      r.2 + (f (r.1.block b)).2) : Except Failure (Graph × Nat))) (g, 0) = .ok (g.transformBlocks f) :=
    foldlM_pure
  refine foldlM_ok (fun done (r : Graph × Nat) => g.Reworked (fun _ x y => y = (f x).1) done r.1)
    (.refl _ g) (fun done b rest r r' split before step => ?_) run
  obtain ⟨member, fresh⟩ := linked.fresh split
  cases step
  refine before.modifyBlock (linked.lt_size member) fresh ?_
  rw [before.others b fresh]

/-- Blocks that need no change stay as they are. -/
theorem Graph.transformBlocks_eq_self {f : Block → Block × Nat}
    (same : ∀ b ∈ g.layout, f (g.block b) = (g.block b, 0)) : g.transformBlocks f = (g, 0) := by
  unfold transformBlocks
  refine List.foldlRecOn (motive := fun r : Graph × Nat => r = (g, 0)) _ _ rfl fun r before b laid => ?_
  subst before
  dsimp only
  rw [same b laid]
  exact congrArg (·, 0) (modifyBlock_eq_self rfl)

/-! ## Tables -/

section Tables

variable {σ : Type} {step : σ → Quad → Quad × σ × Nat} {s : σ} {body : List Quad} {i : Nat}

/-- The table after the first quadruples. -/
def tableAt (step : σ → Quad → Quad × σ × Nat) (s : σ) (body : List Quad) (i : Nat) : σ :=
  (body.take i).foldl (fun s q => (step s q).2.1) s

theorem tableAt_succ (here : body[i]? = some q) :
    tableAt step s body (i + 1) = (step (tableAt step s body i) q).2.1 := by
  rw [tableAt, take_add_one, here]
  simp [tableAt]

theorem transformBody_getElem? (step : σ → Quad → Quad × σ × Nat) (s : σ) (body : List Quad) (i : Nat) :
    (transformBody step s body).1[i]? = body[i]?.map fun q => (step (tableAt step s body i) q).1 := by
  induction body generalizing s i with
  | nil => simp [transformBody]
  | cons q rest ih =>
    rw [transformBody_cons]
    cases i with
    | zero => rfl
    | succ i =>
      rw [getElem?_cons_succ, getElem?_cons_succ]
      exact ih _ i

theorem transformBody_table (step : σ → Quad → Quad × σ × Nat) (s : σ) (ended : body[i]? = none) :
    (transformBody step s body).2.1 = tableAt step s body i := by
  rw [tableAt, take_of_length_le (getElem?_eq_none_iff.1 ended)]
  clear ended
  induction body generalizing s with
  | nil => rfl
  | cons q rest ih =>
    rw [transformBody_cons, foldl_cons]
    exact ih _

end Tables

/-! ## Facts -/

variable {v : VarId} {shared : VarSet} {α : Type}

/-- What a table has for a key is one of its entries. -/
theorem mem_of_lookup {table : List (VarId × α)} {a : α} (found : table.lookup v = some a) : (v, a) ∈ table := by
  obtain ⟨before, after, split, -⟩ := lookup_eq_some_iff.1 found
  simp [split]

/-- What does not live in memory is private, if it is in the table. -/
theorem Graph.private_of_not_resident (resident : v ∉ g.memoryResident) (declared : v < g.vars.size) :
    g.Private ∅ v := by
  rw [mem_memoryResident, not_or] at resident
  refine ⟨⟨_, Array.getElem?_eq_getElem declared, ?_⟩, resident.1, Std.ExtTreeSet.not_mem_empty⟩
  have kind : ¬(g.vars[v].isGlobal || !g.vars[v].ty.isScalar) := fun large =>
    resident.2 ⟨_, Array.getElem?_eq_getElem declared, large⟩
  simpa using kind

/-- A private variable other than the result is as it was. -/
theorem Machine.Passed.top_of_ne {x : Option Value} {m n : Machine} (passed : Passed shared g q x m n)
    (hides : g.Private shared v) (other : q.result ≠ some v) :
    n.top v = m.top v := by
  rw [passed.top v hides, if_neg other]

/-- A private variable has the value that the quadruple had for its result. -/
theorem Machine.Passed.top_result {x : Value} {m n : Machine} (passed : Passed shared g q (some x) m n)
    (hides : g.Private shared v) (result : q.result = some v) : n.top v = some x := by
  rw [passed.top v hides, if_pos result, Option.some_or]

/-- A pass with a table of true facts recasts the function. -/
theorem Graph.recasts_of_table {strings : StringPool} {fair : Machine → Quad → Prop}
    (step : List α → Quad → Quad × List α × Nat) (fact : α → Machine → Prop) {g' : Graph}
    (alike : g.Alike g') (entry : g'.entry = g.entry)
    (body : ∀ b ∈ g.layout, g'.body b = (transformBody step [] (g.body b)).1)
    (tail : ∀ b ∈ g.layout, ∀ m : Machine, (∀ a ∈ (transformBody step [] (g.body b)).2.1, fact a m) →
      m.tick.next g (g'.tail b) = m.tick.next g (g.tail b))
    (sound : ∀ (table : List α) (m : Machine) (q : Quad), m.Shaped g → (∀ a ∈ table, fact a m) →
      fair m q → m.StandsIn True strings g q (step table q).1)
    (kept : ∀ (table : List α) (m n : Machine) (q : Quad) (x : Option Value), (∀ a ∈ table, fact a m) →
      m.Carries strings g q x n → ∀ a ∈ (step table q).2.1, fact a n) :
    g.Recasts strings fair (fun s m => ∀ a ∈ tableAt step [] (g.body s.block) s.index, fact a m) g' where
  alike := alike
  entry := entry
  start b _ m a member := by cases member
  quad s m q laid here shaped holds even := by
    refine ⟨_, ?_, sound _ m q shaped holds even⟩
    rw [body _ laid, transformBody_getElem?, here]
    rfl
  step s m n q x laid here holds carries := by
    rw [Spot.next, tableAt_succ here]
    exact kept _ m n q x holds carries
  ended s laid ended := by rw [body _ laid, transformBody_getElem?, ended, Option.map_none]
  tail s m laid ended shaped holds := by
    refine tail _ laid m ?_
    rwa [transformBody_table step [] ended]

end Quadcode
