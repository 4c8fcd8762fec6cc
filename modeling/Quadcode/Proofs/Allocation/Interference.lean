import Quadcode.Allocation.Interference
import Quadcode.Proofs.Flow.LivePoints

/-!
# What interferes

Edges are only ever added, and always in both directions. So the finished relation joins a variable
to all that is live behind each quadruple that assigns it, and a parameter to all that is live at the
start.
-/

namespace Quadcode

open List Liveness

namespace Interference

variable {i j : Interference} {a b c d u v : VarId} {bs : List VarId} {q : Quad} {after candidates : VarSet}

/-- Each is a neighbour of the other. -/
def Joins (i : Interference) (a b : VarId) : Prop := b ∈ i.neighbours a ∧ a ∈ i.neighbours b

theorem Joins.symm (joined : i.Joins a b) : i.Joins b a := And.symm joined

/-- The relation keeps its edges. -/
def Grows (i j : Interference) : Prop := ∀ u v, i.Joins u v → j.Joins u v

theorem Grows.refl : i.Grows i := fun _ _ => id

theorem Grows.trans {k : Interference} (first : i.Grows j) (second : j.Grows k) : i.Grows k :=
  fun u v => second u v ∘ first u v

theorem mem_neighbours_arc : v ∈ (i.arc a b).neighbours u ↔ (u = a ∧ v = b) ∨ v ∈ i.neighbours u := by
  unfold neighbours arc
  simp only
  rw [Std.ExtTreeMap.getElem?_insert]
  by_cases same : a = u
  · subst same
    simp only [Nat.compare_eq_eq, if_true, Option.getD_some, Std.ExtTreeSet.mem_insert, true_and, eq_comm (a := b)]
    rfl
  · simp [same, Ne.symm same]

theorem joins_link (different : a ≠ b) : (i.link a b).Joins a b := by
  rw [link, if_neg different, Joins]
  simp only [mem_neighbours_arc]
  grind

theorem link_grows : i.Grows (i.link a b) := by
  intro u v joined
  unfold link
  split
  · exact joined
  · unfold Joins at *
    simp only [mem_neighbours_arc]
    exact ⟨.inr (.inr joined.1), .inr (.inr joined.2)⟩

theorem linkAll_grows : i.Grows (i.linkAll a bs) :=
  List.foldlRecOn (motive := i.Grows) bs _ .refl fun _ grown _ _ => grown.trans link_grows

theorem joins_linkAll (member : b ∈ bs) (different : a ≠ b) : (i.linkAll a bs).Joins a b := by
  obtain ⟨front, back, rfl⟩ := append_of_mem member
  rw [linkAll, foldl_append, foldl_cons]
  exact linkAll_grows _ _ (joins_link different)

theorem clique_grows (vs : List VarId) (i : Interference) : i.Grows (i.clique vs) := by
  induction vs generalizing i with
  | nil => exact .refl
  | cons a rest ih => exact linkAll_grows.trans (ih _)

theorem quad_grows : i.Grows (i.quad candidates q after) := by
  unfold quad
  simp only
  split
  · split
    · exact (clique_grows _ _).trans linkAll_grows
    · exact clique_grows _ _
  · exact clique_grows _ _

theorem quads_grow (pairs : List (Quad × VarSet)) (i : Interference) :
    i.Grows (pairs.foldl (fun i x => i.quad candidates x.1 x.2) i) :=
  List.foldlRecOn (motive := i.Grows) pairs _ .refl fun _ grown _ _ => grown.trans quad_grows

/-- The assigned variable is joined to what is live afterwards. -/
theorem joins_quad (assigned : q.result = some d) (fit : d ∈ candidates) (live : v ∈ after) (fit' : v ∈ candidates)
    (different : d ≠ v) : (i.quad candidates q after).Joins d v := by
  unfold quad
  simp only [assigned, if_pos fit]
  exact joins_linkAll (by simp [live, fit']) different

variable {g : Graph} {s : Solution VarSet} {block : BlockId}

/-- What a block brings. -/
theorem block_joins (given : Interference.block candidates g (Liveness.problem g) s i block = .ok j) :
    i.Grows j ∧ ∀ k q d v, (g.body block)[k]? = some q → q.result = some d → d ∈ candidates →
      v ∈ liveAt g s.near block (k + 1) → v ∈ candidates → d ≠ v → j.Joins d v := by
  unfold Interference.block at given
  simp only [bind_eq_ok, pure_eq_ok] at given
  obtain ⟨_, -, points, pointed, rfl⟩ := given
  refine ⟨((clique_grows _ _).trans (quads_grow _ _)).trans (clique_grows _ _), ?_⟩
  intro k q d v here assigned fit live fit' different
  have member : (q, liveAt g s.near block (k + 1)) ∈ (g.body block).zip points := by
    refine mem_of_getElem? (i := k) ?_
    rw [getElem?_zip_eq_some]
    exact ⟨here, points_getElem? pointed here⟩
  obtain ⟨front, back, split⟩ := append_of_mem member
  rw [split, foldl_append, foldl_cons]
  exact clique_grows _ _ _ _ (quads_grow _ _ _ _ (joins_quad assigned fit live fit' different))

/-- No candidate is assigned where another one is live that it is not joined to. -/
structure Complete (i : Interference) (g : Graph) (near : BlockMap VarSet) (candidates : VarSet) : Prop where
  assigned : ∀ b ∈ g.layout, ∀ k q d v, (g.body b)[k]? = some q → q.result = some d →
    d ∈ candidates → v ∈ liveAt g near b (k + 1) → v ∈ candidates → d ≠ v → i.Joins d v
  entered : ∀ p ∈ g.params, p ∈ candidates → ∀ v ∈ liveAt g near g.entry 0, v ∈ candidates → p ≠ v → i.Joins p v

/-- The relation grows from one that joins the parameters to what is live at the start. -/
theorem build_eq_ok (linked : g.Linked) (solved : g.liveness = .ok s) (built : build g s candidates = .ok i) :
    ∃ start, g.layout.foldlM (Interference.block candidates g (Liveness.problem g) s) start = .ok i ∧
      ∀ p ∈ g.params, p ∈ candidates → ∀ v ∈ Liveness.liveAt g s.near g.entry 0, v ∈ candidates →
        p ≠ v → start.Joins p v := by
  unfold build at built
  simp only at built
  split at built
  next empty => exact ⟨{}, built, by simp [isEmpty_iff.1 empty]⟩
  · rw [Liveness.blockIn_eq linked solved linked.entry_mem] at built
    refine ⟨_, built, fun p member fit v live fit' different => ?_⟩
    have grows : ∀ (ps : List VarId) (i : Interference) (live : List VarId),
        i.Grows (ps.foldl (·.linkAll · live) i) := fun ps i live =>
      List.foldlRecOn (motive := i.Grows) ps _ .refl fun _ grown _ _ => grown.trans linkAll_grows
    have listed : p ∈ g.params.filter (· ∈ candidates) := by simp [member, fit]
    obtain ⟨front, back, split⟩ := append_of_mem listed
    rw [split, foldl_append, foldl_cons]
    exact grows _ _ _ _ _ (joins_linkAll (by simp [live, fit']) different)

theorem build_complete (linked : g.Linked) (solved : g.liveness = .ok s) (built : build g s candidates = .ok i) :
    i.Complete g s.near candidates := by
  obtain ⟨start, run, started⟩ := build_eq_ok linked solved built
  have loop := foldlM_ok (fun done (j : Interference) => start.Grows j ∧ ∀ b ∈ done, ∀ k q d v,
      (g.body b)[k]? = some q → q.result = some d → d ∈ candidates →
      v ∈ Liveness.liveAt g s.near b (k + 1) → v ∈ candidates → d ≠ v → j.Joins d v)
    ⟨.refl, by simp⟩ ?_ run
  · exact ⟨loop.2, fun p member fit v live fit' different =>
      loop.1 _ _ (started p member fit v live fit' different)⟩
  · rintro done b rest j j' - ⟨grown, all⟩ step
    obtain ⟨grows, here⟩ := block_joins step
    refine ⟨grown.trans grows, fun c member => ?_⟩
    rcases mem_append.1 member with earlier | last
    · exact fun k q d v at_k assigned fit live fit' different =>
        grows _ _ (all c earlier k q d v at_k assigned fit live fit' different)
    · rw [mem_singleton.1 last]
      exact here

end Interference

end Quadcode
