import Quadcode.Optimizer.InvariantMotion
import Quadcode.Proofs.Eval.Tracking
import Quadcode.Proofs.Flow.NaturalLoops
import Quadcode.Proofs.Graph.Edits

/-!
# Code that can be lifted out of a loop

What the search for invariant code has found are quadruples that read only what the loop does not assign or
what was found before, and whose results are assigned nowhere else in the loop and not read before that.
Moving them leaves the other code of the loop in its order.
-/

namespace Quadcode.InvariantMotion

open List Std.ExtTreeSet Quadcode.Graph Liveness

variable {g : Graph} {l : Loop} {memory : VarSet} {found : Found} {spot : Spot} {spots : List Spot} {q : Quad}
  {v : VarId} {s : Quadcode.Spot} {b : BlockId} {i : Nat}

/-! ## What is found -/

/-- A quadruple of a loop that can be done in front of it, after those that assign `vars`. -/
structure Liftable (g : Graph) (l : Loop) (memory vars : VarSet) (spot : Spot) (q : Quad) (v : VarId) : Prop where
  inside : spot.1 ∈ l.blocks
  here : (g.body spot.1)[spot.2]? = some q
  movable : isMovable q
  result : q.result = some v
  new : v ∉ vars
  resident : v ∉ memory
  once : ∀ b ∈ l.blocks, ∀ i r, (g.body b)[i]? = some r → r.result = some v → (b, i) = spot
  dead : ¬g.LiveFrom v ⟨l.header, 0⟩
  reads : ∀ u ∈ q.uses, u ∉ memory ∧ (u ∈ vars ∨ ∀ b ∈ l.blocks, ∀ r ∈ g.body b, r.result ≠ some u)

/-- Every quadruple can be lifted after those found before it. -/
inductive Lifted (g : Graph) (l : Loop) (memory : VarSet) : Found → Prop
  | nothing : Lifted g l memory {}
  | more {found : Found} {spot : Spot} {q : Quad} {v : VarId} : Lifted g l memory found →
      Liftable g l memory found.vars spot q v → Lifted g l memory ⟨found.vars.insert v, spot :: found.spots⟩

namespace Lifted

theorem of_spot (lifted : Lifted g l memory found) (member : spot ∈ found.spots) :
    ∃ vars q v, Liftable g l memory vars spot q v ∧ v ∈ found.vars ∧ ∀ u ∈ vars, u ∈ found.vars := by
  induction lifted with
  | nothing => cases member
  | more lifted liftable ih =>
    rcases mem_cons.1 member with rfl | earlier
    · exact ⟨_, _, _, liftable, mem_insert_self, fun u known => mem_insert.2 (.inr known)⟩
    · obtain ⟨vars, q, v, liftable', member', before⟩ := ih earlier
      exact ⟨vars, q, v, liftable', mem_insert.2 (.inr member'), fun u known => mem_insert.2 (.inr (before u known))⟩

theorem of_var (lifted : Lifted g l memory found) (member : v ∈ found.vars) :
    ∃ spot ∈ found.spots, ∃ vars q, Liftable g l memory vars spot q v := by
  induction lifted with
  | nothing => simp at member
  | @more found spot q u lifted liftable ih =>
    by_cases same : u = v
    · subst same
      exact ⟨spot, mem_cons_self, _, _, liftable⟩
    · have earlier : v ∈ found.vars := by
        simpa [mem_insert, same] using member
      obtain ⟨spot', listed, rest⟩ := ih earlier
      exact ⟨spot', mem_cons_of_mem _ listed, rest⟩

end Lifted

section Search

variable {s : Setting} {more : Found}

/-- What is known of a loop when it is searched. -/
structure Searches (s : Setting) (g : Graph) (l : Loop) (memory : VarSet) : Prop where
  graph : s.graph = g
  memory : s.memory = memory
  blocks : ∀ b, b ∈ s.blocks ↔ b ∈ l.blocks
  assigned : s.assigned = g.assignments s.blocks
  live : ∀ v, g.LiveFrom v ⟨l.header, 0⟩ → v ∈ s.liveAtHeader

theorem examine_lifted (searches : Searches s g l memory) (lifted : Lifted g l memory found) (member : b ∈ s.blocks)
    (here : (g.body b)[i]? = some q) (done : examine s b found q i = .ok more) :
    Lifted g l memory more := by
  unfold examine at done
  split at done
  · cases done
    exact lifted
  next v result =>
    split at done
    next single =>
      obtain ⟨unseen, -, done⟩ := bind_eq_ok.1 done
      split at done
      next reads =>
        cases done
        simp only [isSingle, readsInvariant, searches.memory, searches.assigned, Bool.and_eq_true,
          decide_eq_true_eq, all_eq_true, Bool.or_eq_true] at single reads
        obtain ⟨⟨⟨⟨new, movable⟩, resident⟩, once⟩, dead⟩ := single
        refine lifted.more ⟨(searches.blocks b).1 member, here, movable, result, new, resident,
          fun c inside j r there result' => ?_, fun live => dead (searches.live v live), fun u read => ?_⟩
        · obtain ⟨rfl, rfl⟩ := eq_of_assigned_once once member here result ((searches.blocks c).2 inside) there result'
          rfl
        · obtain ⟨outside, unassigned | earlier⟩ := reads.1 u read
          · refine ⟨outside, .inr fun c inside r listed => ?_⟩
            exact result_ne_of_unassigned (Option.isNone_iff_eq_none.1 unassigned) ((searches.blocks c).2 inside) listed
          · exact ⟨outside, .inl earlier⟩
      · cases done
        exact lifted
    · cases done
      exact lifted

theorem scan_lifted (searches : Searches s g l memory) (lifted : Lifted g l memory found)
    (done : scan s found = .ok more) : Lifted g l memory more := by
  refine foldlM_ok (fun _ => Lifted g l memory) lifted ?_ done
  intro before b rest found found' split lifted done
  have member : b ∈ s.blocks := split ▸ mem_append_right _ mem_cons_self
  refine foldlM_ok (fun _ => Lifted g l memory) lifted ?_ done
  rintro before' ⟨q, i⟩ rest' found found' split' lifted done
  have here : (g.body b)[i]? = some q := by
    rw [searches.graph] at split'
    exact mem_zipIdx_iff_getElem?.1 (split' ▸ mem_append_right _ mem_cons_self)
  exact examine_lifted searches lifted member here done

theorem collect_lifted {fuel : Nat} (searches : Searches s g l memory) (lifted : Lifted g l memory found)
    (done : collect s fuel found = .ok more) : Lifted g l memory more := by
  induction fuel generalizing found with (
    rw [collect] at done
    obtain ⟨found', scanned, done⟩ := bind_eq_ok.1 done
    split at done
    · cases done
      exact lifted)
  | zero => cases done
  | succ fuel ih => exact ih (scan_lifted searches lifted scanned) done

/-- Whatever is found in a loop can be lifted out of it, in the order in which it is given. -/
theorem invariants_lifted {d : Dominators} {live : Solution VarSet} (linked : g.Linked) (loop : g.HasLoop l)
    (solved : g.liveness = .ok live) (done : invariants g l d live memory = .ok spots) :
    ∃ found, Lifted g l memory found ∧ spots = found.spots.reverse := by
  unfold invariants at done
  obtain ⟨liveAtHeader, header, done⟩ := bind_eq_ok.1 done
  obtain ⟨found, collected, done⟩ := bind_eq_ok.1 done
  cases done
  have laid := loop.header_mem_layout linked
  refine ⟨found, collect_lifted ?_ .nothing collected, rfl⟩
  refine ⟨rfl, rfl, fun b => ?_, rfl, fun v alive => ?_⟩
  · simp only [Loop.blocksInLayout, mem_filter, Loop.contains, decide_eq_true_eq]
    exact and_iff_right_of_imp (loop.mem_layout linked)
  · cases (blockIn_eq linked solved laid).symm.trans header
    rw [← atSpot_start]
    exact mem_atSpot_of_liveFrom linked (Problem.solveWithin_solves solved) laid alive

end Search

/-! ## What is moved -/

/-- The quadruples at some spots, in this order. -/
def quadsAt (g : Graph) (spots : List Spot) : List Quad := spots.filterMap fun (b, i) => (g.body b)[i]?

/-- The other quadruples of a block. -/
def remaining (g : Graph) (spots : List Spot) (b : BlockId) : List Quad :=
  ((g.body b).zipIdx.filter fun (_, i) => !spots.contains (b, i)).map (·.1)

/-- Where a spot of a block is when the quadruples at some spots are gone. -/
def shift (spots : List Spot) (s : Quadcode.Spot) : Quadcode.Spot :=
  ⟨s.block, (List.range s.index).countP fun i => !spots.contains (s.block, i)⟩

theorem shift_next_of_mem (member : (s.block, s.index) ∈ spots) : shift spots s.next = shift spots s := by
  unfold shift Quadcode.Spot.next
  rw [range_succ, countP_append, countP_singleton, if_neg (by simpa using member)]
  rfl

theorem shift_next_of_not_mem (other : (s.block, s.index) ∉ spots) : shift spots s.next = (shift spots s).next := by
  unfold shift Quadcode.Spot.next
  rw [range_succ, countP_append, countP_singleton, if_pos (by simpa using other)]

section Lists

variable {α : Type} (keep : Nat → Bool)

theorem length_filter_zipIdx (xs : List α) :
    (xs.zipIdx.filter fun x => keep x.2).length = (List.range xs.length).countP keep := by
  rw [← countP_eq_length_filter, range_eq_range', ← zipIdx_map_snd 0 xs, countP_map]
  rfl

theorem getElem?_filter_zipIdx {xs : List α} {x : α} (here : xs[i]? = some x) (kept : keep i) :
    (xs.zipIdx.filter fun x => keep x.2)[(List.range i).countP keep]? = some (x, i) := by
  obtain ⟨within, at_i⟩ := List.getElem?_eq_some_iff.1 here
  have before := length_filter_zipIdx keep (xs.take i)
  have split := take_append_drop i xs
  rw [drop_eq_getElem_cons within, at_i] at split
  rw [length_take_of_le within.le] at before
  rw [← split, zipIdx_append, filter_append, length_take_of_le within.le, Nat.zero_add,
    getElem?_append_right before.le, before, Nat.sub_self, zipIdx_cons,
    filter_cons_of_pos (p := fun x : α × Nat => keep x.2) kept, getElem?_cons_zero]

end Lists

theorem remaining_getElem? (here : (g.body s.block)[s.index]? = some q) (other : (s.block, s.index) ∉ spots) :
    (remaining g spots s.block)[(shift spots s).index]? = some q := by
  have there := getElem?_filter_zipIdx (fun i => !spots.contains (s.block, i)) here (by simpa using other)
  rw [remaining, getElem?_map]
  exact congrArg (Option.map _) there

theorem remaining_ended (ended : (g.body s.block).length ≤ s.index) :
    (remaining g spots s.block)[(shift spots s).index]? = none := by
  rw [getElem?_eq_none_iff, remaining, length_map]
  refine (length_filter_zipIdx (fun i => !spots.contains (s.block, i)) _).le.trans ?_
  exact (range_sublist.2 ended).countP_le

theorem remaining_of_clear (clear : ∀ spot ∈ spots, spot.1 ≠ b) : remaining g spots b = g.body b := by
  rw [remaining, filter_eq_self.2, zipIdx_map_fst]
  rintro ⟨q, i⟩ -
  simpa using fun member => clear (b, i) member rfl

/-- The code after the move. -/
theorem move_body {pre : BlockId} (bound : pre < g.blocks.size) (inside : ∀ spot ∈ spots, spot.1 < g.blocks.size)
    (front : ∀ spot ∈ spots, spot.1 ≠ pre) (b : BlockId) :
    (move g spots pre).body b = if b = pre then g.body pre ++ quadsAt g spots else remaining g spots b := by
  let edit (b : BlockId) (body : List Quad) : List Quad :=
    (body.zipIdx.filter fun (_, i) => (b, i) ∉ spots).map (·.1)
  have blocks {c : BlockId} (member : c ∈ (spots.map (·.1)).eraseDups) : ∃ spot ∈ spots, spot.1 = c := by
    simpa using member
  have cleared (c : BlockId) := foldl_setBody_body (g := g) edit (nodup_eraseDups (spots.map (·.1))) (fun c member => by
      obtain ⟨spot, listed, rfl⟩ := blocks member
      exact inside spot listed) c
  have size : (((spots.map (·.1)).eraseDups).foldl (fun g b => g.setBody b (edit b (g.body b))) g).blocks.size =
      g.blocks.size :=
    List.foldlRecOn (motive := fun h : Graph => h.blocks.size = g.blocks.size) _ _ rfl fun _ before _ _ =>
      setBody_size.trans before
  refine (setBody_body (size.symm ▸ bound) b).trans ?_
  by_cases same : pre = b
  · subst same
    rw [if_pos rfl, if_pos rfl]
    refine congrArg (· ++ quadsAt g spots) ((cleared pre).trans (if_neg fun member => ?_))
    obtain ⟨spot, listed, at_pre⟩ := blocks member
    exact front spot listed at_pre
  · rw [if_neg same, if_neg (Ne.symm same)]
    refine (cleared b).trans ?_
    split
    · refine congrArg (List.map _) (filter_congr fun x _ => ?_)
      simp
    next clear =>
      refine (remaining_of_clear fun spot listed at_b => clear ?_).symm
      simpa using ⟨spot.2, at_b ▸ listed⟩

/-- A move changes nothing but code. -/
structure Moved (g h : Graph) : Prop where
  alike : g.Alike h
  tail : ∀ b, h.tail b = g.tail b

theorem moved_move (g : Graph) (spots : List Spot) (pre : BlockId) : Moved g (move g spots pre) := by
  have step {h : Graph} (moved : Moved g h) (b : BlockId) (body : List Quad) : Moved g (h.setBody b body) :=
    ⟨⟨moved.alike.vars, moved.alike.params, moved.alike.name⟩, fun c => (setBody_tail c).trans (moved.tail c)⟩
  refine step ?_ pre _
  exact List.foldlRecOn (motive := Moved g) _ _ ⟨.refl g, fun _ => rfl⟩ fun h before b _ => step before b _

end Quadcode.InvariantMotion
