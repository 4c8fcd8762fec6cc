import Quadcode.Optimizer.Aliases
import Quadcode.Optimizer.CommonSubexpressions
import Quadcode.Optimizer.ConstantFolding
import Quadcode.Optimizer.CopyPropagation
import Quadcode.Optimizer.DeadCode
import Quadcode.Proofs.Flow.LivePoints
import Quadcode.Proofs.Graph.Shape

/-!
# What the passes within a block change

A pass that goes through the code block by block keeps the edges, and reports no change only if it has
made none.
-/

namespace Quadcode

open Tail

/-! ## Arguments -/

theorem Op.args_mapArgs (f : Arg → Arg) (op : Op) : (op.mapArgs f).args = op.args.map f := by
  cases op with
  | ret x => cases x <;> rfl
  | _ => rfl

theorem Tail.args_mapArgs (f : Arg → Arg) (t : Tail) : (t.mapArgs f).args = t.args.map f := by
  cases t with
  | ret x => cases x <;> rfl
  | _ => rfl

variable {memory : VarSet} {f : Arg → Arg} {g h : Graph} {q : Quad} {σ : Type} {quads : List Quad}

theorem Op.mapArgs_eq_self {op : Op} (kept : ∀ a ∈ op.args, f a = a) : op.mapArgs f = op := by
  unfold Op.mapArgs
  split
  case h_12 callee xs =>
    have kept : ∀ a ∈ xs, f a = id a := kept
    rw [List.map_congr_left kept, List.map_id]
  all_goals simp_all [Op.args]

theorem Tail.mapArgs_eq_self {t : Tail} (kept : ∀ a ∈ t.args, f a = a) : t.mapArgs f = t := by
  unfold mapArgs
  split <;> simp_all [args]

@[simp]
theorem Tail.successors_mapArgs (f : Arg → Arg) (t : Tail) : (t.mapArgs f).successors = t.successors := by
  unfold mapArgs
  split <;> rfl

/-- A replacement that is counted where something is found keeps every argument if nothing is. -/
theorem replaced_eq_self {α : Type} {find? : Arg → Option α} (kept : ∀ a, find? a = none → f a = a) {args : List Arg}
    (nothing : args.countP (fun a => (find? a).isSome) = 0) : ∀ a ∈ args, f a = a := by
  intro a member
  have missing := List.countP_eq_zero.1 nothing a member
  exact kept a (by simpa using missing)

/-! ## Bodies and blocks -/

theorem transformBody_cons (step : σ → Quad → Quad × σ × Nat) (s : σ) (q : Quad) (rest : List Quad) :
    transformBody step s (q :: rest) = let (rest, s', n) := transformBody step (step s q).2.1 rest
      ((step s q).1 :: rest, s', (step s q).2.2 + n) := rfl

theorem transformBody_eq_self {step : σ → Quad → Quad × σ × Nat} (kept : ∀ s q, (step s q).2.2 = 0 → (step s q).1 = q)
    (s : σ) (body : List Quad) (nothing : (transformBody step s body).2.2 = 0) :
    (transformBody step s body).1 = body := by
  induction body generalizing s with
  | nil => rfl
  | cons q rest ih =>
    rw [transformBody_cons] at nothing ⊢
    obtain ⟨here, later⟩ := Nat.add_eq_zero_iff.1 nothing
    exact congrArg₂ List.cons (kept s q here) (ih _ later)

theorem Graph.transformBlocks_edited {f : Block → Block × Nat} (edges : ∀ x : Block, x.SameEdges (f x).1)
    (same : ∀ x, (f x).2 = 0 → (f x).1 = x) (g : Graph) : g.Edited (g.transformBlocks f).1 (g.transformBlocks f).2 := by
  unfold transformBlocks
  refine List.foldlRecOn (motive := fun r : Graph × Nat => g.Edited r.1 r.2) _ _ (.refl g)
    fun r before b _ => ?_
  exact before.trans (.modifyBlock (edges _) (same _))

/-! ## The passes -/

namespace CopyPropagation

variable {copies : Copies}

theorem replace_eq_self (a : Arg) (missing : copied? copies a = none) : replace copies a = a := by
  rw [replace, missing, Option.getD_none]

theorem quad_eq_self (nothing : (quad memory copies q).2.2 = 0) : (quad memory copies q).1 = q :=
  congrArg (Quad.mk q.result) (Op.mapArgs_eq_self (replaced_eq_self replace_eq_self nothing))

theorem graph_edited (g : Graph) : g.Edited (graph g).1 (graph g).2 := by
  refine Graph.transformBlocks_edited (fun x => ⟨rfl, rfl, rfl, successors_mapArgs _ _⟩) (fun x nothing => ?_) g
  obtain ⟨inside, behind⟩ := Nat.add_eq_zero_iff.1 nothing
  have body := transformBody_eq_self (fun _ _ => quad_eq_self) [] x.body inside
  have tail := mapArgs_eq_self (replaced_eq_self replace_eq_self behind)
  simp only [block, body, tail]

end CopyPropagation

namespace CommonSubexpressions

theorem quad_eq_self {available : Available} (nothing : (quad memory available q).2.2 = 0) :
    (quad memory available q).1 = q := by
  revert nothing
  unfold quad
  split
  · exact fun _ => rfl
  · dsimp only
    split
    · exact fun _ => rfl
    · split
      · split
        · exact fun _ => rfl
        · exact nofun
      · exact fun _ => rfl

theorem graph_edited (g : Graph) : g.Edited (graph g).1 (graph g).2 := by
  refine Graph.transformBlocks_edited (fun x => ⟨rfl, rfl, rfl, rfl⟩) (fun x nothing => ?_) g
  have body := transformBody_eq_self (fun _ _ => quad_eq_self) [] x.body nothing
  simp only [block, body]

end CommonSubexpressions

namespace Aliases

theorem body_eq_self {vars : Array Variable} {known : Known} {body : List Quad}
    (done : Aliases.body vars memory known quads = .ok (body, 0)) : body = quads := by
  induction quads generalizing known body with
  | nil =>
    simp only [Aliases.body, pure_eq_ok, Prod.mk.injEq] at done
    exact done.1.symm
  | cons q rest ih =>
    simp only [Aliases.body, bind_eq_ok, pure_eq_ok] at done
    obtain ⟨known', -, ⟨more, n⟩, others, eq⟩ := done
    obtain ⟨rfl, counted⟩ := Prod.mk.inj eq
    obtain ⟨kept, rfl⟩ := Nat.add_eq_zero_iff.1 counted
    cases found : direct? known q with
    | some q' => simp [found] at kept
    | none =>
      dsimp only
      rw [ih others]

theorem graph_edited {n : Nat} (done : graph g = .ok (h, n)) : g.Edited h n := by
  unfold graph at done
  refine foldlM_ok (fun _ (r : Graph × Nat) => g.Edited r.1 r.2) (.refl g) ?_ done
  rintro _ b _ ⟨h, n⟩ r - before step
  simp only [bind_eq_ok, pure_eq_ok] at step
  obtain ⟨⟨body, k⟩, made, rfl⟩ := step
  refine before.trans (.setBody fun nothing => ?_)
  obtain rfl : k = 0 := nothing
  exact body_eq_self made

end Aliases

namespace DeadCode

theorem body_eq_self {points : List VarSet} (enough : quads.length ≤ points.length)
    (nothing : (body memory quads points).2.1 + (body memory quads points).2.2 = 0) :
    (body memory quads points).1 = quads := by
  induction quads generalizing points with
  | nil => rfl
  | cons q rest ih =>
    cases points with
    | nil => simp at enough
    | cons live more =>
      have enough : rest.length ≤ more.length := by simpa using enough
      revert nothing
      simp only [body]
      cases fate memory live q with
      | removed | unbound => exact fun nothing => absurd nothing (by dsimp only; omega)
      | kept => exact fun nothing => congrArg (q :: ·) (ih enough nothing)

theorem graph_edited {live : Solution VarSet} {removed unbound : Nat}
    (done : graph live g = .ok (h, removed, unbound)) : g.Edited h (removed + unbound) := by
  unfold graph at done
  refine foldlM_ok (fun _ (r : Graph × Nat × Nat) => g.Edited r.1 (r.2.1 + r.2.2)) (.refl g) ?_ done
  rintro _ b _ ⟨h, n, k⟩ r - before step
  simp only [bind_eq_ok, pure_eq_ok] at step
  obtain ⟨points, found, rfl⟩ := step
  have enough : (h.body b).length ≤ points.length := by
    rw [Problem.points_length found]
    omega
  dsimp only at before ⊢
  rw [Nat.add_add_add_comm]
  exact before.trans (.setBody fun nothing => body_eq_self enough nothing)

end DeadCode

namespace ConstantFolding

variable {facts : Facts}

theorem substitute_eq_self (a : Arg) (missing : known? facts a = none) : substitute facts a = a := by
  rw [substitute, missing]

theorem quad_counts (facts : Facts) (q : Quad) : (quad facts q).2.branches = 0 ∧
      ((quad facts q).2.substituted + (quad facts q).2.folded = 0 → (quad facts q).1 = q) := by
  have kept (nothing : q.op.args.countP (fun a => (known? facts a).isSome) = 0) : q.mapArgs (substitute facts) = q :=
    congrArg (Quad.mk q.result) (Op.mapArgs_eq_self (replaced_eq_self substitute_eq_self nothing))
  unfold quad
  dsimp only
  split
  · split
    · exact ⟨rfl, fun nothing => by simp at nothing⟩
    · exact ⟨rfl, kept⟩
  · exact ⟨rfl, kept⟩

theorem body_counts (quads : List Quad) (points : List Facts) : (body quads points).2.branches = 0 ∧
      ((body quads points).2.substituted + (body quads points).2.folded = 0 → (body quads points).1 = quads) := by
  induction quads generalizing points with
  | nil => cases points <;> exact ⟨rfl, fun _ => rfl⟩
  | cons q rest ih =>
    cases points with
    | nil => exact ⟨rfl, fun _ => rfl⟩
    | cons facts more =>
      obtain ⟨noBranch, kept⟩ := quad_counts facts q
      obtain ⟨noBranches, keeps⟩ := ih more
      simp only [body, Counts.plus]
      refine ⟨by omega, fun nothing => ?_⟩
      rw [kept (by omega), keeps (by omega)]

/-- A tail leads to the same blocks unless it is a branch that is decided. -/
theorem tail_counts (facts : Facts) (t : Tail) : (tail facts t).2.branches = 0 →
      (tail facts t).1.successors = t.successors ∧ ((tail facts t).2.substituted = 0 → (tail facts t).1 = t) := by
  have kept (nothing : t.args.countP (fun a => (known? facts a).isSome) = 0) : t.mapArgs (substitute facts) = t :=
    mapArgs_eq_self (replaced_eq_self substitute_eq_self nothing)
  have successors := successors_mapArgs (substitute facts) t
  unfold tail
  dsimp only
  split
  next changed =>
    rw [changed] at kept successors
    split
    · exact nofun
    · exact fun _ => ⟨successors, kept⟩
  · exact fun _ => ⟨successors, kept⟩

theorem block_counts (points : List Facts) (x : Block) (undecided : (block points x).2.branches = 0) :
    x.SameEdges (block points x).1 ∧
      ((block points x).2.substituted + (block points x).2.folded = 0 → (block points x).1 = x) := by
  obtain ⟨-, inside⟩ := body_counts x.body points
  simp only [block, Counts.plus] at undecided ⊢
  obtain ⟨successors, behind⟩ := tail_counts (points.getLastD ∅) x.tail (by omega)
  refine ⟨⟨rfl, rfl, rfl, successors⟩, fun nothing => ?_⟩
  rw [inside (by omega), behind (by omega)]

theorem graph_edited {facts : Solution Facts} {n : Counts} (done : graph facts g = .ok (h, n))
    (undecided : n.branches = 0) : g.Edited h (n.substituted + n.folded) := by
  unfold graph at done
  suffices kept : n.branches = 0 → g.Edited h (n.substituted + n.folded) from kept undecided
  refine foldlM_ok (fun _ (r : Graph × Counts) =>
    r.2.branches = 0 → g.Edited r.1 (r.2.substituted + r.2.folded)) (fun _ => .refl g) ?_ done
  rintro _ b _ ⟨h, n⟩ r - before step
  simp only [bind_eq_ok, pure_eq_ok] at step
  obtain ⟨points, -, rfl⟩ := step
  simp only [Counts.plus] at before ⊢
  intro undecided
  obtain ⟨edges, same⟩ := block_counts points (h.block b) (by omega)
  rw [Nat.add_add_add_comm]
  exact (before (by omega)).trans (.modifyBlock edges same)

end ConstantFolding

end Quadcode
