import Quadcode.Flow.Liveness
import Quadcode.Proofs.Flow.Convergence

/-!
# Live variables as sets that grow

Which variables are live before a quadruple or a block, member by member, and why the sweeps for
live variables come to an end: the sets only grow, and hold only variables the function mentions.
-/

namespace Quadcode

open List Std.ExtTreeSet Problem

@[simp]
theorem VarSet.mem_addAll {s : VarSet} {vs : List VarId} {v : VarId} : v ∈ VarSet.addAll s vs ↔ v ∈ s ∨ v ∈ vs := by
  unfold VarSet.addAll
  induction vs generalizing s with
  | nil => simp
  | cons u rest ih =>
    rw [foldl_cons, ih, mem_insert, Nat.compare_eq_eq, mem_cons]
    grind

namespace Liveness

variable {g : Graph} {v : VarId}

/-- A quadruple keeps alive what it reads: by name, as a call, or through a pointer. -/
def Reads (globals addressTaken : VarSet) (q : Quad) (v : VarId) : Prop := v ∈ q.uses ∨ match q.op with
    | .call .. => v ∈ globals ∨ v ∈ addressTaken
    | .deref _ => v ∈ addressTaken
    | _ => False

variable {live live' addressTaken globals : VarSet} {b : BlockId} {q : Quad}

theorem mem_before : v ∈ before globals addressTaken q live ↔
      (v ∈ live ∧ q.result ≠ some v) ∨ Reads globals addressTaken q v := by
  unfold before Reads
  cases q.result with
  | none => cases q.op <;> simp [or_assoc]
  | some r =>
    cases q.op <;> simp [mem_erase, or_assoc, and_comm]

/-- The variables that a function mentions where liveness looks. -/
def mentioned (g : Graph) : List VarId := g.globals ++ g.addressTaken.toList ++
    g.layout.flatMap fun b => (g.body b).flatMap Quad.uses ++ (g.tail b).uses

/-- Every live variable is mentioned. -/
def Within (g : Graph) (live : VarSet) : Prop := ∀ v ∈ live, v ∈ mentioned g

theorem before_mono (sub : ∀ v ∈ live, v ∈ live') :
    ∀ v ∈ before globals addressTaken q live, v ∈ before globals addressTaken q live' := by
  intro v
  rw [mem_before, mem_before]
  exact Or.imp_left (And.imp_left (sub v))

theorem through_mono (sub : ∀ v ∈ live, v ∈ live') :
    ∀ v ∈ (problem g).through g b live, v ∈ (problem g).through g b live' := by
  suffices general : ∀ body : List Quad, ∀ v ∈ body.foldr (problem g).quad ((problem g).tail (g.tail b) live),
      v ∈ body.foldr (problem g).quad ((problem g).tail (g.tail b) live') from general _
  intro body
  induction body with
  | nil =>
    intro v
    simp only [problem, foldr_nil, VarSet.mem_addAll]
    exact Or.imp_left (sub v)
  | cons q rest ih => exact before_mono ih

theorem reads_mentioned (member : b ∈ g.layout) (inside : q ∈ g.body b)
    (read : Reads (.ofList g.globals) g.addressTaken q v) : v ∈ mentioned g := by
  unfold Reads at read
  simp only [mentioned, mem_append, mem_flatMap, mem_toList]
  rcases read with named | reached
  · exact .inr ⟨b, member, .inl ⟨q, inside, named⟩⟩
  · split at reached
    · rw [Std.ExtTreeSet.mem_ofList, List.contains_iff_mem] at reached
      exact .inl reached
    · exact .inl (.inr reached)
    · exact reached.elim

theorem through_within (member : b ∈ g.layout) (within : Within g live) : Within g ((problem g).through g b live) := by
  suffices general : ∀ body : List Quad, (∀ q ∈ body, q ∈ g.body b) →
      Within g (body.foldr (problem g).quad ((problem g).tail (g.tail b) live)) from
    general _ fun _ inside => inside
  intro body inside
  induction body with
  | nil =>
    intro v live_v
    simp only [problem, foldr_nil, VarSet.mem_addAll] at live_v
    rcases live_v with old | used
    · exact within v old
    · simp only [mentioned, mem_append, mem_flatMap]
      exact .inr ⟨b, member, .inr used⟩
  | cons q rest ih =>
    intro v live_v
    rcases mem_before.1 live_v with ⟨old, -⟩ | read
    · exact ih (fun r later => inside r (mem_cons_of_mem q later)) v old
    · exact reads_mentioned member (inside q mem_cons_self) read

/-- How many mentioned variables are live. -/
def size (g : Graph) (live : VarSet) : Nat := ((mentioned g).map fun v => if v ∈ live then 1 else 0).sum

theorem size_lt (within : Within g live') (sub : ∀ v ∈ live, v ∈ live') (different : live ≠ live') :
    size g live < size g live' := by
  have extra : ∃ v, v ∈ live' ∧ v ∉ live := by
    by_contra none
    push Not at none
    exact different (ext_mem fun v => ⟨sub v, none v⟩)
  obtain ⟨v, new, missing⟩ := extra
  refine sum_lt_sum _ _ (fun u _ => ?_) ⟨v, within v new, by simp [new, missing]⟩
  by_cases old : u ∈ live
  · simp [old, sub u old]
  · simp [old]

theorem size_le (g : Graph) (live : VarSet) : size g live ≤ (mentioned g).length := by
  have each : ∀ x ∈ (mentioned g).map fun v => if v ∈ live then 1 else 0, x ≤ 1 := by
    simp only [mem_map]
    rintro x ⟨v, -, rfl⟩
    split <;> omega
  simpa [size] using sum_le_card_nsmul _ _ each

/-- The sets of live variables only grow. -/
def ascent (linked : g.Linked) : (problem g).Ascent g where
  le live live' := ∀ v ∈ live, v ∈ live'
  rank := size g
  top := (mentioned g).length
  fit b live := b ∈ g.layout ∧ Within g live
  settled b live := b ∈ g.layout ∧ Within g live
  le_refl _ _ := id
  le_trans first second v := second v ∘ first v
  initial_le _ v member := by simp [problem] at member
  meet_le first second v := by
    simp only [problem, Std.ExtTreeSet.mem_union_iff]
    exact Or.imp (first v) (second v)
  through_le _ _ sub := through_mono sub
  fit_inflow {value _ b _} at_b _ all := by
    have member : b ∈ g.layout := (Problem.mem_order linked).1 (by rw [at_b]; simp)
    refine ⟨member, ?_⟩
    refine inflow_holds _ ?_ fun c edge live within => ?_
    · intro v
      split <;> simp +contextual [problem, mentioned]
    · intro v met
      rcases mem_union_iff.1 met with old | new
      · exact within v old
      · have inside := neighbour_mem linked member edge
        rcases all c ((mem_order linked).2 inside) with settled | initial
        · exact settled.2 v new
        · simp [initial, problem] at new
  settled_through fit := ⟨fit.1, through_within fit.1 fit.2⟩
  rank_lt _ settled sub different := size_lt settled.2 sub different
  rank_le_top := size_le g

end Liveness

end Quadcode
