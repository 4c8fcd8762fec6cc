import Quadcode.Proofs.Graph.Edges
import Quadcode.Proofs.Graph.Pieces

/-!
# Graphs built from flat code

Every jump of a built graph goes to a block that was built, so the graph is linked.
-/

namespace Quadcode

open List Tail

variable {f : Function}

theorem Segment.names_length (segments : List Segment) (s : Supply) :
    (names segments s).1.length = segments.length := by
  induction segments generalizing s with
  | nil => rfl
  | cons g rest ih => rw [names_cons, length_cons, length_cons, ih]

namespace Build

variable {labels : List Label} {segments : List Segment} {next : Option BlockId} {bs : List Block} {k : Nat}
  {b : BlockId}

theorem resolve_lt {l : Label} (success : resolve f labels l = .ok b) : b < labels.length := by
  unfold resolve at success
  split at success
  next found =>
    cases success
    exact (idxOf?_eq_some_iff.1 found).1
  · cases success

theorem following_eq (success : following f next = .ok b) : next = some b := by
  cases next with
  | none => cases success
  | some c =>
    cases success
    rfl

/-- A tail leads to blocks that carry a label, or to the next one. -/
theorem tail_targets {stop : Option Op} {t : Tail} (success : tail f labels next stop = .ok t) :
    ∀ b : Nat, b ∈ t.targets → b < labels.length ∨ next = some b := by
  unfold tail at success
  split at success
  all_goals simp only [bind_eq_ok, pure_eq_ok] at success
  · obtain ⟨target, resolved, rfl⟩ := success
    simpa [targets, successors] using Or.inl (resolve_lt resolved)
  · obtain ⟨onTrue, resolved, onFalse, next, rfl⟩ := success
    simp [targets, successors, resolve_lt resolved, following_eq next]
  · obtain ⟨onTrue, next, onFalse, resolved, rfl⟩ := success
    simp [targets, successors, resolve_lt resolved, following_eq next]
  · subst success
    simp [targets, successors]
  · subst success
    cases next <;> simp [targets, successors]

theorem blocks_length (success : Segment.blocks f labels k segments = .ok bs) : bs.length = segments.length := by
  induction segments generalizing k bs with
  | nil =>
    rw [Segment.blocks, pure_eq_ok] at success
    exact success ▸ rfl
  | cons s rest ih =>
    simp only [Segment.blocks, bind_eq_ok, pure_eq_ok] at success
    obtain ⟨t, _, more, others, rfl⟩ := success
    simp [ih others]

theorem blocks_targets (success : Segment.blocks f labels k segments = .ok bs) :
    ∀ block ∈ bs, ∀ b : Nat, b ∈ block.tail.targets → b < labels.length ∨ b < k + segments.length := by
  induction segments generalizing k bs with
  | nil =>
    rw [Segment.blocks, pure_eq_ok] at success
    simp [← success]
  | cons s rest ih =>
    simp only [Segment.blocks, bind_eq_ok, pure_eq_ok] at success
    obtain ⟨t, ended, more, others, rfl⟩ := success
    intro block member b edge
    rcases mem_cons.1 member with rfl | later
    · rcases tail_targets ended b edge with labelled | next
      · exact .inl labelled
      · cases rest with
        | nil => simp at next
        | cons r rest =>
          simp only [isEmpty_cons, Bool.false_eq_true, if_false, Option.some.injEq] at next
          simp only [length_cons]
          omega
    · rcases ih others block later b edge with labelled | next
      · exact .inl labelled
      · simp only [length_cons]
        omega

end Build

namespace Graph

variable {s s' : Supply} {g : Graph}

/-- Building by segments: no guard inside a block is ever met. -/
theorem build_eq (f : Function) (s : Supply) : build f s = (match firstRepeated [] (Segment.names f.segments s).1 with
    | some l => Build.fail f (.duplicateLabel l)
    | none => do
      let bs ← Segment.blocks f (Segment.names f.segments s).1 0 f.segments
      pure (relink ⟨f.name, f.ret, f.vars, f.params, bs.toArray, .range bs.length, 0⟩,
        (Segment.names f.segments s).2)) := by
  simp only [build, Build.ranges_starts, f.label?_pieces, f.blocks_pieces]
  rfl

theorem build_cases (built : build f s = .ok (g, s')) : ∃ bs, firstRepeated [] (Segment.names f.segments s).1 = none ∧
      Segment.blocks f (Segment.names f.segments s).1 0 f.segments = .ok bs ∧
      relink ⟨f.name, f.ret, f.vars, f.params, bs.toArray, .range bs.length, 0⟩ = g ∧
      (Segment.names f.segments s).2 = s' := by
  rw [build_eq] at built
  split at built
  · cases built
  next distinct =>
    simp only [bind_eq_ok, pure_eq_ok, Prod.mk.injEq] at built
    exact built.imp fun _ made => ⟨distinct, made⟩

/-- A built graph is linked. -/
theorem build_linked (built : build f s = .ok (g, s')) : g.Linked := by
  obtain ⟨bs, -, success, rfl, -⟩ := build_cases built
  refine Inside.relink_linked ?_ nodup_range
  have size := Build.blocks_length success
  intro b path
  induction path with
  | refl =>
    have nonempty := length_pos_iff.2 (f.segments_ne_nil)
    exact (size ▸ nonempty : 0 < bs.length)
  | @tail b c _ edge ih =>
    rw [size_toArray] at ih ⊢
    have member : bs[b] ∈ bs := getElem_mem ih
    have leads : c ∈ bs[b].tail.targets := by
      simpa [targets, Graph.tail, block, Array.getD_eq_getD_getElem?, getElem?_eq_getElem ih] using edge
    have bounds := Build.blocks_targets success _ member c leads
    rw [Segment.names_length, Nat.zero_add, or_self] at bounds
    exact size ▸ bounds

end Graph

/-- The block form of a function that builds. -/
def Function.graph (f : Function) : Graph :=
  match Graph.build f {} with
  | .ok (g, _) => g
  | .error _ => default

namespace Function

variable (f : Function) (built : (Graph.build f {}).isOk)
include built

theorem graph_built : ∃ s, Graph.build f {} = .ok (f.graph, s) := by
  unfold graph
  split
  next s eq => exact ⟨s, eq⟩
  next eq =>
    rw [eq] at built
    cases built

theorem graph_linked : f.graph.Linked := by
  obtain ⟨s, built⟩ := f.graph_built built
  exact Graph.build_linked built

end Function

end Quadcode
