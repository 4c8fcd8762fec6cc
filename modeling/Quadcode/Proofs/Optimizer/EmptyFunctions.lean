import Quadcode.Proofs.Eval.Shortcuts
import Quadcode.Proofs.Eval.Tracing
import Quadcode.Proofs.Graph.Edits
import Quadcode.Proofs.Optimizer.Sequences

/-!
# Deleting functions that do nothing

A function without quadruples that returns no value only takes steps. So the calls to it can go where their
results are not used: what is left is a short cut.
-/

namespace Quadcode.EmptyFunctions

open List Option

variable {graphs : List Graph} {empty : Std.ExtTreeSet Label} {g : Graph} {b : BlockId} {q : Quad} {name : Label}
  {m : Module}

/-! ## What is deleted -/

/-- Whether a quadruple stays when these functions go. -/
def stays (empty : Std.ExtTreeSet Label) (q : Quad) : Bool :=
  match q.op with
  | .call callee _ => callee ∉ empty
  | _ => true

theorem mem_used : name ∈ used graphs ↔ ∃ g ∈ graphs, ∃ q ∈ g.bodies, q.result.isSome ∧ ∃ xs, q.op = .call name xs := by
  simp only [used, mem_filterMap, mem_flatMap]
  constructor
  · rintro ⟨q, ⟨g, member, listed⟩, found⟩
    refine ⟨g, member, q, listed, ?_⟩
    split at found
    next v callee xs result op =>
      cases found
      exact ⟨by rw [result]; rfl, xs, op⟩
    · cases found
  · rintro ⟨g, member, q, listed, result, xs, op⟩
    obtain ⟨v, result⟩ := isSome_iff_exists.1 result
    exact ⟨q, ⟨g, member, listed⟩, by rw [result, op]⟩

theorem mem_empty : name ∈ EmptyFunctions.empty graphs ↔
    (∃ g ∈ graphs, g.name = name ∧ g.name ≠ "main" ∧ isEmpty g) ∧ name ∉ used graphs := by
  have erased : ∀ (names : List Label) (s : Std.ExtTreeSet Label),
      name ∈ names.foldl (·.erase ·) s ↔ name ∈ s ∧ name ∉ names := by
    intro names
    induction names with
    | nil => simp
    | cons first rest ih =>
      intro s
      rw [foldl_cons, ih]
      simp only [Std.ExtTreeSet.mem_erase, mem_cons, not_or, Std.LawfulEqCmp.compare_eq_iff_eq, ne_eq,
        eq_comm (a := first)]
      tauto
  rw [EmptyFunctions.empty, erased]
  simp only [Std.ExtTreeSet.mem_ofList, List.contains_iff_mem, List.mem_map, List.mem_filter, ne_eq,
    decide_not, Bool.and_eq_true, Bool.not_eq_true', decide_eq_false_iff_not]
  refine and_congr_left fun _ => exists_congr fun g => ?_
  tauto

/-- The body of a block after the calls have gone. -/
theorem dropCalls_body (linked : g.Linked) (member : b ∈ g.layout) :
    (dropCalls empty g).body b = (g.body b).filter (stays empty) := by
  refine (Graph.foldl_setBody_body (fun _ body => body.filter (stays empty)) linked.layout_nodup
    (fun c => linked.lt_size) b).trans ?_
  rw [if_pos member]

theorem dropCalls_tail : (dropCalls empty g).tail b = g.tail b :=
  Graph.foldl_setBody_tail (fun _ body => body.filter (stays empty)) g.layout b

theorem dropCalls_alike : g.Alike (dropCalls empty g) :=
  List.foldlRecOn (motive := g.Alike) _ _ (.refl g) fun _ before _ _ =>
    ⟨before.vars, before.params, before.name⟩

/-! ## Runs -/

section Runs

variable {program : Module} {p : Point} {x : Option Value} {n : Machine}

/-- An empty function returns nothing and changes nothing. -/
theorem idle_runs (run : Runs program p x n) (linked : p.graph.Linked) (idle : isEmpty p.graph)
    (member : p.block ∈ p.graph.layout) : x = none ∧ p.machine.Same n := by
  simp only [isEmpty, Bool.and_eq_true, decide_eq_true_eq, List.all_eq_true] at idle
  obtain ⟨nothing, silent⟩ := idle
  have no_quad : ∀ {r : Point} {q : Quad}, r.graph = p.graph → r.block ∈ p.graph.layout → r.quad? ≠ some q := by
    intro r q graph member next
    rw [Graph.quadCount, List.length_eq_zero_iff, Graph.bodies, List.flatMap_eq_nil_iff] at nothing
    rw [Point.quad?, graph, nothing r.block member] at next
    cases next
  induction run with
  | @ret p x next live returned =>
    refine ⟨?_, (Machine.Same.refl _).tick_right⟩
    have quiet := silent p.block member
    rw [Point.tail] at returned
    cases tail : p.graph.tail p.block with
    | ret value =>
      rw [tail] at returned quiet
      cases value with
      | none => exact (Sum.inr.inj (Except.ok.inj returned)).symm
      | some value => cases quiet
    | jump | fall =>
      rw [tail] at returned
      cases returned
    | branch c lhs rhs onTrue onFalse =>
      rw [tail] at returned
      simp only [Machine.next, bind_eq_ok, pure_eq_ok] at returned
      obtain ⟨_, -, _, -, _, -, returned⟩ := returned
      cases returned
  | @jump p b x n next live jumped more ih =>
    obtain ⟨nothing', same⟩ := ih linked (linked.target_mem member (Machine.next_target jumped)) nothing
      silent no_quad
    obtain ⟨steps, rfl⟩ := same
    exact ⟨nothing', steps, rfl⟩
  | act next | call next => exact absurd next (no_quad rfl member)

end Runs

/-- The spots of a block before which the same quadruples stay. -/
structure Meets (empty : Std.ExtTreeSet Label) (g : Graph) (s s' : Spot) : Prop where
  laid : s.block ∈ g.layout
  block : s'.block = s.block
  rest : ((dropCalls empty g).body s'.block).drop s'.index = ((g.body s.block).drop s.index).filter (stays empty)

theorem Meets.front (linked : g.Linked) (laid : b ∈ g.layout) : Meets empty g ⟨b, 0⟩ ⟨b, 0⟩ :=
  ⟨laid, rfl, dropCalls_body linked laid⟩

/-- What is left of a function whose calls use no result of an empty function. -/
theorem dropCalls_shortened (linked : g.Linked) (unused : ∀ q ∈ g.bodies, ∀ name xs, q.op = .call name xs →
    name ∈ empty → q.result = none) : g.Shortened (· ∈ empty) (Meets empty g) (dropCalls empty g) where
  alike := dropCalls_alike
  start := by
    rw [(dropCalls_sameShape empty g).entry]
    exact .front linked linked.entry_mem
  quad s s' q meets here := by
    obtain ⟨ahead, front⟩ := head?_eq_some_iff.1 (head?_drop.trans here)
    have later : (g.body s.block).drop (s.index + 1) = ahead := by rw [← tail_drop, front, tail_cons]
    have rest := meets.rest
    rw [front] at rest
    by_cases kept : stays empty q
    · rw [filter_cons_of_pos kept] at rest
      refine .inl ⟨?_, meets.laid, meets.block, ?_⟩
      · rw [← head?_drop, rest, head?_cons]
      · simp only [Spot.next]
        rw [later, ← tail_drop, rest, tail_cons]
    · rw [filter_cons_of_neg kept, ← later] at rest
      refine .inr ⟨.inr ?_, meets.laid, meets.block, rest⟩
      unfold stays at kept
      split at kept
      next callee xs call =>
        have gone : callee ∈ empty := by simpa using kept
        have listed : q ∈ g.bodies := mem_flatMap.2 ⟨s.block, meets.laid, mem_of_getElem? here⟩
        exact ⟨unused q listed callee xs call gone, callee, xs, call, gone⟩
      · cases kept rfl
  busy s s' q name xs meets there call gone := by
    have left := mem_of_mem_head? (head?_drop.trans there)
    rw [meets.rest, mem_filter, stays, call] at left
    simp [gone] at left
  tail s s' meets ended := by
    have front : (g.body s.block).drop s.index = [] := head?_eq_none_iff.1 (head?_drop.trans ended)
    refine .inr ⟨?_, ?_⟩
    · rw [← head?_drop, meets.rest, front, filter_nil, head?_nil]
    · rw [meets.block, dropCalls_tail]
      exact .of_targets fun c edge => .front linked (linked.target_mem meets.laid edge)

/-! ## Modules -/

theorem mem_of_graph? (found : m.graph? name = some g) : g ∈ m.graphs := mem_of_find?_eq_some found

theorem names_distinct (distinct : (graphs.map (·.name)).Nodup) {g h : Graph} (first : g ∈ graphs) (second : h ∈ graphs)
    (same : g.name = h.name) : g = h :=
  inj_on_of_nodup_map distinct first second same

/-- Looking up a function that stays. -/
theorem graph?_drop (kept : name ∉ empty) :
    Module.graph? { m with graphs := (m.graphs.map (dropCalls empty)).filter fun g => g.name ∉ empty } name =
      (m.graph? name).map (dropCalls empty) := by
  unfold Module.graph?
  dsimp only
  rw [find?_filter, find?_map]
  congr 2
  funext g
  have alike : g.Alike (dropCalls empty g) := dropCalls_alike
  simp only [Function.comp, alike.name]
  by_cases same : g.name = name
  · simp [same, kept]
  · simp [same]

theorem drop_shortened (distinct : (m.graphs.map (·.name)).Nodup) (linked : ∀ g ∈ m.graphs, g.Linked) :
    m.Shortened (· ∈ EmptyFunctions.empty m.graphs) { m with
      graphs := (m.graphs.map (dropCalls (EmptyFunctions.empty m.graphs))).filter fun g =>
        g.name ∉ EmptyFunctions.empty m.graphs } where
  globals := rfl
  strings := rfl
  graphs name g kept found := by
    refine ⟨_, _, by rw [graph?_drop kept, found, map_some], dropCalls_shortened (linked g (mem_of_graph? found)) ?_⟩
    intro q listed callee xs call gone
    by_contra result
    exact (mem_empty.1 gone).2 (mem_used.2 ⟨g, mem_of_graph? found, q, listed, isSome_iff_ne_none.2 result, xs, call⟩)
  silent name g gone found callers k frame x n run := by
    obtain ⟨⟨h, member, named, -, idle⟩, -⟩ := mem_empty.1 gone
    have name_g : g.name = name := by simpa using find?_some found
    rw [← names_distinct distinct (mem_of_graph? found) member (name_g.trans named.symm)] at idle
    have linked := linked g (mem_of_graph? found)
    exact idle_runs run linked idle linked.entry_mem

/-- Deleting empty functions changes no outcome of the main function, and no call that control can reach is
left without its function. -/
theorem deletion_keeps_outcome {m : Module} (distinct : (m.graphs.map (·.name)).Nodup)
    (normal : ∀ g ∈ m.graphs, g.Normal) :
    (∀ args input outcome, m.run "main" args input = .ok outcome → (pass m).1.run "main" args input = .ok outcome) ∧
    ∀ g ∈ (pass m).1.graphs, ∀ b, g.Reaches g.entry b → ∀ q ∈ g.body b, ∀ name xs, q.op = .call name xs →
      name ∈ m.graphs.map (·.name) → name ∈ (pass m).1.graphs.map (·.name) := by
  have linked g (member : g ∈ m.graphs) : g.Linked := (normal g member).toLinked
  unfold pass
  dsimp only
  split
  · exact ⟨fun _ _ _ => id, fun _ _ _ _ _ _ _ _ _ => id⟩
  · constructor
    · intro args input outcome ran
      refine (drop_shortened distinct linked).run ?_ ran
      intro gone
      obtain ⟨⟨h, -, named, other, -⟩, -⟩ := mem_empty.1 gone
      exact other named
    · intro g' member b reached q listed name xs call there
      obtain ⟨g, original, rfl⟩ := mem_map.1 (mem_filter.1 member).1
      have laid : b ∈ g.layout := by
        rw [(linked g original).mem_layout]
        rwa [(dropCalls_sameShape _ g).reaches, (dropCalls_sameShape _ g).entry] at reached
      rw [dropCalls_body (linked g original) laid, mem_filter, stays, call] at listed
      have kept : name ∉ EmptyFunctions.empty m.graphs := by simpa using listed.2
      obtain ⟨h, member, rfl⟩ := mem_map.1 there
      refine mem_map.2 ⟨dropCalls _ h, mem_filter.2 ⟨mem_map.2 ⟨h, member, rfl⟩, ?_⟩, dropCalls_alike.name⟩
      simpa [dropCalls_alike.name] using kept

/-- Does nothing, whichever way it takes. -/
def resting : Function where
  name := "resting"
  vars := #[.declare "p" .int .param]
  params := [0]
  quads := [
    .effect (.jumpIf .eq (.var 0) (.const (.int 0)) "done"),
    .effect (.label "done"),
    .effect (.ret none)]

/-- Calls `resting` and itself, `p` times. -/
def repeating : Function where
  name := "repeating"
  vars := #[.declare "p" .int .param, .declare "t" .int .temporary]
  params := [0]
  quads := [
    .effect (.call "resting" [.var 0]),
    .effect (.jumpIf .le (.var 0) (.const (.int 0)) "done"),
    ⟨some 1, .binOp .sub (.var 0) (.const (.int 1))⟩,
    ⟨some 1, .call "repeating" [.var 1]⟩,
    .effect (.label "done"),
    .effect (.print (.var 0)),
    .effect (.ret (some (.var 0)))]

/-- Calls both. -/
def launching : Function where
  name := "main"
  vars := #[.declare "r" .int .local]
  quads := [
    .effect (.call "resting" [.const (.int 1)]),
    ⟨some 0, .call "repeating" [.const (.int 2)]⟩,
    .effect (.ret (some (.var 0)))]

theorem launching_keeps_outcome :
    (launching.module [resting, repeating]).run "main" [] [] = .ok ⟨some (.int 2), "012"⟩ ∧
      (pass (launching.module [resting, repeating])).2 = some 1 ∧
      (pass (launching.module [resting, repeating])).1.run "main" [] [] = .ok ⟨some (.int 2), "012"⟩ := by
  have ran : (launching.module [resting, repeating]).run "main" [] [] = .ok ⟨some (.int 2), "012"⟩ := by
    decide +kernel
  have normal : ∀ g ∈ (launching.module [resting, repeating]).graphs, g.Normal := by
    simp only [Function.module, map_cons, map_nil, mem_cons, not_mem_nil, or_false]
    rintro g (rfl | rfl | rfl)
    · exact launching.graph_normal rfl (by decide)
    · exact resting.graph_normal rfl (by decide)
    · exact repeating.graph_normal rfl (by decide)
  exact ⟨ran, by decide +kernel, (deletion_keeps_outcome (by decide) normal).1 [] [] _ ran⟩

end Quadcode.EmptyFunctions
