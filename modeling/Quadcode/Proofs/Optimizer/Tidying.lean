import Quadcode.Proofs.Eval.Shortcuts
import Quadcode.Proofs.Eval.Tracing
import Quadcode.Proofs.Graph.Edits
import Quadcode.Proofs.Graph.Meaning
import Quadcode.Proofs.Optimizer.Invariants
import Quadcode.Proofs.Optimizer.Passes

/-!
# Tidying up the blocks of a function

A jump into a block without code may go where that block leads, and a block with one predecessor, which leads
nowhere else, may be appended to it. Both are short cuts: no quadruple is lost or moved, and every test is made
as before, unless both of its outcomes have come to lead to one block.
-/

namespace Quadcode

open List Quadcode.Graph PassM Machine BlockMerging

/-! ## Jumps to empty blocks -/

namespace JumpSkipping

variable {g h : Graph} {d : Dominators} {b c t : BlockId}

theorem skip?_eq_some (found : skip? g d b = some t) : (∀ q ∈ g.body b, q.op = .nop) ∧ (g.tail b).only? = some t := by
  unfold skip? at found
  split at found
  · cases found
  next plain =>
    have empty : isEmpty (g.block b) = true := by
      simp only [Bool.or_eq_true, not_or, Bool.not_eq_true', Bool.not_eq_false] at plain
      exact plain.2
    split at found
    next only =>
      split at found
      · cases found
      · split at found
        · cases found
        · cases found
          exact ⟨by simpa [isEmpty, Graph.body] using empty, only⟩
    · cases found

/-- Only blocks without code are skipped, and they lead where the table says. -/
theorem skips_spec (found : (skips g d)[b]? = some t) : (∀ q ∈ g.body b, q.op = .nop) ∧ (g.tail b).only? = some t := by
  revert found
  refine List.foldlRecOn (motive := fun m : Skips => m[b]? = some t →
    (∀ q ∈ g.body b, q.op = .nop) ∧ (g.tail b).only? = some t) g.layout _ (by simp) fun m before c _ => ?_
  split
  next u found =>
    rw [BlockMap.getElem?_insert]
    split
    next same =>
      rintro ⟨⟩
      exact same ▸ skip?_eq_some found
    · exact before
  · exact before

/-- Where two runs stand at the same time: at the same spot, or the first in a block without code that leads on
to the block at whose start the second is waiting. -/
def Meets (g : Graph) (d : Dominators) (s s' : Spot) : Prop :=
  s.block ∈ g.layout ∧ (s' = s ∨ (∀ q ∈ g.body s.block, q.op = .nop) ∧ ∃ c n,
    (g.tail s.block).only? = some c ∧ follow? (skips g d) n c = some s'.block ∧ s'.index = 0)

theorem meets_of_follow {n : Nat} (laid : b ∈ g.layout) (found : follow? (skips g d) n b = some c) :
    Meets g d ⟨b, 0⟩ ⟨c, 0⟩ := by
  refine ⟨laid, ?_⟩
  unfold follow? at found
  split at found
  · cases found
    exact .inl rfl
  · cases found
  next skipped =>
    obtain ⟨empty, only⟩ := skips_spec skipped
    exact .inr ⟨empty, _, _, only, found, rfl⟩

theorem meets_resolve (laid : b ∈ g.layout) : Meets g d ⟨b, 0⟩ ⟨resolve (skips g d) b, 0⟩ := by
  unfold resolve
  cases found : follow? (skips g d) (skips g d).size b with
  | none => exact ⟨laid, .inl rfl⟩
  | some c => exact meets_of_follow laid found

/-- The redirected tail leads where the old one does, past blocks without code. -/
theorem tail_answers {t : Tail} (targets : ∀ c ∈ t.targets, c ∈ g.layout) :
    t.Answers (Meets g d) g (tail (skips g d) t) := by
  intro m way led
  cases way with
  | inl b =>
    refine ⟨.inl (resolve (skips g d) b), ?_, .inl (meets_resolve (targets b (next_target led)))⟩
    cases t with
    | jump c | fall c =>
      cases led
      rfl
    | branch k x y onTrue onFalse =>
      simp only [Machine.next, bind_eq_ok, pure_eq_ok, Sum.inl.injEq] at led
      obtain ⟨a, read, a', read', taken, tested, rfl⟩ := led
      simp only [tail, Tail.mapTargets]
      split
      next same => cases taken <;> simp [Machine.next, same]
      · simp only [Machine.next, bind_eq_ok, pure_eq_ok]
        exact ⟨a, read, a', read', taken, tested, by cases taken <;> rfl⟩
    | ret x => exact absurd (next_target led) not_mem_nil
  | inr x =>
    cases t with
    | ret y => exact ⟨.inr x, led, .inr rfl⟩
    | jump c | fall c => cases led
    | branch k y z onTrue onFalse => simp [Machine.next] at led

/-- Every tail of the layout is redirected, and nothing else changes. -/
theorem graph_spec (linked : g.Linked) : g.SameBodies (graph d g).1 ∧
    ∀ b ∈ g.layout, (graph d g).1.tail b = tail (skips g d) (g.tail b) := by
  have unconditional : ∀ (bs : List BlockId) (h : Graph) (n : Nat), (bs.foldl (fun (r : Graph × Nat) b =>
      let old := r.1.tail b
      let new := tail (skips g d) old
      if new = old then (r.1, r.2) else (r.1.setTail b new, r.2 + 1)) (h, n)).1 =
      bs.foldl (fun h b => h.setTail b (tail (skips g d) (h.tail b))) h := by
    intro bs
    induction bs with
    | nil => exact fun _ _ => rfl
    | cons b rest ih =>
      intro h n
      simp only [foldl_cons]
      split
      next same =>
        rw [same, ih]
        congr 1
        exact (modifyBlock_eq_self rfl).symm
      · exact ih _ _
  have final := unconditional g.layout g 0
  refine ⟨?_, fun b laid => ?_⟩
  · rw [graph, final]
    exact List.foldlRecOn (motive := g.SameBodies) _ _ (.refl g) fun _ before b _ => before.setTail b _
  · rw [graph, final, foldl_setTail_tail (fun _ t => tail (skips g d) t) linked.layout_nodup
      (fun b => linked.lt_size), if_pos laid]

/-- Going past blocks without code is a short cut. -/
theorem shortened (linked : g.Linked) (alike : g.Alike h) (entry : h.entry = g.entry)
    (bodies : ∀ b, h.body b = g.body b) (tails : ∀ b ∈ g.layout, h.tail b = tail (skips g d) (g.tail b)) :
    g.Shortened (fun _ => False) (Meets g d) h where
  alike := alike
  start := ⟨linked.entry_mem, .inl (by rw [entry])⟩
  quad := by
    rintro s s' q ⟨laid, rfl | ⟨empty, way⟩⟩ here
    · exact .inl ⟨by rw [bodies, here], laid, .inl rfl⟩
    · exact .inr ⟨.inl (empty q (mem_of_getElem? here)), laid, .inr ⟨empty, way⟩⟩
  busy _ _ _ _ _ _ _ _ := id
  tail := by
    rintro s ⟨c, i⟩ ⟨laid, same | ⟨-, b, n, only, found, rfl⟩⟩ ended
    · subst same
      refine .inr ⟨by rw [bodies, ended], ?_⟩
      rw [tails _ laid]
      exact tail_answers fun b => linked.target_mem laid
    · refine .inl ⟨b, only, meets_of_follow (linked.target_mem laid ?_) found⟩
      rw [Graph.targets]
      cases eq : g.tail s.block <;> simp_all [Tail.only?, Tail.targets, Tail.successors]

theorem pass_shortened {w w' : Work} {changed : Bool} (linked : w.graph.Linked) (fresh : w.context.analyses = {})
    (given : Gives pass w changed w') : ∃ meets, w.graph.Shortened (fun _ => False) meets w'.graph := by
  have coherent : w.Coherent w.context := ⟨fresh ▸ .empty _, rfl, fun _ => .inl⟩
  simp only [pass, gives_bind, gives_graph, gives_setGraph, gives_count, gives_pure] at given
  obtain ⟨d, w₁, answered, g, _, ⟨rfl, rfl⟩, _, _, rfl, _, _, rfl, -, rfl⟩ := given
  obtain ⟨-, asked⟩ := (ensures_dominators coherent).of_gives answered
  obtain ⟨same, tails⟩ := graph_spec (d := d) linked
  refine ⟨Meets w.graph d, ?_⟩
  dsimp only
  rw [asked.graph]
  split
  · exact shortened linked ⟨same.alike.vars, same.alike.params, same.alike.name⟩ same.entry
      (fun b => (relink_body _ b).trans (same.body b))
      fun b laid => (relink_tail _ b).trans (tails b laid)
  · exact shortened linked same.alike same.entry same.body tails

end JumpSkipping

/-! ## Blocks with one predecessor -/

namespace BlockMerging

variable {g : Graph} {b c a : BlockId}

/-- Two blocks that can be merged: the first leads to the second alone, and nothing else leads there. -/
structure Joined (g : Graph) (b c : BlockId) : Prop where
  laid : b ∈ g.layout
  only : (g.tail b).only? = some c
  ne : c ≠ b
  later : c ≠ g.entry
  preds : g.preds c = [b]

theorem find?_joined (found : find? g = some (b, c)) : Joined g b c := by
  unfold find? at found
  obtain ⟨b', laid, found⟩ := exists_of_findSome?_eq_some found
  obtain ⟨c', appendable, pair⟩ := Option.map_eq_some_iff.1 found
  cases pair
  obtain ⟨only, conditions⟩ := Option.filter_eq_some_iff.1 appendable
  simp only [ne_eq, Bool.and_eq_true, decide_eq_true_eq] at conditions
  exact ⟨laid, only, conditions.1.1, conditions.1.2, conditions.2⟩

namespace Joined

variable (joined : Joined g b c) (linked : g.Linked)
include joined linked

theorem laid_second : c ∈ g.layout := by
  refine linked.target_mem joined.laid ?_
  have only := joined.only
  rw [Graph.targets]
  cases eq : g.tail b <;> simp_all [Tail.only?, Tail.targets, Tail.successors]

/-- No other block leads to the second one. -/
theorem eq_first (laid : a ∈ g.layout) (edge : c ∈ g.targets a) : a = b := by
  have listed := linked.pred_of_target laid edge
  rw [joined.preds] at listed
  exact mem_singleton.1 listed

end Joined

/-- The second block's code stands behind the first one's; the edges are stale. -/
def append (g : Graph) (b c : BlockId) : Graph :=
  (g.setBody c []).modifyBlock b fun block => { block with body := block.body ++ g.body c, tail := g.tail c }

theorem merge_eq (g : Graph) (b c : BlockId) : merge g b c = (append g b c).relink := rfl

namespace Joined

variable (joined : Joined g b c) (linked : g.Linked)
include joined linked

theorem append_body_first : (append g b c).body b = g.body b ++ g.body c := by
  have inside : b < (g.setBody c []).blocks.size := setBody_size.symm ▸ linked.lt_size joined.laid
  rw [append, Graph.body, modifyBlock_block _ _ _ _ inside, if_pos rfl]
  change (g.setBody c []).body b ++ g.body c = _
  rw [setBody_body (linked.lt_size (joined.laid_second linked)), if_neg joined.ne]

theorem append_body (first : a ≠ b) (second : a ≠ c) : (append g b c).body a = g.body a := by
  rw [append, Graph.body, modifyBlock_of_ne first.symm]
  exact (setBody_body (linked.lt_size (joined.laid_second linked)) a).trans (if_neg second.symm)

theorem append_tail (a : BlockId) : (append g b c).tail a = if a = b then g.tail c else g.tail a := by
  have inside : b < (g.setBody c []).blocks.size := setBody_size.symm ▸ linked.lt_size joined.laid
  rw [append, Graph.tail, modifyBlock_block _ _ _ _ inside]
  by_cases first : a = b
  · rw [if_pos first.symm, if_pos first]
  · rw [if_neg (Ne.symm first), if_neg first]
    exact setBody_tail a

theorem merge_linked : (merge g b c).Linked := by
  have closed : (append g b c).Closed := {
    entry_mem := linked.entry_mem
    target_mem := fun a laid t edge => by
      rw [Graph.targets, joined.append_tail linked] at edge
      split at edge
      · exact linked.target_mem (joined.laid_second linked) edge
      · exact linked.target_mem laid edge
    lt_size := fun a laid => by
      rw [append, modifyBlock_size, setBody_size]
      exact linked.lt_size laid
    nodup := linked.layout_nodup }
  exact closed.relink_linked.1

end Joined

/-- Where two runs stand at the same time: the code of the second block follows that of the first. -/
def Meets (g : Graph) (b c : BlockId) (s s' : Spot) : Prop := s.block ∈ g.layout ∧ s.index ≤ (g.body s.block).length ∧
    (s.block ≠ c ∧ s' = s ∨ s.block = c ∧ s' = ⟨b, (g.body b).length + s.index⟩)

/-- To run on into a block is a short cut for the jump to it. -/
theorem merge_shortened (joined : Joined g b c) (linked : g.Linked) :
    g.Shortened (fun _ => False) (Meets g b c) (merge g b c) where
  alike := ⟨rfl, rfl, rfl⟩
  start := ⟨linked.entry_mem, Nat.zero_le _, .inl ⟨joined.later.symm, rfl⟩⟩
  quad := by
    rintro ⟨a, i⟩ s' q ⟨laid, -, ⟨other, rfl⟩ | ⟨second, rfl⟩⟩ here
    · have bound := (List.getElem?_eq_some_iff.1 here).1
      refine .inl ⟨?_, laid, bound, .inl ⟨other, rfl⟩⟩
      dsimp only at here other ⊢
      rw [merge_eq, relink_body]
      by_cases first : a = b
      · subst first
        rw [joined.append_body_first linked, getElem?_append_left bound, here]
      · rw [joined.append_body linked first other, here]
    · obtain rfl : a = c := second
      have bound := (List.getElem?_eq_some_iff.1 here).1
      refine .inl ⟨?_, laid, bound, .inr ⟨rfl, rfl⟩⟩
      dsimp only at here ⊢
      rw [merge_eq, relink_body, joined.append_body_first linked,
        getElem?_append_right (Nat.le_add_right _ _), Nat.add_sub_cancel_left, here]
  busy _ _ _ _ _ _ _ _ := id
  tail := by
    rintro ⟨a, i⟩ s' ⟨laid, bound, ⟨other, rfl⟩ | ⟨second, rfl⟩⟩ ended
    · dsimp only at laid bound ended other ⊢
      have last : i = (g.body a).length := Nat.le_antisymm bound (getElem?_eq_none_iff.1 ended)
      by_cases first : a = b
      · subst first
        exact .inl ⟨c, joined.only, joined.laid_second linked, Nat.zero_le _, .inr ⟨rfl, by rw [last]; rfl⟩⟩
      · refine .inr ⟨?_, ?_⟩
        · rw [merge_eq, relink_body, joined.append_body linked first other, ended]
        · rw [merge_eq, relink_tail, joined.append_tail linked, if_neg first]
          refine .of_targets fun t edge => ?_
          refine ⟨linked.target_mem laid edge, Nat.zero_le _, .inl ⟨?_, rfl⟩⟩
          rintro rfl
          exact first (joined.eq_first linked laid edge)
    · obtain rfl : a = c := second
      dsimp only at laid bound ended ⊢
      have past := getElem?_eq_none_iff.1 ended
      refine .inr ⟨?_, ?_⟩
      · rw [merge_eq, Graph.relink_body, joined.append_body_first linked, List.getElem?_eq_none_iff, List.length_append]
        omega
      · rw [merge_eq, relink_tail, joined.append_tail linked, if_pos rfl]
        refine .of_targets fun t edge => ?_
        refine ⟨linked.target_mem laid edge, Nat.zero_le _, .inl ⟨?_, rfl⟩⟩
        rintro rfl
        exact joined.ne (joined.eq_first linked laid edge)

end BlockMerging

/-! ## Both -/

/-- Leading jumps past empty blocks, or merging blocks, changes no successful run of a module in one of whose
functions it is done. -/
theorem tidying_keeps_outcome {pass : PassM Bool} (tidying : pass = JumpSkipping.pass ∨ pass = BlockMerging.pass)
    {program : Module} {before after : List Graph} {w w' : Work} {changed : Bool}
    (listed : program.graphs = before ++ w.graph :: after) (linked : w.graph.Linked) (fresh : w.context.analyses = {})
    (given : Gives pass w changed w') {entry : Label} {args : List Value} {input : List Int32} {outcome : Outcome}
    (ran : program.run entry args input = .ok outcome) :
    Module.run { program with graphs := before ++ w'.graph :: after } entry args input = .ok outcome := by
  rcases tidying with rfl | rfl
  · obtain ⟨meets, shortened⟩ := JumpSkipping.pass_shortened linked fresh given
    exact shortened.run listed ran
  · simp only [BlockMerging.pass, gives_bind, gives_graph, gives_ofExcept, gives_setGraph,
      gives_count, gives_pure] at given
    obtain ⟨_, _, ⟨rfl, rfl⟩, _, _, ⟨done, rfl⟩, _, _, rfl, _, _, rfl, -, rfl⟩ := given
    refine (BlockMerging.mergeAll_ok (fun h => h.Linked ∧
      Module.run { program with graphs := before ++ h :: after } entry args input = .ok outcome)
      ?_ ⟨linked, ?_⟩ done).1.2
    · rintro g b c ⟨linked, ran⟩ found
      have joined := BlockMerging.find?_joined found
      have here : Module.graphs { program with graphs := before ++ g :: after } = before ++ g :: after := rfl
      have next := (BlockMerging.merge_shortened joined linked).run here ran
      exact ⟨joined.merge_linked linked, next⟩
    · rw [← listed]
      exact ran

/-- The function after a pass. -/
def tidied (pass : PassM Bool) (f : Function) : Graph := (outcome pass ⟨f.graph, {}, {}⟩).2.graph

/-- Counts down from its parameter by calls. Before the loop it tests the parameter, but both ways lead through
blocks without code to `meet`, and a third such block leads only to itself. The variables `n` and `x` are 0
and 1. -/
def detouring : Function where
  name := "main"
  vars := #[.declare "n" .int .param, .declare "x" .int .local]
  params := [0]
  quads := [
    .effect (.jumpIf .lt (.var 0) (.const (.int 2)) "left"),
    .effect (.goto "meet"),
    .effect (.label "left"),
    .effect .nop,
    .effect (.goto "meet"),
    .effect (.label "meet"),
    .effect (.goto "head"),
    .effect (.label "stuck"),
    .effect (.goto "stuck"),
    .effect (.label "head"),
    ⟨some 1, .call "less" [.var 0]⟩,
    .effect (.print (.var 1)),
    ⟨some 0, .assign (.var 1)⟩,
    .effect (.jumpIf .lt (.var 0) (.const (.int 0)) "stuck"),
    .effect (.jumpIf .gt (.var 0) (.const (.int 0)) "head"),
    .effect (.ret (some (.var 1)))]

theorem detouring_keeps_outcome : (detouring.module [less]).run "main" [.int 3] [] = .ok ⟨some (.int 0), "210"⟩ ∧
      (tidied JumpSkipping.pass detouring ≠ detouring.graph ∧
        Module.run { detouring.module [less] with graphs := [tidied JumpSkipping.pass detouring, less.graph] }
          "main" [.int 3] [] = .ok ⟨some (.int 0), "210"⟩) ∧
      tidied BlockMerging.pass detouring ≠ detouring.graph ∧
        Module.run { detouring.module [less] with graphs := [tidied BlockMerging.pass detouring, less.graph] }
          "main" [.int 3] [] = .ok ⟨some (.int 0), "210"⟩ := by
  have ran : (detouring.module [less]).run "main" [.int 3] [] = .ok ⟨some (.int 0), "210"⟩ := by decide +kernel
  have listed : (detouring.module [less]).graphs = [] ++ detouring.graph :: [less.graph] := rfl
  have skipped : Gives JumpSkipping.pass ⟨detouring.graph, {}, {}⟩ true
      (outcome JumpSkipping.pass ⟨detouring.graph, {}, {}⟩).2 := gives_of_ok (by decide +kernel)
  have merged : Gives pass ⟨detouring.graph, {}, {}⟩ true
      (outcome pass ⟨detouring.graph, {}, {}⟩).2 := gives_of_ok (by decide +kernel)
  refine ⟨ran, ⟨by decide +kernel, ?_⟩, by decide +kernel, ?_⟩
  · exact tidying_keeps_outcome (w := ⟨detouring.graph, {}, {}⟩) (.inl rfl) listed (detouring.graph_linked rfl) rfl
      skipped ran
  · exact tidying_keeps_outcome (w := ⟨detouring.graph, {}, {}⟩) (.inr rfl) listed (detouring.graph_linked rfl) rfl
      merged ran

end Quadcode
