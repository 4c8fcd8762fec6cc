import Quadcode.Proofs.Flow.Dominators
import Quadcode.Proofs.Flow.Loops

/-!
# Natural loops

A loop has a header, the sources of all edges back to it, and the blocks that lead to one of these without passing
through the header. The header dominates all of them, and control enters the loop through it only. Every edge back
to the header from a block that it dominates starts in the loop, so if the function itself starts at the header,
there is no other way into the loop.
-/

namespace Quadcode

open List Array Std.ExtTreeSet Relation.ReflTransGen

variable {g : Graph} {d : Dominators} {l : Loop} {b c h : BlockId}

/-! ## Ways around a block -/

/-- Control can go from a block to another without passing through `h`. -/
def Graph.Bypasses (g : Graph) (h : BlockId) : BlockId → BlockId → Prop :=
  Relation.ReflTransGen fun b c => c ∈ g.targets b ∧ b ≠ h ∧ c ≠ h

/-- A dominator of a block dominates what leads to the block around it. -/
theorem Graph.Bypasses.dominated (around : g.Bypasses h b c) (dominates : g.Dominates h c) : g.Dominates h b := by
  induction around using head_induction_on with
  | refl => exact dominates
  | head step _ ih => exact ih.of_edge step.2.2.symm step.1

/-- What holds of the roots and passes from item to item holds of all items. -/
theorem Hangs.forall {next : BlockId → List BlockId} {roots P : BlockId → Prop} {blocks : List BlockId}
    (hangs : Hangs next roots blocks) (root : ∀ b ∈ blocks, roots b → P b)
    (step : ∀ b ∈ blocks, P b → ∀ c ∈ blocks, c ∈ next b → P c) : ∀ b ∈ blocks, P b := by
  induction blocks generalizing roots with
  | nil => simp
  | cons b rest ih =>
    have first : P b := root b mem_cons_self hangs.1
    have later : ∀ c ∈ rest, P c := by
      apply ih hangs.2
      · rintro c listed (old | leads)
        · exact root c (mem_cons_of_mem b listed) old
        · exact step b mem_cons_self first c (mem_cons_of_mem b listed) leads
      · intro c listed holds e listed'
        exact step c (mem_cons_of_mem b listed) holds e (mem_cons_of_mem b listed')
    intro c listed
    rcases mem_cons.1 listed with rfl | listed
    · exact first
    · exact later c listed

namespace Loops

variable {loops : Array Loop} {back : List (BlockId × BlockId)}

/-- The loop of one edge consists of the header and of all that leads to the latch around it. -/
theorem mem_naturalLoop (linked : g.Linked) {header latch : BlockId} (behind : latch ∈ g.layout) :
    b ∈ naturalLoop g header latch ↔ b = header ∨ b ∈ g.layout ∧ g.Bypasses header b latch := by
  have enough : Walk.room g.blocks.size { entered := (∅ : BlockSet).insert header } ≤ g.blocks.size + 1 :=
    Nat.le_succ_of_le Walk.room_le
  have closed : ∀ b, b ∈ g.layout → ∀ p ∈ g.preds b, p ∈ g.layout := fun b member p before =>
    ((linked.mem_preds b member p).1 before).1
  obtain ⟨new, explored⟩ := Walk.visit_explored closed (fun b => linked.lt_size) behind enough
  have member (b : BlockId) : b ∈ naturalLoop g header latch ↔ b = header ∨ b ∈ new := by
    refine (explored.entered b).trans (or_congr_left ?_)
    simp [mem_insert, eq_comm (a := b)]
  have away : ∀ b ∈ new, b ≠ header := by
    rintro b listed rfl
    exact explored.fresh b listed mem_insert_self
  have leads : ∀ b ∈ new, b ∈ g.layout ∧ g.Bypasses header b latch := by
    refine explored.hangs.forall ?_ ?_
    · intro b _ root
      rw [mem_singleton.1 root]
      exact ⟨behind, .refl⟩
    · rintro b listed ⟨laid, around⟩ p listed' before
      obtain ⟨laid_p, edge⟩ := (linked.mem_preds b laid p).1 before
      exact ⟨laid_p, .head ⟨edge, away p listed', away b listed⟩ around⟩
  constructor
  · intro inside
    exact ((member b).1 inside).imp_right (leads b)
  · rintro (rfl | ⟨laid, around⟩)
    · exact (member b).2 (.inl rfl)
    · induction around using head_induction_on with
      | refl => exact explored.met latch (mem_singleton.2 rfl)
      | @head b c step _ ih =>
        have inside := ih (linked.target_mem laid step.1)
        exact explored.closed c (((member c).1 inside).resolve_left step.2.2) b (linked.pred_of_target laid step.1)

/-! ## Gathering the loops -/

/-- The loops found so far, one for each header, with the sources of the edges back to it. -/
structure Gathered (g : Graph) (loops : Array Loop) (back : List (BlockId × BlockId)) : Prop where
  blocks : ∀ l ∈ loops, ∀ b, b ∈ l.blocks ↔ ∃ p ∈ l.latches, b ∈ naturalLoop g l.header p
  latches : ∀ l ∈ loops, ∀ p, p ∈ l.latches ↔ (p, l.header) ∈ back
  looped : ∀ l ∈ loops, ∃ p, (p, l.header) ∈ back
  distinct : (loops.toList.map (·.header)).Nodup
  covers : ∀ e ∈ back, ∃ l ∈ loops, l.header = e.2

/-- A loop with one more edge back to its header. -/
def extend (g : Graph) (l : Loop) (latch : BlockId) : Loop :=
  { l with blocks := l.blocks ∪ naturalLoop g l.header latch, latches := l.latches ++ [latch] }

/-- A loop with one edge back to its header. -/
def single (g : Graph) (header latch : BlockId) : Loop :=
  { header, blocks := naturalLoop g header latch, latches := [latch] }

/-- An edge back to a header extends the loop of that header, or is the first of a new loop. All other loops stay as
they are. -/
theorem addEdge_cases (distinct : (loops.toList.map (·.header)).Nodup) (header latch : BlockId) :
    ((addEdge g loops header latch).toList.map (·.header)).Nodup ∧
      ∃ new, (∀ l, l ∈ addEdge g loops header latch ↔ l = new ∨ l ∈ loops ∧ l.header ≠ header) ∧
        ((∃ l ∈ loops, l.header = header ∧ new = extend g l latch) ∨
          (∀ l ∈ loops, l.header ≠ header) ∧ new = single g header latch) := by
  unfold addEdge
  dsimp only
  split
  next i found =>
    obtain ⟨bound, same, -⟩ := findIdx?_eq_some_iff_getElem.1 found
    obtain rfl : loops[i].header = header := eq_of_beq same
    have here : loops[i]? = some loops[i] := getElem?_eq_getElem bound
    have alone {j : Nat} {l : Loop} (there : loops[j]? = some l) (same : l.header = loops[i].header) : i = j := by
      refine (getElem?_inj (by simpa using bound) distinct).1 ?_
      simp [here, there, same]
    refine ⟨?_, extend g loops[i] latch, fun l => ?_, .inl ⟨_, getElem_mem bound, rfl, rfl⟩⟩
    · convert distinct using 1
      refine ext_getElem? fun j => ?_
      simp only [List.getElem?_map, Array.getElem?_toList, Array.getElem?_modify]
      split
      · cases loops[j]? <;> rfl
      · rfl
    · simp only [Array.mem_iff_getElem?, Array.getElem?_modify]
      constructor
      · rintro ⟨j, there⟩
        split at there
        next same =>
          subst same
          rw [here, Option.map_some] at there
          exact .inl (Option.some.inj there).symm
        next other => exact .inr ⟨⟨j, there⟩, fun same => other (alone there same)⟩
      · rintro (rfl | ⟨⟨j, there⟩, other⟩)
        · exact ⟨i, by rw [if_pos rfl, here]; rfl⟩
        · refine ⟨j, ?_⟩
          rw [if_neg, there]
          rintro rfl
          exact other (congrArg Loop.header (Option.some.inj (there.symm.trans here)))
  next missing =>
    have absent (l : Loop) (member : l ∈ loops) : l.header ≠ header := by
      simpa using findIdx?_eq_none_iff.1 missing l member
    refine ⟨?_, single g header latch, fun l => ?_, .inr ⟨absent, rfl⟩⟩
    · rw [Array.toList_push, List.map_append, List.nodup_append]
      refine ⟨distinct, nodup_singleton _, ?_⟩
      simpa using fun l member => absent l member
    · rw [mem_push, or_comm]
      exact or_congr_right (iff_self_and.2 (absent l))

theorem Gathered.addEdge (gathered : Gathered g loops back) (header latch : BlockId) :
    Gathered g (addEdge g loops header latch) (back ++ [(latch, header)]) := by
  obtain ⟨distinct, new, mem, origin⟩ := addEdge_cases (g := g) gathered.distinct header latch
  -- The loop of this header has all the edges that were seen.
  obtain ⟨head, latches, blocks⟩ : new.header = header ∧ (∀ p, p ∈ new.latches ↔ (p, header) ∈ back ∨ p = latch) ∧
      ∀ b, b ∈ new.blocks ↔ ∃ p ∈ new.latches, b ∈ naturalLoop g header p := by
    rcases origin with ⟨l, member, rfl, rfl⟩ | ⟨absent, rfl⟩
    · refine ⟨rfl, fun p => by simp [extend, gathered.latches l member], fun b => ?_⟩
      simp only [extend, Std.ExtTreeSet.mem_union_iff, gathered.blocks l member b, List.mem_append,
        List.mem_singleton, or_and_right, exists_or, exists_eq_left]
    · have fresh (p : BlockId) : (p, header) ∉ back := fun seen => by
        obtain ⟨l, member, head⟩ := gathered.covers _ seen
        exact absent l member head
      exact ⟨rfl, by simp [single, fresh], by simp [single]⟩
  refine ⟨?_, ?_, ?_, distinct, ?_⟩ <;> simp only [mem, List.mem_append, List.mem_singleton]
  · rintro l (rfl | ⟨old, -⟩)
    · rwa [head]
    · exact gathered.blocks l old
  · rintro l (rfl | ⟨old, other⟩) p
    · simp [head, latches]
    · simp [gathered.latches l old, other]
  · rintro l (rfl | ⟨old, -⟩)
    · exact ⟨latch, .inr (by rw [head])⟩
    · obtain ⟨p, edge⟩ := gathered.looped l old
      exact ⟨p, .inl edge⟩
  · rintro e member
    by_cases same : e.2 = header
    · exact ⟨new, .inl rfl, head.trans same.symm⟩
    · obtain ⟨l, old, head'⟩ := gathered.covers e (member.resolve_right fun last => same (by rw [last]))
      exact ⟨l, .inr ⟨old, head' ▸ same⟩, head'⟩

theorem Gathered.addEdges (gathered : Gathered g loops back) (b : BlockId) (hs : List BlockId) :
    Gathered g (hs.foldl (fun loops h => if d.dominates h b then Loops.addEdge g loops h b else loops) loops)
      (back ++ (hs.filter (d.dominates · b)).map (b, ·)) := by
  induction hs generalizing loops back with
  | nil => simpa using gathered
  | cons h rest ih =>
    rw [foldl_cons]
    by_cases dominates : d.dominates h b
    · have added := ih (gathered.addEdge h b)
      rw [if_pos dominates, filter_cons_of_pos (p := (d.dominates · b)) dominates, map_cons]
      rwa [List.append_assoc, List.singleton_append] at added
    · rw [if_neg dominates, filter_cons_of_neg (p := (d.dominates · b)) dominates]
      exact ih gathered

/-- The loops before their nesting is known. -/
def gather (g : Graph) (d : Dominators) : Array Loop := d.order.foldl (fun loops b =>
    (g.succs b).foldl (fun loops h => if d.dominates h b then addEdge g loops h b else loops) loops) #[]

theorem gather_gathered (g : Graph) (d : Dominators) : Gathered g (gather g d)
    (d.order.toList.flatMap fun b => ((g.succs b).filter (d.dominates · b)).map (b, ·)) := by
  have all : ∀ (bs : List BlockId) (loops : Array Loop) (back : List (BlockId × BlockId)), Gathered g loops back →
      Gathered g (bs.foldl (fun loops b => (g.succs b).foldl (fun loops h =>
        if d.dominates h b then addEdge g loops h b else loops) loops) loops)
        (back ++ bs.flatMap fun b => ((g.succs b).filter (d.dominates · b)).map (b, ·)) := by
    intro bs
    induction bs with
    | nil => simp
    | cons b rest ih =>
      intro loops back gathered
      rw [List.foldl_cons, List.flatMap_cons, ← List.append_assoc]
      exact ih _ _ (gathered.addEdges b (g.succs b))
  have nothing : Gathered g #[] [] := ⟨by simp, by simp, by simp, by simp, by simp⟩
  have gathered := all d.order.toList #[] [] nothing
  rw [nil_append, foldl_toList] at gathered
  exact gathered

end Loops

/-! ## Loops of a graph -/

/-- The sources of the edges from dominated blocks back to the header, and the blocks that lead to one of them
around the header. -/
structure Loop.Natural (g : Graph) (l : Loop) : Prop where
  laid : l.header ∈ g.layout
  latches : ∀ p, p ∈ l.latches ↔ p ∈ g.layout ∧ l.header ∈ g.targets p ∧ g.Dominates l.header p
  blocks : ∀ b, b ∈ l.blocks ↔ b = l.header ∨ b ∈ g.layout ∧ ∃ p ∈ l.latches, g.Bypasses l.header b p

variable {p : BlockId}

namespace Loop.Natural

variable (natural : l.Natural g)
include natural

theorem header_mem : l.header ∈ l.blocks := (natural.blocks _).2 (.inl rfl)

theorem mem_layout (member : b ∈ l.blocks) : b ∈ g.layout := by
  rcases (natural.blocks b).1 member with rfl | ⟨laid, -⟩
  · exact natural.laid
  · exact laid

theorem dominated (member : b ∈ l.blocks) : g.Dominates l.header b := by
  rcases (natural.blocks b).1 member with rfl | ⟨-, p, latch, around⟩
  · exact .refl _
  · exact around.dominated ((natural.latches p).1 latch).2.2

/-- What leads to a block of the loop other than the header is of the loop. -/
theorem entered (member : b ∈ l.blocks) (other : b ≠ l.header) (laid : p ∈ g.layout) (edge : b ∈ g.targets p) :
    p ∈ l.blocks := by
  by_cases first : p = l.header
  · rw [first]
    exact natural.header_mem
  · obtain ⟨-, q, latch, around⟩ := ((natural.blocks b).1 member).resolve_left other
    exact (natural.blocks p).2 (.inr ⟨laid, q, latch, .head ⟨edge, first, other⟩ around⟩)

theorem latch_mem (latch : p ∈ l.latches) : p ∈ l.blocks :=
  (natural.blocks p).2 (.inr ⟨((natural.latches p).1 latch).1, p, latch, .refl⟩)

end Loop.Natural

namespace Loops

/-- The loops that are gathered from the edges of a graph are its natural loops: one for each header of an edge
back from a dominated block. -/
theorem gather_natural (linked : g.Linked) (computed : g.dominators = .ok d) :
    (∀ l ∈ gather g d, l.Natural g) ∧ ((gather g d).toList.map (·.header)).Nodup ∧
      ∀ p ∈ g.layout, ∀ h ∈ g.targets p, g.Dominates h p → ∃ l ∈ gather g d, l.header = h := by
  have gathered := gather_gathered g d
  rw [Dominators.compute_order computed, toList_toArray] at gathered
  obtain ⟨sets, computed', exact_⟩ | ⟨sweeps, failed⟩ := Dominators.compute_ends linked
  · cases computed.symm.trans computed'
    have back (p h : BlockId) : (p, h) ∈ (g.reversePostorder.flatMap fun b =>
        ((g.succs b).filter ((Dominators.ofSets g sets).dominates · b)).map (b, ·)) ↔
          p ∈ g.layout ∧ h ∈ g.targets p ∧ g.Dominates h p := by
      simp only [List.mem_flatMap, linked.mem_reversePostorder, List.mem_map, List.mem_filter, Prod.mk.injEq]
      constructor
      · rintro ⟨b, laid, c, ⟨edge, dominates⟩, rfl, rfl⟩
        rw [linked.succs_eq laid] at edge
        exact ⟨laid, edge, (exact_.dominates_iff linked (linked.target_mem laid edge) laid).1 dominates⟩
      · rintro ⟨laid, edge, dominates⟩
        have dominates := (exact_.dominates_iff linked (linked.target_mem laid edge) laid).2 dominates
        exact ⟨p, laid, h, ⟨linked.succs_eq laid ▸ edge, dominates⟩, rfl, rfl⟩
    refine ⟨fun l here => ?_, gathered.distinct, fun p laid h edge dominates => ?_⟩
    · have latches (p : BlockId) := (gathered.latches l here p).trans (back p l.header)
      obtain ⟨p₀, looped⟩ := gathered.looped l here
      obtain ⟨laid₀, edge₀, dominates₀⟩ := (back p₀ l.header).1 looped
      refine ⟨linked.target_mem laid₀ edge₀, latches, fun b => ?_⟩
      rw [gathered.blocks l here b]
      constructor
      · rintro ⟨p, latch, member⟩
        apply ((mem_naturalLoop linked ((latches p).1 latch).1).1 member).imp_right
        exact fun inside => ⟨inside.1, p, latch, inside.2⟩
      · rintro (rfl | ⟨laid, p, latch, around⟩)
        · exact ⟨p₀, (latches p₀).2 ⟨laid₀, edge₀, dominates₀⟩, header_mem_naturalLoop g l.header p₀⟩
        · exact ⟨p, latch, (mem_naturalLoop linked ((latches p).1 latch).1).2 (.inr ⟨laid, around⟩)⟩
    · exact gathered.covers _ ((back p h).2 ⟨laid, edge, dominates⟩)
  · cases computed.symm.trans failed

end Loops

namespace Graph.HasLoop

variable (linked : g.Linked) (loop : g.HasLoop l)
include linked loop

theorem natural : l.Natural g := by
  obtain ⟨d, computed, member⟩ := loop
  obtain ⟨natural, -⟩ := Loops.gather_natural linked computed
  obtain ⟨i, bound, rfl⟩ := mem_mapIdx.1 (mem_toList_iff.1 member)
  have same := natural _ (getElem_mem bound)
  exact ⟨same.laid, same.latches, same.blocks⟩

theorem mem_layout (member : b ∈ l.blocks) : b ∈ g.layout := (loop.natural linked).mem_layout member

/-- Control enters a loop through its header. -/
theorem eq_header (member : b ∈ l.blocks) (laid : p ∈ g.layout) (edge : b ∈ g.targets p) (outside : p ∉ l.blocks) :
    b = l.header := by
  by_contra other
  exact outside ((loop.natural linked).entered member other laid edge)

theorem entry_eq_header (member : g.entry ∈ l.blocks) : g.entry = l.header :=
  (dominates_entry.1 ((loop.natural linked).dominated member)).symm

/-- The edges back to the header start in the loop. -/
theorem latch_mem (laid : p ∈ g.layout) (edge : l.header ∈ g.targets p) (dominates : g.Dominates l.header p) :
    p ∈ l.blocks := by
  have natural := loop.natural linked
  exact natural.latch_mem ((natural.latches p).2 ⟨laid, edge, dominates⟩)

/-- A function that starts at the header of a loop has no other way into it. -/
theorem entry_ne_header (outside : p ∈ l.outsidePreds g) : g.entry ≠ l.header := by
  intro start
  obtain ⟨before, away⟩ := mem_filter.1 outside
  obtain ⟨laid, edge⟩ := (linked.mem_preds l.header (loop.header_mem_layout linked) p).1 before
  have inside := loop.latch_mem linked laid edge (start ▸ entry_dominates p)
  simp [Loop.contains, inside] at away

end Graph.HasLoop

end Quadcode
