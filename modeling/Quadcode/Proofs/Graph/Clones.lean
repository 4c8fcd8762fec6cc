import Quadcode.Proofs.Graph.Edits

/-!
# Copies of blocks

The copy of a block has its code. Its tail leads to the copies of copied blocks and otherwise to where the
tail of the block leads.
-/

namespace Quadcode.Graph

open List

variable {g h start : Graph} {copies : BlockMap BlockId} {blocks done : List BlockId} {b c : BlockId}

/-- A graph with copies whose tails lead where those of the blocks lead. -/
structure CopiedCode (start g : Graph) (copies : BlockMap BlockId) : Prop where
  alike : start.Alike g
  old : ∀ b < start.blocks.size, g.block b = start.block b
  body : ∀ b c : BlockId, copies[b]? = some c → g.body c = start.body b
  tail : ∀ b c : BlockId, copies[b]? = some c → g.tail c = start.tail b

theorem copyBodies_code (blocks : List BlockId) (inside : ∀ b ∈ blocks, b < start.blocks.size) {s : Supply}
    (copied : Copied start g copies done) (code : CopiedCode start g copies) :
    let made := copyBodies blocks g s copies
    Copied start made.2.1 made.1 (done ++ blocks) ∧ CopiedCode start made.2.1 made.1 := by
  induction blocks generalizing g s copies done with
  | nil => exact ⟨by rwa [append_nil], code⟩
  | cons b rest ih =>
    let x : Block := { label := blockStem ++ toString s.next, body := g.body b, tail := g.tail b }
    have old := code.old b (inside b mem_cons_self)
    have old_body : g.body b = start.body b := congrArg Block.body old
    have old_tail : g.tail b = start.tail b := congrArg Block.tail old
    have block {c : BlockId} (other : c ≠ g.blocks.size) : (g.addBlock x).2.block c = g.block c :=
      Draft.addBlock_of_ne other
    have code' : CopiedCode start (g.addBlock x).2 (copies.insert b g.blocks.size) := by
      have field {β : Type} (part : Block → β) (same : part x = part (start.block b))
          (before : ∀ d c : BlockId, copies[d]? = some c → part (g.block c) = part (start.block d))
          (d c : BlockId) (found : (copies.insert b g.blocks.size)[d]? = some c) :
          part ((g.addBlock x).2.block c) = part (start.block d) := by
        rw [BlockMap.getElem?_insert] at found
        split at found
        next here =>
          cases found
          cases here
          rw [Draft.addBlock_self, same]
        · rw [block (Nat.ne_of_lt (copied.bounds d c found).2), before d c found]
      refine ⟨⟨code.alike.vars, code.alike.params, code.alike.name⟩, fun c bound => ?_,
        field Block.body old_body code.body, field Block.tail old_tail code.tail⟩
      rw [block (Nat.ne_of_lt (bound.trans_le copied.size)), code.old c bound]
    have more := ih (s := ⟨s.next + 1⟩) (fun c later => inside c (mem_cons_of_mem b later))
      (copied.insert (x := x) b) code'
    rwa [append_assoc] at more

/-- A graph with copies of some blocks, which lead to each other. -/
structure Cloned (g h : Graph) (copies : BlockMap BlockId) (blocks : List BlockId) : Prop where
  alike : g.Alike h
  entry : h.entry = g.entry
  layout : h.layout.Perm (blocks.filterMap (copies[·]?) ++ g.layout)
  size : g.blocks.size ≤ h.blocks.size
  keys : ∀ b : BlockId, b ∈ blocks ↔ ∃ c, copies[b]? = some c
  bounds : ∀ b c : BlockId, copies[b]? = some c → g.blocks.size ≤ c ∧ c < h.blocks.size
  inj : ∀ b b' c : BlockId, copies[b]? = some c → copies[b']? = some c → b = b'
  body : ∀ b < g.blocks.size, h.body b = g.body b
  tail : ∀ b < g.blocks.size, h.tail b = g.tail b
  copy_body : ∀ b c : BlockId, copies[b]? = some c → h.body c = g.body b
  copy_tail : ∀ b c : BlockId, copies[b]? = some c → h.tail c = (g.tail b).mapTargets fun t => copies[t]?.getD t

theorem cloned_cloneBlocks (nodup : blocks.Nodup) (inside : ∀ b ∈ blocks, b < g.blocks.size) (s : Supply) :
    g.Cloned (g.cloneBlocks blocks s).2.1 (g.cloneBlocks blocks s).1 blocks := by
  have nothing : Copied g g ∅ [] := ⟨rfl, rfl, le_rfl, by simp, by simp, by simp⟩
  obtain ⟨copied, code⟩ := copyBodies_code (s := s) blocks inside nothing
    ⟨.refl g, fun _ _ => rfl, by simp, by simp⟩
  rw [nil_append] at copied
  rw [cloneBlocks_eq]
  generalize copyBodies blocks g s ∅ = made at copied code
  obtain ⟨copies, h, s'⟩ := made
  dsimp only at copied code ⊢
  have clone {c : BlockId} : c ∈ blocks.filterMap (copies[·]?) ↔ ∃ b : BlockId, copies[b]? = some c := by
    rw [mem_filterMap]
    exact exists_congr fun b => and_iff_right_of_imp fun found => (copied.keys b).2 ⟨c, found⟩
  have tail (c : BlockId) := foldl_setTail_tail (g := h)
    (fun _ tail => tail.mapTargets fun t => copies[t]?.getD t) (nodup.filterMap copied.inj)
    (fun c member => by
      obtain ⟨b, found⟩ := clone.1 member
      exact (copied.bounds b c found).2) c
  have same : h.SameBodies (joinCopies copies blocks h) := by
    rw [joinCopies_eq_foldl]
    exact List.foldlRecOn (motive := h.SameBodies) _ _ (.refl h) fun _ before c _ => before.setTail c _
  rw [← joinCopies_eq_foldl] at tail
  refine ⟨?_, ?_, ?_, ?_, copied.keys, fun b c found => ?_, copied.inj, fun b bound => ?_,
    fun b bound => ?_, fun b c found => ?_, fun b c found => ?_⟩
  · have alike := code.alike.trans same.alike
    exact ⟨alike.vars, alike.params, alike.name⟩
  · exact same.entry.trans copied.entry
  · refine (perm_cut _ _ _).trans ?_
    rw [same.layout, copied.layout]
  · exact copied.size.trans_eq same.size.symm
  · obtain ⟨above, below⟩ := copied.bounds b c found
    exact ⟨above, below.trans_eq same.size.symm⟩
  · exact (same.body b).trans (congrArg Block.body (code.old b bound))
  · refine (tail b).trans ((if_neg fun member => ?_).trans (congrArg Block.tail (code.old b bound)))
    obtain ⟨b', found⟩ := clone.1 member
    exact Nat.not_le_of_lt bound (copied.bounds b' b found).1
  · exact (same.body c).trans (code.body b c found)
  · refine (tail c).trans ((if_pos (clone.2 ⟨b, found⟩)).trans ?_)
    rw [code.tail b c found]

namespace Cloned

variable (cloned : g.Cloned h copies blocks)
include cloned

theorem mem_layout : b ∈ h.layout ↔ (∃ a : BlockId, copies[a]? = some b) ∨ b ∈ g.layout := by
  rw [cloned.layout.mem_iff, mem_append, mem_filterMap]
  refine or_congr_left (exists_congr fun a => and_iff_right_of_imp fun found => (cloned.keys a).2 ⟨b, found⟩)

theorem copy_mem_layout (laid : b ∈ g.layout) : copies[b]?.getD b ∈ h.layout := by
  cases found : copies[b]? with
  | some c => exact cloned.mem_layout.2 (.inl ⟨b, found⟩)
  | none => exact cloned.mem_layout.2 (.inr laid)

theorem closed (closed : g.Closed) (nodup : blocks.Nodup) (laid : ∀ b ∈ blocks, b ∈ g.layout) : h.Closed where
  entry_mem := cloned.entry ▸ cloned.mem_layout.2 (.inr closed.entry_mem)
  target_mem b member c edge := by
    rcases cloned.mem_layout.1 member with ⟨a, found⟩ | old
    · rw [targets, cloned.copy_tail a b found, Tail.targets_mapTargets] at edge
      obtain ⟨d, leads, rfl⟩ := mem_map.1 edge
      exact cloned.copy_mem_layout (closed.target_mem a (laid a ((cloned.keys a).2 ⟨b, found⟩)) d leads)
    · rw [targets, cloned.tail b (closed.lt_size b old)] at edge
      exact cloned.mem_layout.2 (.inr (closed.target_mem b old c edge))
  lt_size b member := by
    rcases cloned.mem_layout.1 member with ⟨a, found⟩ | old
    · exact (cloned.bounds a b found).2
    · exact (closed.lt_size b old).trans_le cloned.size
  nodup := by
    refine cloned.layout.nodup_iff.2 (nodup_append.2 ⟨nodup.filterMap cloned.inj, closed.nodup, ?_⟩)
    rintro b new c old rfl
    obtain ⟨a, -, found⟩ := mem_filterMap.1 new
    exact Nat.not_le_of_lt (closed.lt_size b old) (cloned.bounds a b found).1

/-- The code of a copy is that of an old block. -/
theorem origin_of_mem_layout (bound : ∀ b ∈ g.layout, b < g.blocks.size) (laid : ∀ b ∈ blocks, b ∈ g.layout)
    (member : b ∈ h.layout) : ∃ a ∈ g.layout, h.body b = g.body a ∧ ∃ f, h.tail b = (g.tail a).mapTargets f := by
  rcases cloned.mem_layout.1 member with ⟨a, found⟩ | old
  · exact ⟨a, laid a ((cloned.keys a).2 ⟨b, found⟩), cloned.copy_body a b found, _, cloned.copy_tail a b found⟩
  · refine ⟨b, old, cloned.body b (bound b old), id, ?_⟩
    rw [cloned.tail b (bound b old)]
    cases g.tail b <;> rfl

end Cloned

end Quadcode.Graph
