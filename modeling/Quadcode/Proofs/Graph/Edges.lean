import Mathlib.Data.List.Nodup
import Quadcode.Graph.Relink
import Quadcode.Proofs.Graph.DepthFirst

/-!
# Graphs whose edges are fresh

In a linked graph the layout lists the blocks that control can reach, and the stored edges are those
of the tails. Refreshing the edges of a graph links it, whatever its edges were, and moves neither
code nor control.
-/

namespace Quadcode

open List Array

namespace Graph

variable {g : Graph}

/-- The layout and the stored edges agree with the tails. -/
structure Linked (g : Graph) : Prop where
  inside : g.Inside
  mem_layout : ∀ b, b ∈ g.layout ↔ g.Reaches g.entry b
  layout_nodup : g.layout.Nodup
  block_succs : ∀ b ∈ g.layout, (g.block b).succs = (g.tail b).successors
  mem_preds : ∀ b ∈ g.layout, ∀ p, p ∈ g.preds b ↔ p ∈ g.layout ∧ b ∈ g.targets p
  preds_nodup : ∀ b ∈ g.layout, (g.preds b).Nodup

namespace Linked

variable {b c : BlockId} (linked : g.Linked)
include linked

theorem entry_mem : g.entry ∈ g.layout := (linked.mem_layout _).2 .refl

theorem target_mem (member : b ∈ g.layout) (edge : c ∈ g.targets b) : c ∈ g.layout :=
  (linked.mem_layout c).2 (((linked.mem_layout b).1 member).tail edge)

theorem succs_eq (member : b ∈ g.layout) : g.succs b = g.targets b := by
  rw [succs, linked.block_succs b member, targets, Tail.targets]

theorem pred_of_target (member : b ∈ g.layout) (edge : c ∈ g.targets b) : b ∈ g.preds c :=
  (linked.mem_preds c (linked.target_mem member edge) b).2 ⟨member, edge⟩

theorem mem_reversePostorder : b ∈ g.reversePostorder ↔ b ∈ g.layout :=
  linked.inside.mem_reversePostorder.trans (linked.mem_layout b).symm

theorem lt_size (member : b ∈ g.layout) : b < g.blocks.size :=
  linked.inside b ((linked.mem_layout b).1 member)

end Linked

/-! ## Refreshing -/

theorem getElem?_cleared (g : Graph) (b : BlockId) : g.cleared.blocks[b]? =
    g.blocks[b]?.map fun x => if b ∈ g.layout then { x with preds := [], succs := x.tail.successors } else x := by
  rw [cleared]
  generalize g.layout = layout
  generalize g.blocks = blocks
  induction layout generalizing blocks with
  | nil => simp
  | cons c rest ih =>
    rw [List.foldl_cons, ih, Array.getElem?_modify]
    by_cases same : c = b
    · subst same
      simp [Function.comp_def]
    · simp [same, Ne.symm same]

/-- The blocks that edges lead from to `b`. -/
def sources (edges : List (BlockId × BlockId)) (b : BlockId) : List BlockId :=
  (edges.filter (·.2 = b)).map (·.1)

theorem getElem?_refilled (g : Graph) (b : BlockId) : g.refilled.blocks[b]? =
    g.blocks[b]?.map fun x => { x with preds := (sources g.edges b).foldl addOnce x.preds } := by
  rw [refilled]
  generalize g.edges = edges
  generalize g.blocks = blocks
  induction edges generalizing blocks with
  | nil => simp [sources]
  | cons e rest ih =>
    rw [List.foldl_cons, ih, Array.getElem?_modify]
    by_cases same : e.2 = b
    · simp [sources, same, Function.comp_def]
    · simp [sources, same]

/-- What refreshing does to a block: only the stored edges change. -/
def refreshed (g : Graph) (b : BlockId) (x : Block) : Block := { x with
    preds := (sources { g with layout := g.liveLayout }.cleared.edges b).foldl addOnce
      (if b ∈ g.liveLayout then [] else x.preds)
    succs := if b ∈ g.liveLayout then x.tail.successors else x.succs }

theorem relink_getElem? (g : Graph) (b : BlockId) : g.relink.blocks[b]? = g.blocks[b]?.map (g.refreshed b) := by
  rw [relink, getElem?_refilled, getElem?_cleared, Option.map_map]
  refine congrArg (Option.map · g.blocks[b]?) (funext fun x => ?_)
  by_cases member : b ∈ g.liveLayout <;> simp [refreshed, member]

theorem relink_size (g : Graph) : g.relink.blocks.size = g.blocks.size := by
  have same (b : Nat) : g.relink.blocks[b]? = none ↔ g.blocks[b]? = none := by
    rw [relink_getElem?, Option.map_eq_none_iff]
  simp only [Array.getElem?_eq_none_iff] at same
  exact Nat.le_antisymm ((same _).2 le_rfl) ((same _).1 le_rfl)

/-- Refreshing keeps everything of a block that it does not recompute. -/
theorem relink_keeps {β : Type} (field : Block → β)
    (kept : ∀ (g : Graph) (b : BlockId) (x : Block), field (g.refreshed b x) = field x) (g : Graph) (b : BlockId) :
    field (g.relink.block b) = field (g.block b) := by
  rw [block, block, getD_eq_getD_getElem?, getD_eq_getD_getElem?, relink_getElem?]
  cases g.blocks[b]? <;> simp [kept]

@[simp]
theorem relink_tail (g : Graph) (b : BlockId) : g.relink.tail b = g.tail b :=
  relink_keeps Block.tail (fun _ _ _ => rfl) g b

@[simp]
theorem relink_body (g : Graph) (b : BlockId) : g.relink.body b = g.body b :=
  relink_keeps Block.body (fun _ _ _ => rfl) g b

@[simp]
theorem relink_label (g : Graph) (b : BlockId) : g.relink.label b = g.label b :=
  relink_keeps Block.label (fun _ _ _ => rfl) g b

@[simp]
theorem relink_targets (g : Graph) (b : BlockId) : g.relink.targets b = g.targets b := by
  rw [targets, targets, relink_tail]

@[simp] theorem relink_entry (g : Graph) : g.relink.entry = g.entry := rfl
@[simp] theorem relink_layout (g : Graph) : g.relink.layout = g.liveLayout := rfl

@[simp]
theorem relink_reaches (g : Graph) : g.relink.Reaches = g.Reaches := by
  unfold Reaches
  simp only [relink_targets]

theorem Inside.relink (inside : g.Inside) : g.relink.Inside := by
  intro b path
  rw [relink_size]
  rw [relink_reaches] at path
  exact inside b path

theorem Inside.mem_liveLayout (inside : g.Inside) {b : BlockId} : b ∈ g.liveLayout ↔ g.Reaches g.entry b := by
  rw [← inside.mem_reversePostorder]
  simp only [liveLayout, List.mem_append, List.mem_filter, Std.ExtTreeSet.mem_ofList,
    List.contains_iff_mem, decide_eq_true_eq]
  by_cases old : b ∈ g.layout <;> simp [old]

/-- A layout that lists the reachable blocks stays as it is. -/
theorem Inside.liveLayout_eq (inside : g.Inside) (all : ∀ b, b ∈ g.layout ↔ g.Reaches g.entry b) :
    g.liveLayout = g.layout := by
  have order : ∀ b, b ∈ g.reversePostorder ↔ b ∈ g.layout := fun b =>
    inside.mem_reversePostorder.trans (all b).symm
  have placed : g.layout.filter (· ∈ (.ofList g.reversePostorder : BlockSet)) = g.layout := by
    rw [List.filter_eq_self]
    intro b member
    simpa using (order b).2 member
  have none : g.reversePostorder.filter (· ∉ (.ofList g.layout : BlockSet)) = [] := by
    rw [filter_eq_nil_iff]
    intro b member
    simpa using (order b).1 member
  rw [liveLayout, placed, none, append_nil]

theorem Inside.liveLayout_nodup (inside : g.Inside) (distinct : g.layout.Nodup) : g.liveLayout.Nodup := by
  refine nodup_append.2 ⟨distinct.filter _, inside.reversePostorder_nodup.filter _, ?_⟩
  rintro b placed c added rfl
  simp_all

/-- Filling up lists each block once. -/
theorem foldl_addOnce (l before : List BlockId) : l.foldl addOnce before.eraseDups = (before ++ l).eraseDups := by
  induction l generalizing before with
  | nil => simp
  | cons b rest ih =>
    have added : addOnce before.eraseDups b = (before ++ [b]).eraseDups := by
      rw [eraseDups_append, addOnce]
      by_cases old : b ∈ before <;> simp [old, List.removeAll, eraseDups_cons]
    rw [List.foldl_cons, added, ih, List.append_assoc, List.singleton_append]

theorem nodup_eraseDups (l : List BlockId) : l.eraseDups.Nodup := by
  match l with
  | [] => exact .nil
  | b :: rest =>
    rw [eraseDups_cons, nodup_cons]
    have shorter := length_filter_le (fun c => !c == b) rest
    exact ⟨by simp, nodup_eraseDups _⟩
termination_by l.length

/-- The edges of the tails that control can come to. -/
def liveEdges (g : Graph) : List (BlockId × BlockId) := g.liveLayout.flatMap fun b => (g.targets b).map (b, ·)

theorem mem_sources_liveEdges {b p : BlockId} : p ∈ sources g.liveEdges b ↔ p ∈ g.liveLayout ∧ b ∈ g.targets p := by
  simp [sources, liveEdges]

theorem Inside.edges_eq (inside : g.Inside) : { g with layout := g.liveLayout }.cleared.edges = g.liveEdges := by
  refine flatMap_congr fun b (member : b ∈ g.liveLayout) => ?_
  have bound := inside b (inside.mem_liveLayout.1 member)
  have stored : ({ g with layout := g.liveLayout }.cleared.block b).succs = (g.tail b).successors := by
    rw [block, tail, block, getD_eq_getD_getElem?, getD_eq_getD_getElem?, getElem?_cleared,
      Array.getElem?_eq_getElem bound]
    simp [member]
  rw [succs, stored, targets, Tail.targets]

/-- The predecessors of a block that control can come to are the sources of the edges to it, each listed once. Other
blocks stay as they are. -/
theorem Inside.refreshed_eq (inside : g.Inside) (b : BlockId) (x : Block) : g.refreshed b x =
    if b ∈ g.liveLayout then { x with preds := (sources g.liveEdges b).eraseDups, succs := x.tail.successors }
    else x := by
  rw [refreshed, inside.edges_eq]
  split
  next member => rw [← eraseDups_nil, foldl_addOnce, nil_append]
  next other =>
    have none : sources g.liveEdges b = [] := by
      refine eq_nil_iff_forall_not_mem.2 fun p source => other ?_
      obtain ⟨member, edge⟩ := mem_sources_liveEdges.1 source
      exact inside.mem_liveLayout.2 ((inside.mem_liveLayout.1 member).tail edge)
    rw [none, foldl_nil]

/-- Refreshing links a graph, however stale its edges are. -/
theorem Inside.relink_linked (inside : g.Inside) (distinct : g.layout.Nodup) : g.relink.Linked := by
  have refreshed_block : ∀ b ∈ g.liveLayout, g.relink.block b =
      { g.block b with preds := (sources g.liveEdges b).eraseDups, succs := (g.tail b).successors } := by
    intro b member
    have bound := inside b (inside.mem_liveLayout.1 member)
    rw [tail, block, block, getD_eq_getD_getElem?, getD_eq_getD_getElem?, relink_getElem?,
      Array.getElem?_eq_getElem bound, Option.map_some, Option.getD_some, inside.refreshed_eq, if_pos member]
    rfl
  refine ⟨inside.relink, fun b => ?_, inside.liveLayout_nodup distinct, fun b member => ?_,
    fun b member p => ?_, fun b member => ?_⟩
  · rw [relink_reaches]
    exact inside.mem_liveLayout
  · rw [relink_tail, refreshed_block b member]
  · rw [relink_targets, preds, refreshed_block b member, mem_eraseDups, mem_sources_liveEdges, relink_layout]
  · rw [preds, refreshed_block b member]
    exact nodup_eraseDups _

/-- Once the edges are fresh, there is nothing left to refresh. -/
theorem Inside.relink_relink (inside : g.Inside) : g.relink.relink = g.relink := by
  have layout : g.relink.liveLayout = g.liveLayout := inside.relink.liveLayout_eq fun b => by
    rw [relink_reaches]
    exact inside.mem_liveLayout
  have edges : g.relink.liveEdges = g.liveEdges := by simp [liveEdges, layout]
  have blocks : g.relink.relink.blocks = g.relink.blocks := by
    refine ext_getElem? fun b => ?_
    rw [relink_getElem?, relink_getElem? g, Option.map_map]
    refine congrArg (Option.map · g.blocks[b]?) (funext fun x => ?_)
    rw [Function.comp_apply, inside.relink.refreshed_eq, inside.refreshed_eq, layout, edges]
    split <;> rfl
  change ({ g.relink with layout := g.relink.liveLayout, blocks := g.relink.relink.blocks } : Graph) = g.relink
  rw [layout, blocks]
  rfl

/-- Refreshing a graph whose layout names no block twice repairs it, however stale its edges are. -/
theorem relink_repairs (inside : g.Inside) (distinct : g.layout.Nodup) :
    g.relink.layout.Nodup ∧ (∀ b, b ∈ g.relink.layout ↔ g.Reaches g.entry b) ∧
      (∃ added, g.relink.layout = g.layout.filter (· ∈ g.relink.layout) ++ added ∧ ∀ b ∈ added, b ∉ g.layout) ∧
      (∀ b ∈ g.relink.layout, (g.relink.block b).succs = (g.tail b).successors ∧ (g.relink.preds b).Nodup ∧
        ∀ p, p ∈ g.relink.preds b ↔ p ∈ g.relink.layout ∧ b ∈ g.targets p) ∧
      (∀ b, g.relink.body b = g.body b ∧ g.relink.tail b = g.tail b ∧ g.relink.label b = g.label b) ∧
      g.relink.entry = g.entry ∧ g.relink.vars = g.vars ∧ g.relink.params = g.params ∧ g.relink.relink = g.relink := by
  have linked := inside.relink_linked distinct
  refine ⟨linked.layout_nodup, fun b => inside.mem_liveLayout, ?_,
    fun b member => ⟨?_, linked.preds_nodup b member, ?_⟩,
    fun b => ⟨relink_body g b, relink_tail g b, relink_label g b⟩, rfl, rfl, rfl, inside.relink_relink⟩
  · have kept : g.layout.filter (· ∈ (.ofList g.reversePostorder : BlockSet)) =
        g.layout.filter (· ∈ g.relink.layout) := by
      refine filter_congr fun b _ => decide_eq_decide.2 ?_
      rw [Std.ExtTreeSet.mem_ofList, List.contains_iff_mem, inside.mem_reversePostorder, relink_layout,
        inside.mem_liveLayout]
    rw [← kept]
    refine ⟨_, rfl, fun b added placed => ?_⟩
    simp [placed] at added
  · rw [← relink_tail]
    exact linked.block_succs b member
  · simpa using linked.mem_preds b member

/-- The unreachable block is dropped, the one that was not laid out comes last, and the two ways from the test count
as one predecessor. -/
theorem stale_repaired : stale.Inside ∧ stale.layout.Nodup ∧ stale.relink.layout = [2, 0, 4, 3] ∧
    stale.relink.preds 2 = [0, 3] ∧ stale.relink.relink = stale.relink := by
  obtain ⟨-, -, -, -, -, -, -, -, again⟩ := relink_repairs stale_inside (by decide)
  exact ⟨stale_inside, by decide, by decide +kernel, by decide +kernel, again⟩

end Graph

end Quadcode
