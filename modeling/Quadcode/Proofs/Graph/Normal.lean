import Quadcode.Optimizer.LoopEdit
import Quadcode.Proofs.Flow.Solutions
import Quadcode.Proofs.Graph.Segments
import Quadcode.Proofs.Graph.Shape

/-!
# Normal form

In a graph in normal form the entry is laid out first, each laid-out block has a label of its own, and
the stored edges are those of the tails. An edit may leave the edges stale. What it has to keep is that
every block, laid out or not, leads to blocks and has a label of its own that will not be drawn again;
refreshing the edges then brings the normal form back.
-/

namespace Quadcode

open List Array Segment Build

variable {t : Tail}

/-! ## Generated labels -/

theorem drawn_inj {stem : String} {m n : Nat} (same : stem ++ toString m = stem ++ toString n) : m = n := by
  have digits : Nat.toDigits 10 m = Nat.toDigits 10 n := by
    rw [← Nat.toList_repr, ← Nat.toList_repr]
    exact congrArg String.toList ((String.append_right_inj stem).1 same)
  rw [← @Nat.ofDigitChars_ten_toDigits m, digits, Nat.ofDigitChars_ten_toDigits]

/-- No label of the function looks generated. -/
def Function.Written (f : Function) : Prop := ∀ q ∈ f.quads, ∀ l, q.op = .label l → ¬Segment.Generated l

/-- Generated labels start with a dot. -/
theorem Function.written_of_heads {f : Function}
    (heads : ∀ l ∈ f.quads.filterMap (·.op.label?), l.toList.head? ≠ some '.') : f.Written := by
  rintro q member _ label ⟨n, rfl⟩
  refine heads _ (mem_filterMap.2 ⟨q, member, Op.label?_eq_some.2 label⟩) ?_
  rw [String.toList_append]
  rfl

namespace Tail

theorem targets_mapTargets (f : BlockId → BlockId) (t : Tail) : (t.mapTargets f).targets = t.targets.map f := by
  cases t <;> rfl

theorem mem_targets_retarget {old new b : BlockId} (member : b ∈ (t.retarget old new).targets) :
    b = new ∨ b ∈ t.targets := by
  rw [retarget, targets_mapTargets, List.mem_map] at member
  obtain ⟨c, target, rfl⟩ := member
  split
  · exact .inl rfl
  · exact .inr target

end Tail

namespace Graph

variable {g h : Graph} {s : Supply} {b : BlockId} {f : Block → Block}

/-- The entry comes first, the layout lists the reachable blocks, their labels are distinct and their
edges fresh. -/
structure Normal (g : Graph) : Prop extends g.Linked where
  entry_first : g.layout.head? = some g.entry
  labels : ∀ b ∈ g.layout, ∀ c ∈ g.layout, g.label b = g.label c → b = c

/-- All that refreshing the edges needs for normal form, now and after later edits. -/
structure Draft (g : Graph) (s : Supply) : Prop where
  closed : ∀ b, ∀ t ∈ g.targets b, t < g.blocks.size
  entry_first : g.layout.head? = some g.entry
  layout_nodup : g.layout.Nodup
  layout_lt : ∀ b ∈ g.layout, b < g.blocks.size
  labels : ∀ b c, b < g.blocks.size → c < g.blocks.size → g.label b = g.label c → b = c
  drawn : ∀ b < g.blocks.size, ∀ n, g.label b = blockStem ++ toString n → n < s.next

/-- A draft with fresh edges. -/
structure Whole (g : Graph) (s : Supply) : Prop extends g.Draft s where
  linked : g.Linked

/-! ## Refreshing -/

variable {copies : BlockMap BlockId} {layout done : List BlockId} {entry : BlockId} {x : Block} {start : Graph}
  {s' : Supply}

namespace Draft

variable (draft : g.Draft s)
include draft

theorem entry_mem : g.entry ∈ g.layout := mem_of_mem_head? draft.entry_first

theorem entry_lt : g.entry < g.blocks.size := draft.layout_lt _ draft.entry_mem

theorem inside : g.Inside := by
  intro b path
  induction path with
  | refl => exact draft.entry_lt
  | tail _ edge _ => exact draft.closed _ _ edge

theorem head_liveLayout : g.liveLayout.head? = some g.entry := by
  obtain ⟨rest, layout⟩ : ∃ rest, g.layout = g.entry :: rest := by
    have first := draft.entry_first
    cases eq : g.layout with
    | nil => simp [eq] at first
    | cons b rest =>
      rw [eq] at first
      exact ⟨rest, by rw [Option.some.inj first]⟩
  have reachable : g.entry ∈ g.reversePostorder := draft.inside.mem_reversePostorder.2 .refl
  simp [liveLayout, layout, reachable]

theorem relink : g.relink.Whole s where
  closed b t target := by
    rw [relink_targets] at target
    rw [relink_size]
    exact draft.closed b t target
  entry_first := draft.head_liveLayout
  layout_nodup := draft.inside.liveLayout_nodup draft.layout_nodup
  layout_lt b member := by
    rw [relink_size]
    exact draft.inside b (draft.inside.mem_liveLayout.1 member)
  labels b c := by
    rw [relink_size, relink_label, relink_label]
    exact draft.labels b c
  drawn b := by
    rw [relink_size, relink_label]
    exact draft.drawn b
  linked := draft.inside.relink_linked draft.layout_nodup

/-! ## Edits -/

/-- Later on, more names have been drawn. -/
theorem later (later : s.next ≤ s'.next) : g.Draft s' :=
  { draft with drawn := fun b bound n eq => lt_of_lt_of_le (draft.drawn b bound n eq) later }

/-- A block gets another tail that leads to blocks, and perhaps other code. -/
theorem modifyBlock (label : (f (g.block b)).label = (g.block b).label)
    (targets : ∀ t ∈ (f (g.block b)).tail.targets, t < g.blocks.size) : (g.modifyBlock b f).Draft s where
  closed c t target := by
    rw [modifyBlock_size]
    by_cases same : b = c
    · subst same
      unfold Graph.targets Graph.tail at target
      rcases modifyBlock_block_self (g := g) (b := b) (f := f) with eq | eq
      · exact targets t (eq ▸ target)
      · exact draft.closed b t (by rwa [eq] at target)
    · unfold Graph.targets Graph.tail at target
      rw [modifyBlock_of_ne same] at target
      exact draft.closed c t target
  entry_first := draft.entry_first
  layout_nodup := draft.layout_nodup
  layout_lt c member := by
    rw [modifyBlock_size]
    exact draft.layout_lt c member
  labels c d := by
    have kept := modifyBlock_keeps (g := g) (b := b) (f := f) Block.label label
    rw [modifyBlock_size, Graph.label, Graph.label, kept c, kept d]
    exact draft.labels c d
  drawn c := by
    have kept := modifyBlock_keeps (g := g) (b := b) (f := f) Block.label label c
    rw [modifyBlock_size, Graph.label, kept]
    exact draft.drawn c

theorem setTail (targets : ∀ c ∈ t.targets, c < g.blocks.size) : (g.setTail b t).Draft s :=
  draft.modifyBlock rfl targets

theorem setBody (body : List Quad) : (g.setBody b body).Draft s := draft.modifyBlock rfl (draft.closed b)

omit draft in
theorem addBlock_of_ne (other : b ≠ g.blocks.size) : (g.addBlock x).2.block b = g.block b := by
  simp [addBlock, block, getD_eq_getD_getElem?, getElem?_push, other]

omit draft in
theorem addBlock_self : (g.addBlock x).2.block g.blocks.size = x := by
  simp [addBlock, block, getD_eq_getD_getElem?]

/-- A block is added under the next generated label. -/
theorem addBlock (label : x.label = blockStem ++ toString s.next) (targets : ∀ t ∈ x.tail.targets, t < g.blocks.size) :
    (g.addBlock x).2.Draft ⟨s.next + 1⟩ := by
  have size : (g.addBlock x).2.blocks.size = g.blocks.size + 1 := size_push x
  have own : (g.addBlock x).2.label g.blocks.size = blockStem ++ toString s.next := by
    rw [Graph.label, addBlock_self, label]
  have old {b : BlockId} (other : b ≠ g.blocks.size) : (g.addBlock x).2.label b = g.label b := by
    rw [Graph.label, addBlock_of_ne other, Graph.label]
  have below {b : BlockId} (bound : b < g.blocks.size + 1) (other : b ≠ g.blocks.size) :
      b < g.blocks.size := Nat.lt_of_le_of_ne (Nat.le_of_lt_succ bound) other
  have unused {b : BlockId} (bound : b < g.blocks.size) : g.label b ≠ blockStem ++ toString s.next :=
    fun eq => lt_irrefl _ (draft.drawn b bound _ eq)
  refine ⟨fun b t target => ?_, draft.entry_first, draft.layout_nodup, fun b member => ?_,
    fun b c bound bound' eq => ?_, fun b bound n eq => ?_⟩
  · rw [size]
    unfold Graph.targets Graph.tail at target
    by_cases new : b = g.blocks.size
    · rw [new, addBlock_self] at target
      exact Nat.lt_succ_of_lt (targets t target)
    · rw [addBlock_of_ne new] at target
      exact Nat.lt_succ_of_lt (draft.closed b t target)
  · rw [size]
    exact Nat.lt_succ_of_lt (draft.layout_lt b member)
  · rw [size] at bound bound'
    by_cases new : b = g.blocks.size <;> by_cases new' : c = g.blocks.size
    · rw [new, new']
    · rw [new, own, old new'] at eq
      exact absurd eq.symm (unused (below bound' new'))
    · rw [new', own, old new] at eq
      exact absurd eq (unused (below bound new))
    · rw [old new, old new'] at eq
      exact draft.labels b c (below bound new) (below bound' new') eq
  · rw [size] at bound
    by_cases new : b = g.blocks.size
    · rw [new, own] at eq
      exact drawn_inj eq ▸ Nat.lt_succ_self _
    · rw [old new] at eq
      exact Nat.lt_succ_of_lt (draft.drawn b (below bound new) n eq)

/-- The blocks are laid out anew, perhaps with another entry. -/
theorem relaid (first : layout.head? = some entry) (nodup : layout.Nodup) (bound : ∀ b ∈ layout, b < g.blocks.size) :
    { g with entry, layout }.Draft s :=
  { draft with entry_first := first, layout_nodup := nodup, layout_lt := bound }

end Draft

theorem place_le (layout : List BlockId) (header : BlockId) : (layout.idxOf? header).getD 0 ≤ layout.length := by
  cases found : layout.idxOf? header with
  | none => exact Nat.zero_le _
  | some i => exact Nat.le_of_lt (idxOf?_eq_some_iff.1 found).1

/-- A block in front of the header comes first if the header did. -/
theorem head_insertIdx {header b : BlockId} (first : layout.head? = some entry) (member : header ∈ layout) :
    (layout.insertIdx ((layout.idxOf? header).getD 0) b).head? = some (if entry = header then b else entry) := by
  cases layout with
  | nil => cases member
  | cons c rest =>
    obtain rfl : c = entry := Option.some.inj first
    by_cases same : c = header
    · simp [same, idxOf?_cons]
    · obtain ⟨i, place⟩ : ∃ i, rest.idxOf? header = some i :=
        Option.isSome_iff_exists.1 (by simpa [Ne.symm same] using member)
      simp [same, idxOf?_cons, place]

namespace Draft

variable (draft : g.Draft s) {l : Loop}
include draft

/-- Edges of some blocks are led elsewhere. -/
theorem mapTargets {f : BlockId → BlockId} (bound : ∀ t < g.blocks.size, f t < g.blocks.size) (ps : List BlockId) :
    let h := ps.foldl (fun g p => g.setTail p ((g.tail p).mapTargets f)) g
    h.Draft s ∧ h.layout = g.layout ∧ h.entry = g.entry ∧ h.blocks.size = g.blocks.size := by
  refine List.foldlRecOn (motive := fun h : Graph =>
    h.Draft s ∧ h.layout = g.layout ∧ h.entry = g.entry ∧ h.blocks.size = g.blocks.size) ps _
    ⟨draft, rfl, rfl, rfl⟩ fun h ⟨kept, layout, entry, size⟩ p _ => ?_
  refine ⟨kept.setTail fun t target => ?_, layout, entry, modifyBlock_size.trans size⟩
  rw [Tail.targets_mapTargets, List.mem_map] at target
  obtain ⟨u, old, rfl⟩ := target
  exact size ▸ bound u (size ▸ kept.closed p u old)

/-- The edges that enter a loop are led through a block that is not laid out yet. -/
theorem enterThrough (header : l.header ∈ g.layout) (bound : b < g.blocks.size) (new : b ∉ g.layout) :
    (g.enterThrough l b).Draft s := by
  obtain ⟨kept, layout, entry, size⟩ := draft.mapTargets (f := fun t => if t = l.header then b else t)
    (fun t old => by split <;> assumption) (l.outsidePreds g)
  unfold Graph.enterThrough Tail.retarget
  simp only [layout, entry]
  have order := perm_insertIdx b g.layout (place_le g.layout l.header)
  refine kept.relaid (head_insertIdx draft.entry_first header) ?_ fun c member => ?_
  · exact order.symm.nodup (nodup_cons.2 ⟨new, draft.layout_nodup⟩)
  · rw [size]
    rcases mem_cons.1 (order.mem_iff.1 member) with rfl | old
    · exact bound
    · exact draft.layout_lt c old

theorem size_not_mem : g.blocks.size ∉ g.layout := fun member => lt_irrefl _ (draft.layout_lt _ member)

theorem insertPreheader (header : l.header ∈ g.layout) :
    (g.insertPreheader l s).2.1.Draft (g.insertPreheader l s).2.2 := by
  have added := draft.addBlock (x := { label := blockStem ++ toString s.next, tail := .jump l.header })
    rfl (fun t target => by
      obtain rfl := mem_singleton.1 target
      exact draft.layout_lt _ header)
  refine added.enterThrough header ?_ draft.size_not_mem
  exact Nat.lt_of_lt_of_eq (Nat.lt_succ_self _) (size_push _).symm

end Draft

/-! ## Copies -/

/-- The graph `h` has copies of some blocks beside the blocks of `g`. -/
structure Copied (g h : Graph) (copies : BlockMap BlockId) (blocks : List BlockId) : Prop where
  layout : h.layout = g.layout
  entry : h.entry = g.entry
  size : g.blocks.size ≤ h.blocks.size
  keys : ∀ b : BlockId, b ∈ blocks ↔ ∃ c, copies[b]? = some c
  bounds : ∀ b c : BlockId, copies[b]? = some c → g.blocks.size ≤ c ∧ c < h.blocks.size
  inj : ∀ b b' c : BlockId, copies[b]? = some c → copies[b']? = some c → b = b'

/-- One more block is copied. -/
theorem Copied.insert (copied : Copied start g copies done) (b : BlockId) :
    Copied start (g.addBlock x).2 (copies.insert b g.blocks.size) (done ++ [b]) := by
  have size : (g.addBlock x).2.blocks.size = g.blocks.size + 1 := size_push x
  refine ⟨copied.layout, copied.entry, ?_, fun c => ?_, fun c d found => ?_, fun c c' d found found' => ?_⟩
  · rw [size]
    exact Nat.le_succ_of_le copied.size
  · rw [BlockMap.getElem?_insert, List.mem_append, copied.keys, List.mem_singleton]
    by_cases same : b = c
    · simp [same]
    · simp [same, Ne.symm same]
  · rw [BlockMap.getElem?_insert] at found
    rw [size]
    split at found
    · cases found
      exact ⟨copied.size, Nat.lt_succ_self _⟩
    · obtain ⟨above, below⟩ := copied.bounds c d found
      exact ⟨above, Nat.lt_succ_of_lt below⟩
  · -- The new copy stands behind all earlier ones.
    have earlier {e : BlockId} (old : copies[e]? = some g.blocks.size) : False := lt_irrefl _ (copied.bounds e _ old).2
    rw [BlockMap.getElem?_insert] at found found'
    split at found <;> split at found'
    next same same' => exact same.symm.trans same'
    · cases found
      exact (earlier found').elim
    · cases found'
      exact (earlier found).elim
    · exact copied.inj c c' d found found'

theorem copyBodies_copied (blocks : List BlockId) (draft : g.Draft s) (copied : Copied start g copies done) :
    let made := copyBodies blocks g s copies
    made.2.1.Draft made.2.2 ∧ Copied start made.2.1 made.1 (done ++ blocks) := by
  induction blocks generalizing g s copies done with
  | nil => exact ⟨draft, by rwa [append_nil]⟩
  | cons b rest ih =>
    let x : Block := { label := blockStem ++ toString s.next, body := g.body b, tail := g.tail b }
    have added : (g.addBlock x).2.Draft ⟨s.next + 1⟩ := draft.addBlock rfl (draft.closed b)
    have more := ih added (copied.insert b)
    rwa [List.append_assoc] at more

/-- Leads edges between copied blocks to the copies. -/
def joinCopies (copies : BlockMap BlockId) (blocks : List BlockId) (g : Graph) : Graph := blocks.foldl (fun g b =>
    match copies[b]? with
    | some c => g.setTail c ((g.tail c).mapTargets fun t => copies[t]?.getD t)
    | none => g) g

/-- The place behind the last copied block of a layout. -/
def copiesPlace (copies : BlockMap BlockId) (layout : List BlockId) : Nat :=
  let behind := (layout.reverse.dropWhile fun b => copies[b]?.isNone).length
  if behind = 0 then layout.length else behind

theorem cloneBlocks_eq (g : Graph) (blocks : List BlockId) (s : Supply) : g.cloneBlocks blocks s =
      let (copies, h, s) := copyBodies blocks g s ∅
      let h := joinCopies copies blocks h
      let clones := blocks.filterMap fun b => copies[b]?
      let cut := copiesPlace copies h.layout
      (copies, { h with layout := h.layout.take cut ++ clones ++ h.layout.drop cut }, s) := rfl

theorem joinCopies_eq_foldl (copies : BlockMap BlockId) (blocks : List BlockId) (g : Graph) :
    joinCopies copies blocks g = (blocks.filterMap (copies[·]?)).foldl
      (fun g c => g.setTail c ((g.tail c).mapTargets fun t => copies[t]?.getD t)) g := by
  induction blocks generalizing g with
  | nil => rfl
  | cons b rest ih =>
    unfold joinCopies at ih ⊢
    rw [foldl_cons, filterMap_cons, ih]
    cases copies[b]? <;> rfl

/-- Copies lead to blocks. -/
theorem Copied.lead_lt (copied : Copied start g copies done) (t : BlockId) (bound : t < g.blocks.size) :
    copies[t]?.getD t < g.blocks.size := by
  cases found : copies[t]? with
  | none => exact bound
  | some d => exact (copied.bounds t d found).2

theorem copiesPlace_pos (first : layout.head? = some entry) : 0 < copiesPlace copies layout := by
  have nonempty : 0 < layout.length := by
    cases layout with
    | nil => cases first
    | cons b rest => exact Nat.succ_pos _
  unfold copiesPlace
  dsimp only
  split <;> omega

/-- What is laid out behind the first block does not change which one that is. -/
theorem head_cut {clones : List BlockId} {cut : Nat} (first : layout.head? = some entry) (positive : 0 < cut) :
    (layout.take cut ++ clones ++ layout.drop cut).head? = some entry := by
  cases layout with
  | nil => cases first
  | cons b rest =>
    cases cut with
    | zero => cases positive
    | succ k => exact first

theorem perm_cut (layout clones : List BlockId) (cut : Nat) :
    (layout.take cut ++ clones ++ layout.drop cut).Perm (clones ++ layout) := by
  have swapped : (layout.take cut ++ clones ++ layout.drop cut).Perm
      (clones ++ layout.take cut ++ layout.drop cut) := perm_append_comm.append_right _
  rwa [append_assoc clones, take_append_drop] at swapped

theorem Draft.cloneBlocks (draft : g.Draft s) {blocks : List BlockId} (nodup : blocks.Nodup) :
    let made := g.cloneBlocks blocks s
    made.2.1.Draft made.2.2 ∧ g.blocks.size ≤ made.2.1.blocks.size ∧
      ∀ b ∈ blocks, ∃ c, made.1[b]? = some c ∧ c < made.2.1.blocks.size := by
  have nothing : Copied g g ∅ [] := ⟨rfl, rfl, le_refl _, by simp, by simp, by simp⟩
  obtain ⟨drafted, copied⟩ := copyBodies_copied blocks draft nothing
  rw [nil_append] at copied
  rw [cloneBlocks_eq]
  generalize copyBodies blocks g s ∅ = made at drafted copied
  obtain ⟨copies, h, s'⟩ := made
  dsimp only at drafted copied ⊢
  obtain ⟨kept, layout, entry, size⟩ := drafted.mapTargets copied.lead_lt (blocks.filterMap (copies[·]?))
  rw [← joinCopies_eq_foldl] at kept layout entry size
  have order := perm_cut (Graph.joinCopies copies blocks h).layout (blocks.filterMap (copies[·]?))
    (copiesPlace copies (Graph.joinCopies copies blocks h).layout)
  have clone {c : BlockId} (member : c ∈ blocks.filterMap (copies[·]?)) : g.blocks.size ≤ c ∧ c < h.blocks.size := by
    obtain ⟨b, -, found⟩ := mem_filterMap.1 member
    exact copied.bounds b c found
  refine ⟨kept.relaid ?_ ?_ fun c member => ?_, ?_, fun b member => ?_⟩
  · exact head_cut kept.entry_first (copiesPlace_pos kept.entry_first)
  · refine order.symm.nodup (nodup_append.2 ⟨?_, kept.layout_nodup, ?_⟩)
    · exact nodup.filterMap copied.inj
    · rintro c new d old rfl
      rw [layout, copied.layout] at old
      exact absurd (draft.layout_lt c old) (Nat.not_lt_of_le (clone new).1)
  · rcases mem_append.1 (order.mem_iff.1 member) with new | old
    · exact lt_of_lt_of_eq (clone new).2 size.symm
    · exact kept.layout_lt c old
  · exact le_of_le_of_eq copied.size size.symm
  · obtain ⟨c, found⟩ := (copied.keys b).1 member
    exact ⟨c, found, lt_of_lt_of_eq (copied.bounds b c found).2 size.symm⟩

/-! ## Graphs of one shape -/

namespace SameShape

variable (shape : g.SameShape h)
include shape

theorem reaches : h.Reaches = g.Reaches := by
  unfold Reaches
  simp only [shape.targets]

theorem linked (linked : g.Linked) : h.Linked where
  inside b path := by
    rw [shape.reaches, shape.entry] at path
    rw [shape.size]
    exact linked.inside b path
  mem_layout b := by
    rw [shape.layout, shape.reaches, shape.entry]
    exact linked.mem_layout b
  layout_nodup := shape.layout ▸ linked.layout_nodup
  block_succs b member := by
    rw [shape.edges, shape.successors]
    exact linked.block_succs b (shape.layout ▸ member)
  mem_preds b member p := by
    rw [shape.preds, shape.layout, shape.targets]
    exact linked.mem_preds b (shape.layout ▸ member) p
  preds_nodup b member := by
    rw [shape.preds]
    exact linked.preds_nodup b (shape.layout ▸ member)

theorem draft (draft : g.Draft s) : h.Draft s where
  closed b t target := by
    rw [shape.targets] at target
    rw [shape.size]
    exact draft.closed b t target
  entry_first := by
    rw [shape.layout, shape.entry]
    exact draft.entry_first
  layout_nodup := shape.layout ▸ draft.layout_nodup
  layout_lt b member := by
    rw [shape.size]
    exact draft.layout_lt b (shape.layout ▸ member)
  labels b c := by
    rw [shape.size, shape.label, shape.label]
    exact draft.labels b c
  drawn b := by
    rw [shape.size, shape.label]
    exact draft.drawn b

theorem whole (whole : g.Whole s) : h.Whole s := { shape.draft whole.toDraft with linked := shape.linked whole.linked }

end SameShape

namespace Whole

variable (whole : g.Whole s)
include whole

theorem normal : g.Normal where
  toLinked := whole.linked
  entry_first := whole.entry_first
  labels b member c member' := whole.labels b c (whole.layout_lt b member) (whole.layout_lt c member')

theorem later (later : s.next ≤ s'.next) : g.Whole s' :=
  { whole.toDraft.later later with linked := whole.linked }

end Whole

/-! ## Building -/

/-- The block of a segment carries the name of the segment. -/
theorem blocks_label {f : Function} {labels : List Label} {segments : List Segment} {bs : List Block}
    (success : Segment.blocks f labels 0 segments = .ok bs) (named : labels.length = segments.length) {i : Nat}
    (bound : i < bs.length) : labels[i]? = some (bs.toArray.getD i default).label := by
  have within : i < segments.length := blocks_length success ▸ bound
  have whole : segments = segments.take i ++ segments[i] :: segments.drop (i + 1) := by
    rw [getElem_cons_drop, take_append_drop]
  rw [whole] at success
  obtain ⟨t, -, found⟩ := blocks_getElem? success
  rw [length_take_of_le (Nat.le_of_lt within)] at found
  simp [getD_eq_getD_getElem?, found, named, within]

/-- A function builds to a graph in normal form if none of its labels looks generated. -/
theorem build_whole {f : Function} (built : build f s = .ok (g, s')) (written : f.Written) : g.Whole s' := by
  obtain ⟨bs, distinct, success, rfl, rfl⟩ := build_cases built
  have nonempty : 0 < bs.length := by
    rw [blocks_length success]
    exact length_pos_iff.2 (f.segments_ne_nil)
  have label {b : BlockId} (bound : b < bs.length) := blocks_label success (names_length ..) bound
  refine Draft.relink ⟨fun b t target => ?_, ?_, nodup_range, fun b => by simp,
    fun b c bound bound' eq => ?_, fun b bound n eq => ?_⟩
  · change t ∈ (bs.toArray.getD b default).tail.targets at target
    rw [getD_eq_getD_getElem?, getElem?_toArray] at target
    cases found : bs[b]? with
    | none =>
      rw [found] at target
      cases target
    | some x =>
      rw [found] at target
      have bounds := blocks_targets success x (mem_of_getElem? found) t target
      rw [names_length, Nat.zero_add, or_self] at bounds
      exact lt_of_lt_of_eq bounds (blocks_length success).symm
  · rw [head?_range, if_neg (Nat.ne_of_gt nonempty)]
  · refine (List.getElem?_inj (List.getElem?_eq_some_iff.1 (label bound)).1 (firstRepeated_eq_none.1 distinct).1).1 ?_
    exact (label bound).trans ((congrArg some eq).trans (label bound').symm)
  · rcases mem_names.1 (mem_of_getElem? ((label bound).trans (congrArg some eq))) with
      ⟨t, member, own⟩ | ⟨m, made, -, drawn⟩
    · obtain ⟨q, found, op⟩ := exists_label member own
      exact absurd ⟨n, rfl⟩ (written q found _ op)
    · exact drawn_inj made ▸ drawn

end Graph

theorem Function.graph_normal (f : Function) (built : (Graph.build f {}).isOk)
    (heads : ∀ l ∈ f.quads.filterMap (·.op.label?), l.toList.head? ≠ some '.') : f.graph.Normal := by
  obtain ⟨s, built⟩ := f.graph_built built
  exact (Graph.build_whole built (written_of_heads heads)).normal

end Quadcode
