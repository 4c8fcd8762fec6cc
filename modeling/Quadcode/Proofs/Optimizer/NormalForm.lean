import Quadcode.Proofs.Graph.Normal
import Quadcode.Proofs.Optimizer.Invariants

/-!
# Normal form through the optimizer

Every edit of the optimizer leaves a draft behind and then refreshes the edges, so every pass takes a
graph in normal form to one, also when it fails. So do the passes on whole modules: whatever is run, in
any order, the functions that a module still has are in normal form if their labels were written by
hand.
-/

namespace Quadcode

open List Quadcode.Graph

variable {s : Supply} {g h : Graph} {l : Loop} {b : BlockId} {w : Switch}

/-! ## Branches decided -/

namespace ConstantFolding

theorem mem_targets_tail {facts : Facts} {t : Tail} (member : b ∈ (tail facts t).1.targets) : b ∈ t.targets := by
  have kept : (t.mapArgs (substitute facts)).targets = t.targets := by
    rw [Tail.targets, Tail.successors_mapArgs, Tail.targets]
  rw [← kept]
  unfold tail at member
  dsimp only at member
  split at member
  next c x y onTrue onFalse eq =>
    rw [eq]
    split at member
    next taken _ =>
      obtain rfl := mem_singleton.1 member
      cases taken <;> simp [Tail.targets, Tail.successors]
    · exact member
  · exact member

theorem graph_draft {facts : Solution Facts} {n : Counts} (draft : g.Draft s) (done : graph facts g = .ok (h, n)) :
    h.Draft s := by
  refine foldlM_ok (fun _ (r : Graph × Counts) => r.1.Draft s) draft ?_ done
  rintro _ b _ ⟨h, n⟩ r - kept step
  simp only [bind_eq_ok, pure_eq_ok] at step
  obtain ⟨points, -, rfl⟩ := step
  exact kept.modifyBlock rfl fun t target => kept.closed b t (mem_targets_tail target)

end ConstantFolding

/-! ## Jumps led on -/

namespace JumpSkipping

variable {d : Dominators} {t : BlockId}

theorem mem_targets_of_skip (found : skip? g d b = some t) : t ∈ g.targets b := by
  unfold skip? at found
  split at found
  · cases found
  · split at found
    next u only =>
      split at found
      · cases found
      · split at found
        · cases found
        · cases found
          rw [Graph.targets]
          cases eq : g.tail b <;> simp_all [Tail.only?, Tail.targets, Tail.successors]
    · cases found

variable (draft : g.Draft s)
include draft

theorem skips_lt : (skips g d)[b]? = some t → t < g.blocks.size := by
  refine List.foldlRecOn (motive := fun m : Skips => m[b]? = some t → t < g.blocks.size) g.layout _
    (by simp) fun m before c _ => ?_
  split
  next u found =>
    rw [BlockMap.getElem?_insert]
    split
    · rintro ⟨⟩
      exact draft.closed c _ (mem_targets_of_skip found)
    · exact before
  · exact before

theorem follow_lt {steps : Nat} (start : b < g.blocks.size) (found : follow? (skips g d) steps b = some t) :
    t < g.blocks.size := by
  fun_induction follow? (skips g d) steps b with
  | case1 => cases found; exact start
  | case2 => cases found
  | case3 _ _ _ skipped ih => exact ih (skips_lt draft skipped) found

theorem resolve_lt (start : b < g.blocks.size) : resolve (skips g d) b < g.blocks.size := by
  unfold resolve
  cases found : follow? (skips g d) (skips g d).size b with
  | none => exact start
  | some t => exact follow_lt draft start found

theorem tail_lt {old : Tail} (bounds : ∀ b ∈ old.targets, b < g.blocks.size) :
    ∀ b ∈ (tail (skips g d) old).targets, b < g.blocks.size := by
  have led : ∀ b ∈ (old.mapTargets (resolve (skips g d))).targets, b < g.blocks.size := by
    intro b member
    rw [Tail.targets_mapTargets, mem_map] at member
    obtain ⟨c, target, rfl⟩ := member
    exact resolve_lt draft (bounds c target)
  intro b member
  unfold tail at member
  split at member
  next c x y onTrue onFalse eq =>
    split at member
    · exact led b (by rw [eq]; simp_all [Tail.targets, Tail.successors])
    · exact led b (eq ▸ member)
  · exact led b member

theorem graph_draft : (graph d g).1.Draft s := by
  refine (List.foldlRecOn (motive := fun r : Graph × Nat =>
    r.1.Draft s ∧ r.1.blocks.size = g.blocks.size) g.layout _ ⟨draft, rfl⟩ ?_).1
  rintro ⟨h, n⟩ ⟨kept, size⟩ b -
  dsimp only at kept size ⊢
  split
  · exact ⟨kept, size⟩
  · refine ⟨kept.setTail fun t target => ?_, modifyBlock_size.trans size⟩
    rw [size]
    exact tail_lt draft (fun c old => lt_of_lt_of_eq (kept.closed b c old) size) t target

end JumpSkipping

/-! ## Loops -/

namespace Graph

theorem mem_layout_enterThrough (member : b ∈ g.layout) (pre : BlockId) : b ∈ (g.enterThrough l pre).layout := by
  have kept : ((l.outsidePreds g).foldl
      (fun g p => g.setTail p ((g.tail p).retarget l.header pre)) g).layout = g.layout :=
    List.foldlRecOn (motive := fun h : Graph => h.layout = g.layout) _ _ rfl fun _ same _ _ => same
  unfold enterThrough
  simp only [kept]
  exact (mem_insertIdx (place_le g.layout l.header)).2 (.inr member)

theorem size_enterThrough (pre : BlockId) : (g.enterThrough l pre).blocks.size = g.blocks.size :=
  List.foldlRecOn (motive := fun h : Graph => h.blocks.size = g.blocks.size) _ _ rfl
    fun _ same _ _ => modifyBlock_size.trans same

/-- What a loop needs of the graph once it has a block in front of it. -/
structure Fronted (g h : Graph) (s : Supply) (pre : BlockId) : Prop where
  draft : h.Draft s
  layout : ∀ b ∈ g.layout, b ∈ h.layout
  pre : pre < h.blocks.size

theorem Whole.fronted (whole : g.Whole s) (loop : g.HasLoop l) : let (pre, h, s) := g.fronted l s
    g.Fronted h s pre := by
  have header := loop.header_mem_layout whole.linked
  unfold Graph.fronted
  cases found : l.preheader? g with
  | some p =>
    have pred : p ∈ g.preds l.header := by
      unfold Loop.preheader? at found
      split at found
      next q only =>
        split at found
        · cases found
          have listed : p ∈ l.outsidePreds g := only ▸ mem_cons_self
          exact (mem_filter.1 listed).1
        · cases found
      · cases found
    exact ⟨whole.toDraft, fun _ member => member, whole.layout_lt p ((whole.linked.mem_preds _ header p).1 pred).1⟩
  | none =>
    refine ⟨whole.toDraft.insertPreheader header, fun b member => ?_, ?_⟩
    · exact mem_layout_enterThrough (g := (g.addBlock _).2) member _
    · exact lt_of_lt_of_eq (Nat.lt_succ_self _) ((size_enterThrough _).trans (Array.size_push _)).symm

theorem Whole.straighten (whole : g.Whole s) (loop : g.HasLoop l) {c : Unrolling.Counted}
    (exit : c.exit < g.blocks.size) : (Unrolling.straighten g l c s).1.Whole (Unrolling.straighten g l c s).2 := by
  have header := loop.header_mem_layout whole.linked
  have added := whole.toDraft.addBlock
    (x := { label := blockStem ++ toString s.next
            body := Unrolling.straightened g l c
            tail := .jump c.exit }) rfl (fun t target => by
      obtain rfl := mem_singleton.1 target
      exact exit)
  refine Draft.relink (added.enterThrough header ?_ whole.size_not_mem)
  exact Nat.lt_of_lt_of_eq (Nat.lt_succ_self _) (Array.size_push _).symm

end Graph

theorem Unrolling.ExitTest.exit_mem {t : ExitTest} (test : of? g l = some t) : t.exit ∈ g.targets l.header := by
  unfold of? at test
  rw [Graph.targets]
  split at test
  next c x y onTrue onFalse eq =>
    dsimp only at test
    have exit : t.exit = if l.contains onTrue then onFalse else onTrue := by
      split at test
      · cases test
      · split at test <;> cases test <;> rfl
    rw [exit, eq]
    split <;> simp [Tail.targets, Tail.successors]
  · cases test

namespace Unswitching

variable {memory : VarSet}

/-- A switch stays in its loop. -/
structure Switch.Inside (g : Graph) (l : Loop) (w : Switch) : Prop where
  block_mem : w.block ∈ g.layout
  block : l.contains w.block
  onTrue_mem : w.onTrue ∈ g.targets w.block
  onFalse_mem : w.onFalse ∈ g.targets w.block
  onFalse : l.contains w.onFalse

theorem switch_inside (found : switch? g l memory = some w) : w.Inside g l := by
  obtain ⟨b, listed, here⟩ := exists_of_findSome?_eq_some found
  obtain ⟨member, inside⟩ := mem_filter.1 listed
  split at here
  next c x y onTrue onFalse eq =>
    split at here
    next stays =>
      cases here
      simp only [Bool.and_eq_true] at stays
      refine ⟨member, inside, ?_, ?_, stays.1.1.2⟩ <;>
        simp [Graph.targets, eq, Tail.targets, Tail.successors]
    · cases here
  · cases here

/-- A loop with a switch is split without a fault. -/
theorem split_whole (whole : g.Whole s) (loop : g.HasLoop l) (found : switch? g l memory = some w) :
    let (pre, g, s) := g.fronted l s
    let (copies, g, s) := g.cloneBlocks (l.blocksInLayout g) s
    ∃ h, split g l w pre copies = .ok h ∧ h.Whole s := by
  have inside := switch_inside found
  have header := loop.header_mem_layout whole.linked
  have onTrue := whole.linked.target_mem inside.block_mem inside.onTrue_mem
  have onFalse := whole.linked.target_mem inside.block_mem inside.onFalse_mem
  have front := whole.fronted loop
  generalize g.fronted l s = fronted at front ⊢
  obtain ⟨pre, g₁, s₁⟩ := fronted
  dsimp only at front ⊢
  obtain ⟨draft, size, copy⟩ := front.draft.cloneBlocks (front.draft.layout_nodup.filter l.contains)
  have copied {b : BlockId} (member : b ∈ g.layout) (contained : l.contains b) :=
    copy b (mem_filter.2 ⟨front.layout b member, contained⟩)
  have old {b : BlockId} (member : b ∈ g.layout) :=
    lt_of_lt_of_le (front.draft.layout_lt b (front.layout b member)) size
  change let (copies, h, s) := g₁.cloneBlocks (g₁.layout.filter l.contains) s₁
    ∃ h', split h l w pre copies = .ok h' ∧ h'.Whole s
  generalize g₁.cloneBlocks (g₁.layout.filter l.contains) s₁ = made at draft size copied old ⊢
  obtain ⟨copies, h, s₂⟩ := made
  dsimp only at draft size copied old ⊢
  obtain ⟨block, blockCopy, -⟩ := copied inside.block_mem inside.block
  obtain ⟨away, awayCopy, awayBound⟩ := copied onFalse inside.onFalse
  obtain ⟨second, headerCopy, secondBound⟩ := copied header (decide_eq_true loop.header_mem)
  have first : (h.setTail w.block (.jump w.onTrue)).Draft s₂ := draft.setTail fun t target => by
    obtain rfl := mem_singleton.1 target
    exact old onTrue
  have both : ((h.setTail w.block (.jump w.onTrue)).setTail block (.jump away)).Draft s₂ :=
    first.setTail fun t target => by
      obtain rfl := mem_singleton.1 target
      exact lt_of_lt_of_eq awayBound modifyBlock_size.symm
  have all := both.setTail (b := pre) (t := .branch w.comparison w.lhs w.rhs l.header second)
    fun t target => by
      rw [Graph.setTail, modifyBlock_size, Graph.setTail, modifyBlock_size]
      have either : t = l.header ∨ t = second := by simpa [Tail.targets, Tail.successors] using target
      rcases either with rfl | rfl
      · exact old header
      · exact secondBound
  refine ⟨_, ?_, all.relink⟩
  simp only [split, blockCopy, awayCopy, headerCopy, orFault]
  rfl

end Unswitching

/-! ## Passes -/

/-- Every pass keeps graphs in normal form, also when it fails. -/
theorem kept_whole : Kept Graph.Whole Graph.Whole where
  fails := id
  reshaped whole shape := shape.whole whole
  folded whole done _ := (ConstantFolding.graph_draft whole.toDraft done).relink
  skipped whole _ := (JumpSkipping.graph_draft whole.toDraft).relink
  merged {g s b c} whole _ := by
    have emptied := whole.toDraft.setBody (b := c) []
    exact (emptied.modifyBlock (b := b)
      (f := fun x => { x with body := x.body ++ g.body c, tail := g.tail c }) rfl fun t target =>
        lt_of_lt_of_eq (whole.closed c t target) modifyBlock_size.symm).relink
  fronted whole loop := (whole.toDraft.insertPreheader (loop.header_mem_layout whole.linked)).relink
  straightened {g s l c} whole loop test := by
    obtain ⟨t, found, exit⟩ := test
    exact whole.straighten loop (exit ▸ whole.closed _ _ (Unrolling.ExitTest.exit_mem found))
  unswitched whole loop found := by
    have split := Unswitching.split_whole whole loop found
    dsimp only at split ⊢
    obtain ⟨h, done, kept⟩ := split
    rw [done]
    exact kept

namespace Graph

variable {n : Label} {k : Nat}

/-- The graph keeps its name, and the names drawn before some point stay drawn. -/
structure Named (n : Label) (k : Nat) (g : Graph) (s : Supply) : Prop where
  name : g.name = n
  drawn : k ≤ s.next

variable (named : g.Named n k s)
include named

theorem Named.enterThrough (l : Loop) (b : BlockId) : (g.enterThrough l b).Named n k s :=
  ⟨List.foldlRecOn (motive := fun h : Graph => h.name = n) _ _ named.name fun _ same _ _ => same, named.drawn⟩

theorem Named.addBlock (x : Block) : (g.addBlock x).2.Named n k ⟨s.next + 1⟩ :=
  ⟨named.name, Nat.le_succ_of_le named.drawn⟩

theorem Named.relink : g.relink.Named n k s := ⟨named.name, named.drawn⟩

theorem Named.insertPreheader (l : Loop) : (g.insertPreheader l s).2.1.Named n k (g.insertPreheader l s).2.2 :=
  (named.addBlock _).enterThrough l _

theorem Named.fronted (l : Loop) : (g.fronted l s).2.1.Named n k (g.fronted l s).2.2 := by
  unfold Graph.fronted
  cases l.preheader? g with
  | some p => exact named
  | none => exact named.insertPreheader l

theorem Named.copyBodies (blocks : List BlockId) (copies : BlockMap BlockId) :
    (copyBodies blocks g s copies).2.1.Named n k (copyBodies blocks g s copies).2.2 := by
  induction blocks generalizing g s copies with
  | nil => exact named
  | cons b rest ih => exact ih (named.addBlock _) _

theorem Named.cloneBlocks (blocks : List BlockId) :
    (g.cloneBlocks blocks s).2.1.Named n k (g.cloneBlocks blocks s).2.2 := by
  have copied := named.copyBodies blocks ∅
  refine ⟨?_, copied.drawn⟩
  refine List.foldlRecOn (motive := fun h : Graph => h.name = n) _ _ copied.name fun h same b _ => ?_
  split <;> exact same

end Graph

theorem Unswitching.split_name {pre : BlockId} {copies : BlockMap BlockId} (done : split g l w pre copies = .ok h) :
    h.name = g.name := by
  simp only [split, bind_eq_ok, pure_eq_ok] at done
  obtain ⟨_, -, _, -, _, -, rfl⟩ := done
  rfl

/-- Every pass keeps the name of its graph. -/
theorem kept_named (n : Label) (k : Nat) : Kept (Graph.Named n k) (Graph.Named n k) where
  fails := id
  reshaped named shape := ⟨shape.name.trans named.name, named.drawn⟩
  folded {g h s facts m} named done _ := by
    refine ⟨foldlM_ok (fun _ (r : Graph × ConstantFolding.Counts) => r.1.name = n) named.name ?_ done, named.drawn⟩
    rintro _ b _ ⟨h, n⟩ r - same step
    simp only [bind_eq_ok, pure_eq_ok] at step
    obtain ⟨points, -, rfl⟩ := step
    exact same
  skipped {g s d} named _ := by
    refine ⟨List.foldlRecOn (motive := fun r : Graph × Nat => r.1.name = n) g.layout _ named.name ?_, named.drawn⟩
    rintro ⟨h, m⟩ same b -
    dsimp only
    split <;> exact same
  merged named _ := ⟨named.name, named.drawn⟩
  fronted named _ := (named.insertPreheader _).relink
  straightened named _ _ := ((named.addBlock _).enterThrough _ _).relink
  unswitched {g s l w memory} named _ _ := by
    have cloned := (named.fronted l).cloneBlocks (l.blocksInLayout (g.fronted l s).2.1)
    dsimp only
    split
    next h done => exact ⟨(Unswitching.split_name done).trans cloned.name, cloned.drawn⟩
    · exact cloned

end Quadcode
