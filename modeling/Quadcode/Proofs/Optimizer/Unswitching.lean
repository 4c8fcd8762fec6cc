import Quadcode.Proofs.Eval.Tracing
import Quadcode.Proofs.Graph.Clones
import Quadcode.Proofs.Optimizer.Gateways
import Quadcode.Proofs.Optimizer.LoopPasses

/-!
# Unswitching keeps what a program does

The edited function tests the condition of the switch in front of the loop and runs one of two copies of it.
The loop changes nothing that the condition reads, so the switch goes the way that was chosen in front,
however often control comes to it.
-/

namespace Quadcode.Unswitching

open List Machine Quadcode.Graph PassM Point

variable {g g' f : Graph} {l : Loop} {memory : VarSet} {w : Switch} {m n : Machine} {strings : StringPool}
  {pre : BlockId} {taken : Bool}

/-! ## Switches -/

/-- What the condition of a switch comes to. -/
def Switch.test (w : Switch) (g : Graph) (m : Machine) : Except Stop Bool := do
  let x ← m.arg g w.lhs
  let y ← m.arg g w.rhs
  w.comparison.apply g x y

/-- The arguments of the condition. -/
def Switch.args (w : Switch) : List Arg := [w.lhs, w.rhs]

theorem next_switch (w : Switch) (g : Graph) (m : Machine) (onTrue onFalse : BlockId) :
    m.next g (.branch w.comparison w.lhs w.rhs onTrue onFalse) =
      (w.test g m).map fun taken => .inl (if taken then onTrue else onFalse) := by
  simp only [Machine.next, Switch.test]
  cases m.arg g w.lhs with
  | error => rfl
  | ok x =>
    cases m.arg g w.rhs with
    | error => rfl
    | ok y =>
      simp only [bind, Except.bind]
      cases w.comparison.apply g x y <;> rfl

/-- A switch of a loop that does not change what its condition reads. -/
structure Switch.Fixed (g : Graph) (l : Loop) (memory : VarSet) (w : Switch) : Prop where
  laid : w.block ∈ g.layout
  inside : w.block ∈ l.blocks
  tail : g.tail w.block = .branch w.comparison w.lhs w.rhs w.onTrue w.onFalse
  onTrue : w.onTrue ∈ l.blocks
  onFalse : w.onFalse ∈ l.blocks
  args : ∀ a ∈ w.args, ∀ v ∈ a.var?, v ∉ memory ∧ ∀ b ∈ l.blocks, ∀ q ∈ g.body b, q.result ≠ some v

theorem switch_fixed (linked : g.Linked) (loop : g.HasLoop l) (found : switch? g l memory = some w) :
    w.Fixed g l memory := by
  obtain ⟨b, listed, here⟩ := exists_of_findSome?_eq_some found
  obtain ⟨laid, inside⟩ := mem_filter.1 listed
  split at here
  next c x y onTrue onFalse tail =>
    split at here
    next stays =>
      cases here
      simp only [Bool.and_eq_true] at stays
      obtain ⟨⟨⟨onTrue, onFalse⟩, fixed_x⟩, fixed_y⟩ := stays
      have fixed {a : Arg} (invariant : isInvariant (g.assignments (l.blocksInLayout g)) memory a) :
          ∀ v ∈ a.var?, v ∉ memory ∧ ∀ b ∈ l.blocks, ∀ q ∈ g.body b, q.result ≠ some v := by
        intro v named
        cases a with
        | var u =>
          cases named
          simp only [isInvariant, Bool.and_eq_true, decide_eq_true_eq] at invariant
          refine ⟨invariant.2, fun b member q listed => ?_⟩
          refine result_ne_of_unassigned (Option.isNone_iff_eq_none.1 invariant.1) ?_ listed
          exact mem_filter.2 ⟨loop.mem_layout linked member, by simpa [Loop.contains] using member⟩
        | const | str => cases named
      refine ⟨laid, by simpa [Loop.contains] using inside, tail, by simpa [Loop.contains] using onTrue,
        by simpa [Loop.contains] using onFalse, fun a member => ?_⟩
      rcases mem_cons.1 member with rfl | member
      · exact fixed fixed_x
      · rw [mem_singleton.1 member]
        exact fixed fixed_y
    · cases here
  · cases here

/-! ## The way that is chosen -/

/-- The condition of a switch is decided by private variables. -/
structure Decided (t : Terms) (g : Graph) (w : Switch) (taken : Bool) (m : Machine) : Prop where
  hides : ∀ a ∈ w.args, ∀ v ∈ a.var?, g.Private t.watch.shared v
  test : w.test g m = .ok taken

theorem Decided.kept {t : Terms} (decided : Decided t g w taken m)
    (top : ∀ a ∈ w.args, ∀ v ∈ a.var?, n.top v = m.top v) : Decided t g w taken n := by
  have arg (a : Arg) (listed : a ∈ w.args) : n.arg g a = m.arg g a :=
    arg_congr_top (decided.hides a listed) (top a listed)
  refine ⟨decided.hides, ?_⟩
  rw [← decided.test, Switch.test, Switch.test, arg w.lhs (by simp [Switch.args]), arg w.rhs (by simp [Switch.args])]

/-- What an edit makes of a loop: two copies with one way out of the switch each. -/
structure Unswitched (g g' : Graph) (l : Loop) (w : Switch) (lead : Bool → BlockId → BlockId) (pre : BlockId)
    (gate : Nat) : Prop where
  gateway : g.Gateway g' l pre gate
  front_body : (g'.body pre).length = gate
  front_tail : g'.tail pre = .branch w.comparison w.lhs w.rhs (lead true l.header) (lead false l.header)
  away : ∀ taken b, b ∉ l.blocks → lead taken b = b
  body : ∀ taken, ∀ b ∈ l.blocks, g'.body (lead taken b) = g.body b
  tail : ∀ taken, ∀ b ∈ l.blocks, g'.tail (lead taken b) =
    if b = w.block then .jump (lead taken (if taken then w.onTrue else w.onFalse))
    else (g.tail b).mapTargets (lead taken)

/-- Inside the loop the second run is in the copy that was chosen. -/
def inside (t : Terms) (g : Graph) (w : Switch) (lead : Bool → BlockId → BlockId) (s s' : Spot) (m _ : Machine) :
    Prop :=
  ∃ taken, Decided t g w taken m ∧ s' = ⟨lead taken s.block, s.index⟩

/-- How a function without a switch follows the old one. -/
def track (t : Terms) (g : Graph) (l : Loop) (w : Switch) (lead : Bool → BlockId → BlockId) : Track :=
  .around g l (fun _ _ => False) (inside t g w lead)

section Loop

variable {below : Hidden} {p' : Point} {gate : Nat} {lead : Bool → BlockId → BlockId}

variable (way : Underway strings False f g)
include way

/-- The condition fails in front of the loop only at a value that is missing or of another type, or at a
variable that is in no table. -/
theorem test_failsOnly (fixed : w.Fixed g l f.memoryResident) (shaped : m.Shaped g) :
    FailsOnly (Terms.onLoops strings False f).soft (w.test g m) := by
  have arg (a : Arg) (listed : a ∈ w.args) : FailsOnly (Terms.onLoops strings False f).soft (m.arg g a) := by
    refine way.arg_failsOnly shaped (fun v named => (fixed.args a listed v named).1) fun v named =>
      way.not_declared_tail fixed.laid ?_
    rw [fixed.tail]
    exact mem_filterMap.2 ⟨a, listed, named⟩
  exact (arg w.lhs (by simp [Switch.args])).bind fun x _ =>
    (arg w.rhs (by simp [Switch.args])).bind fun y _ => .comparison (fun e => .inl) _ g x y

theorem decided_of_test (fixed : w.Fixed g l f.memoryResident) (test : w.test g m = .ok taken) :
    Decided (.onLoops strings False f) g w taken m := by
  refine ⟨fun a listed v named => way.hides (fixed.args a listed v named).1 ?_, test⟩
  simp only [Switch.test, bind_eq_ok] at test
  obtain ⟨x, at_x, y, at_y, -⟩ := test
  rcases mem_cons.1 listed with rfl | listed
  · exact declared_of_arg at_x named
  · rw [mem_singleton.1 listed] at named
    exact declared_of_arg at_y named

theorem opens (loop : g.HasLoop l) (fixed : w.Fixed g l f.memoryResident)
    (unswitched : Unswitched g g' l w lead pre gate) :
    Graph.Gateway.Opens (.onLoops strings False f) g g' l pre gate (fun _ _ => False)
      (inside (.onLoops strings False f) g w lead) fun _ => True := by
  intro below m p' graph spot agrees shaped some_frame _ _
  have ended : p'.quad? = none := by
    rw [quad?_at graph spot, getElem?_eq_none_iff, unswitched.front_body]
  have shaped' : p'.machine.Shaped g := shaped.of_room agrees.size agrees.room
  have same : w.test g p'.machine = w.test g m := by
    have arg (a : Arg) : p'.machine.arg g a = m.arg g a := agrees.arg fun v _ => by
      unfold Machine.Sees Hidden.above
      rw [if_pos (Nat.sub_add_cancel some_frame)]
      exact id
    rw [Switch.test, Switch.test, arg, arg]
  have next : p'.machine.tick.next p'.graph p'.tail =
      (w.test g m).map fun taken => .inl (if taken then lead true l.header else lead false l.header) := by
    rw [tail_at graph spot, graph, unswitched.front_tail, unswitched.gateway.alike.akin.next, next_switch]
    exact congrArg (Except.map _) same
  cases test : w.test g m with
  | error e =>
    rw [test] at next
    exact ⟨p', .here, .inl ⟨e, test_failsOnly way fixed shaped e test, .tail ended next⟩⟩
  | ok taken =>
    rw [test] at next
    refine ⟨_, .jump ended next .here, .inr ⟨agrees.tick_right, shaped, some_frame, .inl trivial,
      loop.header_mem_layout way.linked, Nat.zero_le _, fun _ => ⟨taken, decided_of_test way fixed test, ?_⟩,
      fun outside => absurd (loop.natural way.linked).header_mem outside⟩⟩
    cases taken <;> rfl

/-- A function without the switch keeps track of the old one. -/
theorem Unswitched.sound (stores : ∀ q ∈ g.bodies, g.StoresToMemory q) (loop : g.HasLoop l)
    (fixed : w.Fixed g l f.memoryResident) (unswitched : Unswitched g g' l w lead pre gate)
    (bodies : ∀ q ∈ g'.bodies, q ∈ g.bodies) :
    (track (.onLoops strings False f) g l w lead).Sound (.onLoops strings False f) g g' := by
  have unused := Track.Unused.none (.onLoops strings False f) g
  refine unswitched.gateway.sound way.linked loop unused (fun v unshared => ?_) (fun _ _ => False.elim)
    (opens way loop fixed unswitched) (fun _ _ _ _ _ _ _ => trivial) (fun _ _ => trivial)
    (fun below s m p' q graph meets member here => .inl ?_) fun below s m p' graph meets member ended => ?_
  · have untaken := way.not_mem_addressTaken unshared
    exact iff_of_false (mt (addressTaken_mono bodies) untaken) untaken
  · obtain ⟨taken, decided, spot⟩ := meets.follows.2.2.1 member
    refine Track.copies_of_next unused meets here ?_ fun _ x m' n' _ passed => ⟨taken, ?_, ?_⟩
    · rw [quad?_at graph spot, unswitched.body taken s.block member, here]
    · have listed : q ∈ g.bodies := mem_flatMap.2 ⟨_, meets.follows.1, mem_of_getElem? here⟩
      refine decided.kept fun a listed' v named => ?_
      rw [(passed (stores q listed)).1.top v (decided.hides a listed' v named), if_neg]
      exact (fixed.args a listed' v named).2 _ member q (mem_of_getElem? here)
    · rw [spot]
      rfl
  · obtain ⟨taken, decided, spot⟩ := meets.follows.2.2.1 member
    have ended' : p'.quad? = none := by
      rw [quad?_at graph spot, unswitched.body taken s.block member, ended]
    have tail := unswitched.tail taken s.block member
    have later : Decided (.onLoops strings False f) g w taken m.tick := decided.kept fun _ _ _ _ => rfl
    by_cases switch : s.block = w.block
    · -- The old function tests the condition once more, and the new one just jumps.
      rw [if_pos switch] at tail
      have goes : m.tick.next g (g.tail s.block) = .ok (.inl (if taken then w.onTrue else w.onFalse)) := by
        rw [switch, fixed.tail, next_switch, later.test]
        rfl
      have stays : (if taken then w.onTrue else w.onFalse) ∈ l.blocks := by
        split
        · exact fixed.onTrue
        · exact fixed.onFalse
      rw [goes]
      refine .of_glides (.jump ended' ?_ .here) (Track.arrives_inside unused meets ended way.linked
        (next_target goes) stays ⟨taken, later, rfl⟩)
      rw [tail_at graph spot, tail]
      rfl
    · rw [if_neg switch] at tail
      refine Track.leaves_inside unused meets ended way.linked unswitched.gateway.alike graph ended' ?_
        (unswitched.away taken) fun c _ => ⟨taken, later, rfl⟩
      rw [tail_at graph spot, tail]

end Loop

/-! ## The pass -/

section Pass

variable {h k : Graph} {copies : BlockMap BlockId}

/-- Where a block of the loop is after the edit: the block itself if the condition holds, and its copy if it
does not. -/
def leading (copies : BlockMap BlockId) (taken : Bool) (b : BlockId) : BlockId :=
  if taken then b else copies[b]?.getD b

/-- A graph with a switch at the end of `pre` to a loop and its copy. -/
structure Splits (k e : Graph) (l : Loop) (w : Switch) (pre block onFalse header : BlockId) : Prop where
  same : k.SameBodies e
  tail : ∀ b, e.tail b = if pre = b then .branch w.comparison w.lhs w.rhs l.header header
    else if block = b then .jump onFalse
    else if w.block = b then .jump w.onTrue
    else k.tail b

theorem splits_of_split (done : split k l w pre copies = .ok g') (closed : k.Closed)
    (copied : ∀ b c : BlockId, copies[b]? = some c → c ∈ k.layout) (laid : pre ∈ k.layout)
    (old : ∀ b ∈ l.blocks, b ∈ k.layout) (fixed : w.Fixed g l memory) (header_mem : l.header ∈ l.blocks) :
    ∃ e block onFalse header, Splits k e l w pre block onFalse header ∧ copies[w.block]? = some block ∧
      copies[w.onFalse]? = some onFalse ∧ copies[l.header]? = some header ∧ e.Closed ∧ g' = e.relink := by
  simp only [split, bind_eq_ok, orFault_eq_ok, pure_eq_ok] at done
  obtain ⟨block, at_block, onFalse, at_onFalse, header, at_header, rfl⟩ := done
  have inside_switch := closed.lt_size _ (old _ fixed.inside)
  have inside_block := closed.lt_size _ (copied _ _ at_block)
  have inside_pre := closed.lt_size _ laid
  refine ⟨_, block, onFalse, header, ⟨?_, fun b => ?_⟩, at_block, at_onFalse, at_header, ?_, rfl⟩
  · exact (((Graph.SameBodies.refl k).setTail _ _).setTail _ _).setTail _ _
  · rw [setTail_tail (by simpa using inside_pre), setTail_tail (by simpa using inside_block),
      setTail_tail inside_switch]
  · refine ((closed.setTail inside_switch ?_).setTail (by simpa using inside_block) ?_).setTail
      (by simpa using inside_pre) ?_
    · simpa [Tail.targets, Tail.successors] using old _ fixed.onTrue
    · show ∀ c ∈ _, c ∈ k.layout
      simpa [Tail.targets, Tail.successors] using copied _ _ at_onFalse
    · show ∀ c ∈ _, c ∈ k.layout
      simpa [Tail.targets, Tail.successors] using ⟨old _ header_mem, copied _ _ at_header⟩

theorem Splits.unswitched {e : Graph} {block onFalse header : BlockId} (linked : g.Linked) (loop : g.HasLoop l)
    (fixed : w.Fixed g l memory) (fronts : g.Fronts h l pre) (cloned : h.Cloned k copies (l.blocksInLayout h))
    (splits : Splits k e l w pre block onFalse header) (at_block : copies[w.block]? = some block)
    (at_onFalse : copies[w.onFalse]? = some onFalse) (at_header : copies[l.header]? = some header) :
    Unswitched g e.relink l w (leading copies) pre (h.body pre).length := by
  have tail (b : BlockId) := (relink_tail e b).trans (splits.tail b)
  have body (b : BlockId) : e.relink.body b = k.body b := (relink_body e b).trans (splits.same.body b)
  have old (b : BlockId) (laid : b ∈ g.layout) : b ∈ h.layout := (fronts.mem_layout b).2 (.inr laid)
  have old_pre : pre ∈ h.layout := (fronts.mem_layout pre).2 (.inl rfl)
  have bound := fronts.closed.lt_size
  have keys (b : BlockId) : b ∈ l.blocks ↔ ∃ c, copies[b]? = some c := by
    rw [← cloned.keys, Loop.blocksInLayout, mem_filter]
    simpa [Loop.contains] using fun member => old b (loop.mem_layout linked member)
  have new {b c : BlockId} (found : copies[b]? = some c) {d : BlockId} (laid : d ∈ h.layout) : c ≠ d := by
    rintro rfl
    exact Nat.not_le_of_lt (bound c laid) (cloned.bounds b c found).1
  have tail_old (b : BlockId) (laid : b ∈ h.layout) (front : b ≠ pre) (switch : b ≠ w.block) :
      e.relink.tail b = h.tail b := by
    rw [tail, if_neg front.symm, if_neg (new at_block laid), if_neg switch.symm, cloned.tail b (bound b laid)]
  have body_old (b : BlockId) (laid : b ∈ h.layout) : e.relink.body b = h.body b := by
    rw [body, cloned.body b (bound b laid)]
  refine ⟨fronts.gateway e.relink ?_ (fun b laid _ _ => body_old b (old b laid)) ⟨[], ?_⟩
    (fun b laid away front => tail_old b (old b laid) front fun switch => away (switch ▸ fixed.inside)) ?_, ?_, ?_,
    fun taken b away => ?_, fun taken b member => ?_, fun taken b member => ?_⟩
  · have alike := (fronts.alike.trans cloned.alike).trans splits.same.alike
    exact ⟨alike.vars, alike.params, alike.name⟩
  · rw [body_old pre old_pre, append_nil]
  · exact splits.same.entry.trans cloned.entry
  · rw [body_old pre old_pre]
  · rw [tail, if_pos rfl, leading, leading, at_header]
    rfl
  · have missing : copies[b]? = none := by
      cases found : copies[b]? with
      | none => rfl
      | some c => exact absurd ((keys b).2 ⟨c, found⟩) away
    cases taken with
    | true => rfl
    | false => simp [leading, missing]
  · have laid := old b (loop.mem_layout linked member)
    obtain ⟨c, found⟩ := (keys b).1 member
    cases taken with
    | true => exact (body_old b laid).trans (fronts.loop_body b member)
    | false =>
      have copy : leading copies false b = c := by simp [leading, found]
      rw [copy, body, cloned.copy_body b c found, fronts.loop_body b member]
  · have laid := old b (loop.mem_layout linked member)
    have front : pre ≠ b := fun front => fronts.outside (front ▸ member)
    obtain ⟨c, found⟩ := (keys b).1 member
    cases taken with
    | true =>
      by_cases switch : b = w.block
      · rw [if_pos switch]
        show e.relink.tail b = .jump w.onTrue
        rw [tail, if_neg front, if_neg (new at_block laid), if_pos switch.symm]
      · rw [if_neg switch]
        show e.relink.tail b = (g.tail b).mapTargets id
        rw [tail_old b laid front.symm switch, fronts.loop_tail b member]
        cases g.tail b <;> rfl
    | false =>
      have copy : leading copies false b = c := by simp [leading, found]
      rw [copy, tail, if_neg (new found old_pre).symm]
      by_cases switch : b = w.block
      · have same : block = c := Option.some.inj (at_block.symm.trans (switch ▸ found))
        rw [if_pos same, if_pos switch]
        simp [leading, at_onFalse]
      · have other : block ≠ c := fun same => switch (cloned.inj b w.block c found (same ▸ at_block))
        rw [if_neg other, if_neg (new found (old _ fixed.laid)).symm, if_neg switch, cloned.copy_tail b c found,
          fronts.loop_tail b member]
        rfl

/-- Splitting a loop in front of which there is a block. -/
theorem split_underway (way : Underway strings False f g) (stores : ∀ q ∈ g.bodies, g.StoresToMemory q)
    (loop : g.HasLoop l) (fixed : w.Fixed g l f.memoryResident) (fronts : g.Fronts h l pre)
    (cloned : h.Cloned k copies (l.blocksInLayout h)) (done : split k l w pre copies = .ok g') :
    Underway strings False f g' := by
  have laid : ∀ b ∈ l.blocks, b ∈ h.layout := fun b member =>
    (fronts.mem_layout b).2 (.inr (loop.mem_layout way.linked member))
  have laid_pre : pre ∈ h.layout := (fronts.mem_layout pre).2 (.inl rfl)
  have bound := fronts.closed.lt_size
  have listed : ∀ b ∈ l.blocksInLayout h, b ∈ h.layout := fun b member => (mem_filter.1 member).1
  have header_mem := (loop.natural way.linked).header_mem
  obtain ⟨e, block, onFalse, header, splits, at_block, at_onFalse, at_header, closed, rfl⟩ :=
    splits_of_split done (cloned.closed fronts.closed (fronts.closed.nodup.filter _) listed)
      (fun b c found => cloned.mem_layout.2 (.inl ⟨b, found⟩)) (cloned.mem_layout.2 (.inr laid_pre))
      (fun b member => cloned.mem_layout.2 (.inr (laid b member))) fixed header_mem
  obtain ⟨linked, fewer⟩ := closed.relink_linked
  have unswitched := splits.unswitched way.linked loop fixed fronts cloned at_block at_onFalse at_header
  have bodies : ∀ q ∈ e.relink.bodies, q ∈ g.bodies := by
    intro q member
    obtain ⟨b, live, here⟩ := mem_flatMap.1 member
    obtain ⟨a, old, body, -⟩ := cloned.origin_of_mem_layout bound listed (splits.same.layout ▸ fewer b live)
    rw [relink_body, splits.same.body, body] at here
    exact fronts.bodies q (mem_flatMap.2 ⟨a, old, here⟩)
  refine way.edit linked bodies (fun b live v named => ?_) (unswitched.sound way stores loop fixed bodies)
  rw [relink_tail, splits.tail] at named
  split at named
  · refine ⟨w.block, fixed.laid, ?_⟩
    rw [fixed.tail]
    exact named
  · split at named
    · cases named
    · split at named
      · cases named
      · obtain ⟨a, old, -, leads, tail⟩ := cloned.origin_of_mem_layout bound listed (splits.same.layout ▸ fewer b live)
        rw [tail, Tail.uses_mapTargets] at named
        exact fronts.tails a old v named

variable {work work' : Work} {old : Context} (stores : ∀ q ∈ f.bodies, f.StoresToMemory q)
include stores

theorem unswitch_onLoops (on : work.OnLoops strings False f old) (loop : work.graph.HasLoop l)
    (found : switch? work.graph l f.memoryResident = some w) :
    work.Goes strings False f old (unswitch l w) := by
  simp only [unswitch, ensures_bind, Kept.ensures_preheader, ensures_edit, ensures_graph,
    ensures_ofExcept, ensures_setGraph, ensures_invalidate]
  refine ⟨fun g' done => ⟨?_, .everything, on.coherent.fresh⟩, fun _ _ => ⟨trivial, on.coherent.fresh⟩⟩
  have fronts := fronts_fronted on.kept.linked loop work.supply
  refine split_underway on.kept (on.kept.stores stores) loop (switch_fixed on.kept.linked loop found) fronts
    (cloned_cloneBlocks (fronts.closed.nodup.filter _) (fun b listed => ?_) _) done
  exact fronts.closed.lt_size b (mem_filter.1 listed).1

omit stores in
theorem pass_underway {changed : Bool} (linked : work.graph.Linked)
    (stores : ∀ q ∈ work.graph.bodies, work.graph.StoresToMemory q) (fresh : work.context.analyses = {})
    (done : Gives pass work changed work') : Underway strings False work.graph work'.graph := by
  have ensures : Ensures pass work (fun _ work' => Underway strings False work.graph work'.graph)
      (Work.Left (fun _ _ => True) work.context) := by
    have on : work.OnLoops strings False work.graph work.context := .start linked fresh
    rw [pass, ensures_bind, ensures_graph]
    exact (Kept.unswitchSearch (fun _ => trivial) (unswitch_onLoops stores) _ _ on).bind fun n w' on => on.kept
  exact ensures.of_gives done

end Pass

/-- Unswitching the loops of one function of a module changes no successful run on which pointers lead only
to globals and to variables whose address the owner of the frame takes. The run may only stop early where a
value is missing or of another type, after too many steps, or at a variable that is in no table. -/
theorem unswitching_keeps_outcome {program : Module} {before after : List Graph} {work work' : Work} {changed : Bool}
    (listed : program.graphs = before ++ work.graph :: after) (linked : work.graph.Linked)
    (stores : ∀ q ∈ work.graph.bodies, work.graph.StoresToMemory q) (fresh : work.context.analyses = {})
    (unswitched : Gives pass work changed work') {entry : Label} {args : List Value} {input : List Int32}
    {outcome : Outcome} (ran : program.run entry args input = .ok outcome)
    (confined : ∀ p, program.Comes entry args input p → p.Confined) :
    Module.run { program with graphs := before ++ work'.graph :: after } entry args input = .ok outcome ∨
      ∃ e, Module.run { program with graphs := before ++ work'.graph :: after } entry args input = .error e ∧
        (e.Mild ∨ e = .fault ∧ ¬work.graph.Declared) :=
  (pass_underway linked stores fresh unswitched).run listed ran confined False.elim

/-- The function without switches in its loops. -/
def parted (f : Function) : Graph := (outcome pass ⟨f.graph, {}, {}⟩).2.graph

/-- Stores the square of `i`, or with `k = 0` its negation, to `x` through `p` and adds up. The variables
`k`, `s`, `i`, `t`, `x`, `p` and `a` are 0 to 6. -/
def branching : Function where
  name := "main"
  vars := #[.declare "k" .int .local, .declare "s" .int .local, .declare "i" .int .local,
    .declare "t" .int .local, .declare "x" .int .local, .declare "p" (.pointer .int) .local,
    .declare "a" (.array .int 4) .local]
  quads := [
    ⟨some 0, .read⟩,
    ⟨some 1, .assign (.const (.int 0))⟩,
    ⟨some 2, .assign (.const (.int 0))⟩,
    ⟨some 5, .address 4⟩,
    .effect (.label "head"),
    .effect (.jumpIf .ge (.var 2) (.const (.int 3)) "exit"),
    .effect (.jumpIf .eq (.var 0) (.const (.int 0)) "other"),
    ⟨some 3, .binOp .mul (.var 2) (.var 2)⟩,
    .effect (.derefStore 5 (.var 3)),
    .effect (.goto "next"),
    .effect (.label "other"),
    ⟨some 3, .unOp .neg (.var 2)⟩,
    .effect (.derefStore 5 (.var 3)),
    .effect (.label "next"),
    .effect (.store 6 (.var 2) (.var 4)),
    ⟨some 1, .binOp .add (.var 1) (.var 4)⟩,
    ⟨some 2, .binOp .add (.var 2) (.const (.int 1))⟩,
    .effect (.goto "head"),
    .effect (.label "exit"),
    .effect (.print (.var 1)),
    .effect (.ret (some (.var 1)))]

theorem branching_keeps_outcome :
    (branching.module []).run "main" [] [0] = .ok ⟨some (.int (-3)), "-3"⟩ ∧ parted branching ≠ branching.graph ∧
      (Module.run { branching.module [] with graphs := [parted branching] } "main" [] [0] =
          .ok ⟨some (.int (-3)), "-3"⟩ ∨
        ∃ e, Module.run { branching.module [] with graphs := [parted branching] } "main" [] [0] = .error e ∧
          (e.Mild ∨ e = .fault ∧ ¬branching.graph.Declared)) := by
  have ran : (branching.module []).run "main" [] [0] = .ok ⟨some (.int (-3)), "-3"⟩ := by decide +kernel
  have watched : ∀ p ∈ (branching.module []).trace "main" [] [0], p.Confined := by decide +kernel
  have unswitched : Gives pass ⟨branching.graph, {}, {}⟩ true (outcome pass ⟨branching.graph, {}, {}⟩).2 :=
    Prod.ext (by decide +kernel) rfl
  have listed : (branching.module []).graphs = [] ++ branching.graph :: [] := rfl
  refine ⟨ran, by decide +kernel, ?_⟩
  exact unswitching_keeps_outcome listed (branching.graph_linked rfl) (by decide +kernel) rfl unswitched ran
    fun p comes => watched p comes.mem_trace

/-- Counts to 3 around a branch that is never reached and compares a variable that is in no table. The
variables `i` and `t` are 0 and 1. -/
def wandering : Function where
  name := "main"
  vars := #[.declare "i" .int .local, .declare "t" .int .local]
  quads := [
    ⟨some 0, .assign (.const (.int 0))⟩,
    .effect (.label "head"),
    .effect (.jumpIf .ge (.var 0) (.const (.int 3)) "exit"),
    .effect (.jumpIf .lt (.var 0) (.const (.int 7)) "next"),
    .effect (.jumpIf .eq (.var 9) (.const (.int 0)) "next"),
    ⟨some 1, .assign (.const (.int 1))⟩,
    .effect (.label "next"),
    ⟨some 0, .binOp .add (.var 0) (.const (.int 1))⟩,
    .effect (.goto "head"),
    .effect (.label "exit"),
    .effect (.ret (some (.var 0)))]

/-- The condition of such a branch is tested in front of the loop. -/
theorem wandering_faults : (∀ q ∈ wandering.graph.bodies, wandering.graph.StoresToMemory q) ∧
      (∀ p ∈ (wandering.module []).trace "main" [] [], p.Confined) ∧
      (wandering.module []).run "main" [] [] = .ok ⟨some (.int 3), ""⟩ ∧
      Module.run { wandering.module [] with graphs := [parted wandering] } "main" [] [] = .error .fault := by
  decide +kernel

end Quadcode.Unswitching
