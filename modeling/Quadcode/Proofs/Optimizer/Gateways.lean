import Quadcode.Proofs.Eval.Replacement
import Quadcode.Proofs.Flow.NaturalLoops
import Quadcode.Proofs.Graph.Edits
import Quadcode.Proofs.Optimizer.Invariants

/-!
# Ways into a loop

An edit of a loop leaves the code around it alone but for the ways into the loop: they all come to a gate in
the block in front of it. So the edited function keeps track of the old one outside the loop, and what is left
to show is how it follows inside, and how it gets there from the gate.
-/

namespace Quadcode

open List Machine Point Track

variable {inside : Spot → Spot → Machine → Machine → Prop} {hidden : Spot → VarId → Prop} {l : Loop} {below : Hidden}
  {m : Machine} {b : BlockId} {p' : Point} {t : Terms} {s : Spot} {q : Quad}

/-- The code of `g'` around a loop of `g`. Every way into the loop comes to the gate, a place in the block
`pre`, which is an old block that leads to the header only, or no old block outside the loop. -/
structure Graph.Gateway (g g' : Graph) (l : Loop) (pre : BlockId) (gate : Nat) : Prop where
  alike : g.Alike g'
  body : ∀ b ∈ g.layout, b ∉ l.blocks → b ≠ pre → g'.body b = g.body b
  tail : ∀ b ∈ g.layout, b ∉ l.blocks → b ≠ pre → g'.tail b = (g.tail b).retarget l.header pre
  entry : g'.entry = if g.entry = l.header then pre else g.entry
  pre : (pre ∈ g.layout ∧ (∃ more, g'.body pre = g.body pre ++ more) ∧ gate = (g.body pre).length ∧
      (g.tail pre).only? = some l.header ∧ g.entry ≠ l.header ∧
      ∀ b ∈ g.layout, b ∉ l.blocks → l.header ∈ g.targets b → b = pre) ∨
    (∀ b ∈ g.layout, b ∉ l.blocks → b ≠ pre) ∧ gate = 0

/-- What is hidden is not used before it is assigned. -/
structure Track.Unused (t : Terms) (g : Graph) (hidden : Spot → VarId → Prop) : Prop where
  quad : ∀ b ∈ g.layout, ∀ i q, (g.body b)[i]? = some q → ∀ v ∈ q.uses, ¬hidden ⟨b, i⟩ v
  tail : ∀ b ∈ g.layout, ∀ v ∈ (g.tail b).uses, ¬hidden ⟨b, (g.body b).length⟩ v
  step : ∀ b ∈ g.layout, ∀ i q, (g.body b)[i]? = some q → ∀ v, hidden ⟨b, i⟩ v →
    hidden ⟨b, i + 1⟩ v ∨ q.result = some v ∧ t.watch.strict
  edge : ∀ b ∈ g.layout, ∀ c ∈ g.targets b, ∀ v, hidden ⟨b, (g.body b).length⟩ v → hidden ⟨c, 0⟩ v

theorem Track.Unused.none (t : Terms) (g : Graph) : Track.Unused t g fun _ _ => False :=
  ⟨fun _ _ _ _ _ _ _ => id, fun _ _ _ _ => id, fun _ _ _ _ _ _ => False.elim, fun _ _ _ _ _ => id⟩

/-- Follows at the same spots outside a loop, and in some way inside. -/
def Track.around (g : Graph) (l : Loop) (hidden : Spot → VarId → Prop)
    (inside : Spot → Spot → Machine → Machine → Prop) : Track where
  hidden := hidden
  follows s s' m n := s.block ∈ g.layout ∧ s.index ≤ (g.body s.block).length ∧
    (s.block ∈ l.blocks → inside s s' m n) ∧ (s.block ∉ l.blocks → s' = s)

namespace Track

variable {g g' : Graph} (unused : Unused t g hidden) (meets : (around g l hidden inside).Meets t g below s m p')
include unused meets

/-- The second run has the same quadruple before it, and goes on following behind it. -/
theorem copies_of_next (here : (g.body s.block)[s.index]? = some q) (next : p'.quad? = some q)
    (follows : s.block ∈ l.blocks → ∀ x m' n', m.Yields t.strings g q x →
      (g.StoresToMemory q → m.Passed t.watch.shared g q x m' ∧ p'.machine.Passed t.watch.shared g q x n') →
      inside s.next p'.spot.next m' n') : (around g l hidden inside).Copies t g s q m p' where
  next := next
  seen v named := unused.quad s.block meets.follows.1 s.index q here v named
  follows x m' n' _ yields passed :=
    ⟨meets.follows.1, (List.getElem?_eq_some_iff.1 here).1, fun member => follows member x m' n' yields passed,
      fun outside => by rw [meets.follows.2.2.2 outside]⟩
  hidden x served v out := by
    rcases unused.step s.block meets.follows.1 s.index q here v out with later | ⟨result, strict⟩
    · exact .inl later
    · exact .inr ⟨result, served strict (by rw [result]; rfl)⟩

variable {c : BlockId} (ended : (g.body s.block)[s.index]? = none)
include ended

omit unused in
theorem index_eq : s = ⟨s.block, (g.body s.block).length⟩ := by
  have bound := meets.follows.2.1
  rw [getElem?_eq_none_iff] at ended
  rw [Nat.le_antisymm ended bound]

/-- What is hidden at the end of a block is hidden where control goes on. -/
theorem agrees_edge (edge : c ∈ g.targets s.block) :
    m.tick.Agrees (below.above m.tick.frames.size (hidden ⟨c, 0⟩)) p'.machine := by
  refine meets.agrees.tick_left.above_mono fun v out => ?_
  refine unused.edge s.block meets.follows.1 c edge v ?_
  rw [index_eq meets ended] at out
  exact out

/-- Where the first run goes on outside the loop, the second follows at the same block. -/
theorem arrives_outside (linked : g.Linked) (edge : c ∈ g.targets s.block) (outside : c ∉ l.blocks) :
    (around g l hidden inside).Arrives t g below ⟨c, 0⟩ m.tick (p'.goto c) :=
  Meets.arrives ⟨(agrees_edge unused meets ended edge).tick_right, meets.shaped, meets.some_frame,
    by simpa [goto] using meets.pace, linked.target_mem meets.follows.1 edge, Nat.zero_le _,
    fun member => absurd member outside, fun _ => rfl⟩

/-- Where the first run goes on inside the loop, so does the second. -/
theorem arrives_inside (linked : g.Linked) (edge : c ∈ g.targets s.block) (member : c ∈ l.blocks)
    (follows : inside ⟨c, 0⟩ ⟨b, 0⟩ m.tick p'.machine.tick) :
    (around g l hidden inside).Arrives t g below ⟨c, 0⟩ m.tick (p'.goto b) :=
  Meets.arrives ⟨(agrees_edge unused meets ended edge).tick_right, meets.shaped, meets.some_frame,
    by simpa [goto] using meets.pace, linked.target_mem meets.follows.1 edge, Nat.zero_le _,
    fun _ => follows, fun outside => absurd member outside⟩

/-- Where the first run goes on inside the loop, the second may be there already. -/
theorem arrives_waiting (linked : g.Linked) (edge : c ∈ g.targets s.block) (member : c ∈ l.blocks)
    (follows : inside ⟨c, 0⟩ p'.spot m.tick p'.machine) :
    (around g l hidden inside).Arrives t g below ⟨c, 0⟩ m.tick p' :=
  Meets.arrives ⟨agrees_edge unused meets ended edge, meets.shaped, meets.some_frame,
    meets.pace.imp_right Nat.le_succ_of_le, linked.target_mem meets.follows.1 edge, Nat.zero_le _,
    fun _ => follows, fun outside => absurd member outside⟩

/-- What the tail of a block reads is in sight. -/
theorem leaves_seen : ∀ v ∈ (g.tail s.block).uses, ¬(around g l hidden inside).hidden s v := by
  intro v named
  rw [index_eq meets ended]
  exact unused.tail s.block meets.follows.1 v named

/-- The second run leaves a block of the loop as the first does, for the same blocks or copies of them. -/
theorem leaves_inside (linked : g.Linked) (alike : g.Alike g') (graph : p'.graph = g') (ended' : p'.quad? = none)
    {f : BlockId → BlockId} (tail : p'.tail = (g.tail s.block).mapTargets f) (away : ∀ c, c ∉ l.blocks → f c = c)
    (follows : ∀ c ∈ l.blocks, inside ⟨c, 0⟩ ⟨f c, 0⟩ m.tick p'.machine.tick) :
    (around g l hidden inside).Leaves t g below m p' (m.tick.next g (g.tail s.block)) := by
  refine meets.leaves alike graph ended' tail (leaves_seen unused meets ended) fun c jumped => ?_
  have edge : c ∈ g.targets s.block := next_target jumped
  by_cases member : c ∈ l.blocks
  · exact arrives_inside unused meets ended linked edge member (follows c member)
  · rw [away c member]
    exact arrives_outside unused meets ended linked edge member

end Track

/-! ## The gate -/

namespace Graph.Gateway

variable {g g' : Graph} {pre : BlockId} {gate : Nat} {arriving : Machine → Prop}

/-- At the gate, in a state that agrees with the one that the first run comes to the header with, the second
run follows sooner or later. -/
def Opens (t : Terms) (g g' : Graph) (l : Loop) (pre : BlockId) (gate : Nat)
    (hidden : Spot → VarId → Prop) (inside : Spot → Spot → Machine → Machine → Prop)
    (arriving : Machine → Prop) : Prop :=
  ∀ (below : Hidden) (m : Machine) (p' : Point), p'.graph = g' → p'.spot = ⟨pre, gate⟩ →
    m.Agrees (below.above m.frames.size (hidden ⟨l.header, 0⟩)) p'.machine → m.Shaped g →
    0 < m.frames.size → (t.free ∨ p'.machine.steps ≤ m.steps) → arriving m →
    (around g l hidden inside).Arrives t g below ⟨l.header, 0⟩ m p'

variable (gateway : g.Gateway g' l pre gate)
include gateway

theorem quad_outside (laid : b ∈ g.layout) (outside : b ∉ l.blocks) {i : Nat} (here : (g.body b)[i]? = some q) :
    (g'.body b)[i]? = some q := by
  by_cases front : b = pre
  · subst front
    obtain ⟨-, ⟨more, body⟩, -⟩ | ⟨new, -⟩ := gateway.pre
    · rw [body, List.getElem?_append_left (List.getElem?_eq_some_iff.1 here).1, here]
    · exact absurd rfl (new b laid outside)
  · rw [gateway.body b laid outside front, here]

/-- The second run leaves a block outside the loop as the first does, or it comes to the gate. -/
theorem leaves_outside (linked : g.Linked) (loop : g.HasLoop l) (unused : Track.Unused t g hidden)
    (opens : Opens t g g' l pre gate hidden inside arriving) (graph : p'.graph = g')
    (meets : (around g l hidden inside).Meets t g below s m p') (ended : (g.body s.block)[s.index]? = none)
    (outside : s.block ∉ l.blocks) (arrives : m.tick.next g (g.tail s.block) = .ok (.inl l.header) → arriving m.tick) :
    (around g l hidden inside).Leaves t g below m p' (m.tick.next g (g.tail s.block)) := by
  have laid := meets.follows.1
  have same : p'.spot = s := meets.follows.2.2.2 outside
  have index := index_eq meets ended
  by_cases front : s.block = pre
  · -- The block in front of the loop has nothing left to do but to go to the header.
    obtain ⟨-, -, gate_eq, only, -⟩ | ⟨new, -⟩ := gateway.pre
    · have way : m.tick.next g (g.tail s.block) = .ok (.inl l.header) := next_only (front ▸ only)
      have edge : l.header ∈ g.targets s.block := next_target way
      rw [way]
      refine opens below m.tick p' graph ?_ (agrees_edge unused meets ended edge) meets.shaped
        meets.some_frame (meets.pace.imp_right Nat.le_succ_of_le) (arrives way)
      rw [same, index, front, gate_eq]
    · exact absurd front (new s.block laid outside)
  · have ended' : p'.quad? = none := by
      rw [quad?_at graph same, gateway.body s.block laid outside front, ended]
    refine meets.leaves gateway.alike graph ended' (f := fun b => if b = l.header then pre else b) ?_
      (leaves_seen unused meets ended) fun b jumped => ?_
    · rw [tail_at graph same, gateway.tail s.block laid outside front]
      rfl
    · have edge : b ∈ g.targets s.block := next_target jumped
      by_cases enters : b = l.header
      · subst enters
        rw [if_pos rfl]
        obtain ⟨-, -, -, -, -, only⟩ | ⟨-, gate_eq⟩ := gateway.pre
        · exact absurd (only s.block laid outside edge) front
        · refine opens below m.tick (p'.goto pre) graph (by rw [gate_eq]; rfl)
            (agrees_edge unused meets ended edge).tick_right meets.shaped meets.some_frame
            (by simpa [goto] using meets.pace) (arrives jumped)
      · rw [if_neg enters]
        refine arrives_outside unused meets ended linked edge fun member => enters ?_
        exact loop.eq_header linked member laid edge outside

/-- The edited function keeps track of the old one if it does inside the loop and from the gate on. -/
theorem sound (linked : g.Linked) (loop : g.HasLoop l) (unused : Track.Unused t g hidden)
    (taken : ∀ v, v ∉ t.watch.shared → (v ∈ g'.addressTaken ↔ v ∈ g.addressTaken))
    (covers : ∀ s v, hidden s v → g.Private t.watch.shared v) (opens : Opens t g g' l pre gate hidden inside arriving)
    (arrives : ∀ callers b m, b ∈ g.layout → b ∉ l.blocks → m.tick.next g (g.tail b) = .ok (.inl l.header) →
      t.watch.leaves ⟨callers, g, b, (g.body b).length, m⟩ → arriving m.tick)
    (starts : g.entry = l.header → ∀ m, arriving m)
    (quad : ∀ below s m p' q, p'.graph = g' → (around g l hidden inside).Meets t g below s m p' →
      s.block ∈ l.blocks → (g.body s.block)[s.index]? = some q →
      (around g l hidden inside).Copies t g s q m p' ∨ (around g l hidden inside).Skips t g below s q m p')
    (tail : ∀ below s m p', p'.graph = g' → (around g l hidden inside).Meets t g below s m p' →
      s.block ∈ l.blocks → (g.body s.block)[s.index]? = none →
      (around g l hidden inside).Leaves t g below m p' (m.tick.next g (g.tail s.block))) :
    (around g l hidden inside).Sound t g g' where
  alike := gateway.alike
  taken := taken
  covers := covers
  entry below m p' graph block index agrees shaped some_frame pace := by
    have agrees {top : VarId → Prop} : m.Agrees (below.above m.frames.size top) p'.machine :=
      agrees.above_mono fun _ => False.elim
    by_cases start : g.entry = l.header
    · rw [start]
      refine opens below m p' graph ?_ agrees shaped some_frame pace (starts start m)
      rw [gateway.entry, if_pos start] at block
      obtain ⟨-, -, -, -, other, -⟩ | ⟨-, gate_eq⟩ := gateway.pre
      · exact absurd start other
      · rw [spot, block, index, gate_eq]
    · rw [gateway.entry, if_neg start] at block
      have outside : g.entry ∉ l.blocks := fun member => start (loop.entry_eq_header linked member)
      exact Track.Meets.arrives ⟨agrees, shaped, some_frame, pace, linked.entry_mem, Nat.zero_le _,
        fun member => absurd member outside, fun _ => by rw [spot, block, index]⟩
  quad below s m p' q graph meets here := by
    by_cases member : s.block ∈ l.blocks
    · exact quad below s m p' q graph meets member here
    · refine .inl (copies_of_next unused meets here ?_ fun inside => absurd inside member)
      have same : p'.spot = s := meets.follows.2.2.2 member
      rw [quad?_at graph same]
      exact gateway.quad_outside meets.follows.1 member here
  tail below callers s m p' graph meets ended left := by
    by_cases member : s.block ∈ l.blocks
    · exact tail below s m p' graph meets member ended
    · refine gateway.leaves_outside linked loop unused opens graph meets ended member fun way => ?_
      have index := index_eq meets ended
      have left := left _ way
      rw [show s.index = (g.body s.block).length from congrArg Spot.index index] at left
      exact arrives callers s.block m meets.follows.1 member way left

end Graph.Gateway

/-! ## Blocks in front of a loop -/

namespace Graph

variable {g g' h : Graph} {p : BlockId}

/-- A new block in front of a loop. -/
theorem Entered.gateway {x : Block} (entered : g.Entered h l x) (linked : g.Linked) (loop : g.HasLoop l)
    (alike : g.Alike g') (body : ∀ b ∈ g.layout, b ∉ l.blocks → g'.body b = h.body b)
    (tail : ∀ b ∈ g.layout, b ∉ l.blocks → g'.tail b = h.tail b) (entry : g'.entry = h.entry) :
    g.Gateway g' l g.blocks.size 0 where
  alike := alike
  body b laid outside new := by rw [body b laid outside, entered.body, if_neg new]
  tail b laid outside new := by
    rw [tail b laid outside, entered.tail, if_neg new]
    split
    · rfl
    next elsewhere =>
      refine (retarget_of_not_mem fun edge => elsewhere ?_).symm
      exact (mem_outsidePreds linked (loop.header_mem_layout linked)).2 ⟨laid, edge, outside⟩
  entry := by rw [entry, entered.entry]
  pre := .inr ⟨fun b laid _ => Nat.ne_of_lt (linked.lt_size laid), rfl⟩

/-- What is known of a block that already stands in front of a loop. -/
theorem of_preheader (linked : g.Linked) (loop : g.HasLoop l) (front : l.preheader? g = some p) :
    p ∈ g.layout ∧ p ∉ l.blocks ∧ (g.tail p).only? = some l.header ∧ g.entry ≠ l.header ∧
      ∀ b ∈ g.layout, b ∉ l.blocks → l.header ∈ g.targets b → b = p := by
  have header := loop.header_mem_layout linked
  unfold Loop.preheader? at front
  split at front
  next p' single =>
    split at front
    next leads =>
      cases front
      have listed : p ∈ l.outsidePreds g := by simp [single]
      obtain ⟨laid, -, outside⟩ := (mem_outsidePreds linked header).1 listed
      refine ⟨laid, outside, ?_, loop.entry_ne_header linked listed, fun b laid_b outside_b edge => ?_⟩
      · rw [linked.succs_eq laid, targets] at leads
        cases tail : g.tail p <;> simp_all [Tail.targets, Tail.successors, Tail.only?]
      · simpa [single] using (mem_outsidePreds linked header).2 ⟨laid_b, edge, outside_b⟩
    · cases front
  · cases front

/-- The graph `h` is `g` with the block `pre` in front of a loop, through which it is entered. -/
structure Fronts (g h : Graph) (l : Loop) (pre : BlockId) : Prop where
  alike : g.Alike h
  outside : pre ∉ l.blocks
  mem_layout : ∀ b, b ∈ h.layout ↔ b = pre ∨ b ∈ g.layout
  closed : h.Closed
  leads : (h.tail pre).only? = some l.header
  loop_body : ∀ b ∈ l.blocks, h.body b = g.body b
  loop_tail : ∀ b ∈ l.blocks, h.tail b = g.tail b
  bodies : ∀ q ∈ h.bodies, q ∈ g.bodies
  tails : ∀ b ∈ h.layout, ∀ v ∈ (h.tail b).uses, ∃ c ∈ g.layout, v ∈ (g.tail c).uses
  /-- An edit of the loop and of the end of the block in front of it. -/
  gateway : ∀ g', g.Alike g' → (∀ b ∈ g.layout, b ∉ l.blocks → b ≠ pre → g'.body b = h.body b) →
    (∃ more, g'.body pre = h.body pre ++ more) →
    (∀ b ∈ g.layout, b ∉ l.blocks → b ≠ pre → g'.tail b = h.tail b) → g'.entry = h.entry →
    g.Gateway g' l pre (h.body pre).length

theorem fronts_preheader (linked : g.Linked) (loop : g.HasLoop l) (front : l.preheader? g = some p) :
    g.Fronts g l p := by
  obtain ⟨laid, outside, leads, start, only⟩ := of_preheader linked loop front
  refine ⟨.refl g, outside, fun b => ?_, linked.closed, leads, fun _ _ => rfl, fun _ _ => rfl,
    fun _ => id, fun b laid _ named => ⟨b, laid, named⟩, fun g' alike body more tail entry => ?_⟩
  · refine ⟨.inr, ?_⟩
    rintro (rfl | old)
    · exact laid
    · exact old
  · refine ⟨alike, body, fun b laid_b outside_b other => ?_, ?_, .inl ⟨laid, more, rfl, leads, start, only⟩⟩
    · rw [tail b laid_b outside_b other, retarget_of_not_mem fun edge => other (only b laid_b outside_b edge)]
    · rw [if_neg start, entry]

theorem fronts_insertPreheader (linked : g.Linked) (loop : g.HasLoop l) (s : Supply) :
    g.Fronts (g.insertPreheader l s).2.1 l (g.insertPreheader l s).1 := by
  have header := loop.header_mem_layout linked
  obtain ⟨pre, x, entered, empty, leads⟩ := entered_insertPreheader linked header s
  rw [pre]
  generalize (g.insertPreheader l s).2.1 = h at entered ⊢
  have new : ∀ b ∈ g.layout, b ≠ g.blocks.size := fun b laid => Nat.ne_of_lt (linked.lt_size laid)
  have mem (b : BlockId) : b ∈ h.layout ↔ b = g.blocks.size ∨ b ∈ g.layout := by
    rw [entered.layout.mem_iff, mem_cons]
  have loop_tail : ∀ b ∈ l.blocks, h.tail b = g.tail b := by
    intro b member
    rw [entered.tail, if_neg (new b (loop.mem_layout linked member)), if_neg]
    exact fun pred => ((mem_outsidePreds linked header).1 pred).2.2 member
  have closed := entered.closed linked fun c edge => by
    rw [leads] at edge
    rwa [mem_singleton.1 edge]
  refine ⟨entered.alike, fun member => new _ (loop.mem_layout linked member) rfl, mem, closed,
    ?_, fun b member => ?_, loop_tail, fun q listed => ?_,
    fun b laid v named => ?_, fun g' alike body more tail entry => ?_⟩
  · rw [entered.tail, if_pos rfl, leads]
    rfl
  · rw [entered.body, if_neg (new b (loop.mem_layout linked member))]
  · obtain ⟨b, laid, inside⟩ := mem_flatMap.1 listed
    rw [entered.body] at inside
    split at inside
    · rw [empty] at inside
      cases inside
    next old => exact mem_flatMap.2 ⟨b, ((mem b).1 laid).resolve_left old, inside⟩
  · rw [entered.tail] at named
    split at named
    · rw [leads] at named
      cases named
    next old =>
      refine ⟨b, ((mem b).1 laid).resolve_left old, ?_⟩
      split at named
      · rwa [Tail.retarget, Tail.uses_mapTargets] at named
      · exact named
  · rw [entered.body, if_pos rfl, empty]
    exact entered.gateway linked loop alike (fun b laid outside => body b laid outside (new b laid))
      (fun b laid outside => tail b laid outside (new b laid)) entry

theorem fronts_fronted (linked : g.Linked) (loop : g.HasLoop l) (s : Supply) :
    g.Fronts (g.fronted l s).2.1 l (g.fronted l s).1 := by
  unfold fronted
  cases front : l.preheader? g with
  | some p => exact fronts_preheader linked loop front
  | none => exact fronts_insertPreheader linked loop s

end Graph

end Quadcode
