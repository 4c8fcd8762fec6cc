import Quadcode.Proofs.Eval.BigStep
import Quadcode.Proofs.Eval.Frames
import Quadcode.Proofs.Lowering.Places

/-!
# The code of integer functions computes what they do

While the interpreter runs a function, the machine runs its code. Wherever the interpreter is, the
machine stands in the code of the same quadruple, and the variables that are live there are in their
places. One step of the interpreter is some steps of the machine that keep this up, so a run that
returns is matched by one that comes to a return, with the value in the register for results.
-/

namespace Quadcode

open X86 List Machine Liveness Point

theorem Graph.Integral.namesGlobalsOnce {g : Graph} (integral : g.Integral) : g.NamesGlobalsOnce := by
  intro u member
  obtain ⟨x, here, global⟩ := Graph.mem_globals.1 member
  rw [(integral.declared here).2] at global
  cases global

namespace Lowering

variable {s : Site} {near far : BlockMap VarSet} {code start : List Inst} {t t' : State} {m : Machine}

/-- What is known of a function and the code that was made for it. -/
structure Compiled (s : Site) (near far : BlockMap VarSet) (code start : List Inst) : Prop where
  integral : s.graph.Integral
  linked : s.graph.Linked
  solved : (problem s.graph).Solves s.graph near far
  settled : Settled s near
  made : Made s code start

/-- The machine is where the interpreter is, with the live variables in their places. -/
structure Simulates (s : Site) (near : BlockMap VarSet) (code : List Inst) (p : Point) (c : Snapshot) : Prop where
  graph : p.graph = s.graph
  block : p.block ∈ s.graph.layout
  stands : Stands s code p.block p.index c.pc
  ready : Ready s (liveAt s.graph near p.block p.index) p.machine c.state
  even : c.state.Even

section Ready

variable {live live' : VarSet}

theorem Holds.mono (holds : Holds s live m t) (fewer : ∀ v ∈ live', v ∈ live) : Holds s live' m t :=
  fun v member => holds v (fewer v member)

theorem Ready.keeps (ready : Ready s live m t) (keeps : Keeps none t t') : Ready s live m t' where
  site := ready.site
  aligned := keeps.aligned ready.aligned
  holds v member x valued l placed := by
    rw [keeps.others l (ready.site.usable v l placed) (by simp)]
    exact ready.holds v member x valued l placed

theorem Keeps.even {but : Option Location} (keeps : Keeps but t t') (even : t.Even) : t'.Even := by
  unfold State.Even
  rwa [keeps.rsp]

end Ready

variable {p : Point} {c : Snapshot} {q : Quad} {strings : StringPool} {b : BlockId}

/-- The live variables are in their places behind a quadruple whose value has been brought to the
place of its result. -/
theorem holds_act {i : Nat} {d : VarId} {l : Location} {y : Value} (compiled : Compiled s near far code start)
    (member : b ∈ s.graph.layout) (here : (s.graph.body b)[i]? = some q) (result : q.result = some d)
    (placed : s.allocation.locations[d]? = some l) (done : m.effect strings s.graph q.op = .ok (.value y))
    {m' : Machine} (acted : m.act strings s.graph q = .ok m') (holds : Holds s (liveAt s.graph near b i) m t)
    (keeps : Keeps (some l) t t') (brought : Represents (t'.value (ofLocation l)) y) :
    Holds s (liveAt s.graph near b (i + 1)) m' t' := by
  intro v live x valued k found
  obtain ⟨e, done', cases⟩ := act_varValue compiled.integral.namesGlobalsOnce acted valued
  cases done.symm.trans done'
  rcases cases with ⟨same, value⟩ | ⟨_, _, _, stored⟩ | ⟨before, kept⟩
  · obtain rfl : d = v := Option.some.inj (result.symm.trans same)
    obtain rfl : l = k := Option.some.inj (placed.symm.trans found)
    cases value
    exact brought
  · cases stored
  · have different : d ≠ v := by
      rintro rfl
      cases kept result
    have other : some k ≠ some l := fun same =>
      compiled.settled.assigned b member i q d v l here result live different placed (same ▸ found)
    rw [keeps.others k (compiled.settled.site.usable v k found) other]
    refine holds v ((mem_liveAt here).2 (.inl ⟨live, ?_⟩)) x before k found
    rw [result]
    exact fun same => different (Option.some.inj same)

/-- A quadruple is run by its code. -/
theorem Simulates.act (compiled : Compiled s near far code start) (simulates : Simulates s near code p c)
    (here : p.quad? = some q) (acted : p.machine.tick.act strings p.graph q = .ok m) :
    ∃ c', Reaches code c c' ∧ Simulates s near code (p.advance m) c' := by
  obtain ⟨graph, block, stands, ready, even⟩ := simulates
  rw [quad?, graph] at here
  rw [graph] at acted
  have ticked : Ready s (liveAt s.graph near p.block p.index) p.machine.tick c.state :=
    ⟨ready.site, ready.aligned, ready.holds⟩
  have integral := compiled.integral.body p.block block q (mem_of_getElem? here)
  have computes := integral
  simp only [Quad.isIntegral, Bool.and_eq_true] at computes
  obtain ⟨d, result⟩ := Option.isSome_iff_exists.1 computes.1.1
  obtain ⟨afters, front, inner, last, back, w₁, w₂, w₃, enough, inside, ends, same, at_front⟩ := stands
  obtain ⟨bound, found⟩ := List.getElem?_eq_some_iff.1 here
  rw [drop_eq_getElem_cons bound, found] at enough inside
  cases afters with
  | nil => cases enough
  | cons after afters =>
    simp only [body, gives_bind, gives_pure] at inside
    obtain ⟨first, w, given, others, _, later, rfl, rfl⟩ := inside
    obtain ⟨l, placed, -⟩ := gives_quad ready.site computes.1.2 result given
    obtain ⟨e, -, done, -, -⟩ := act_eq_ok.1 acted
    have read : ∀ v ∈ q.uses, v ∈ liveAt s.graph near p.block p.index := fun v used =>
      (mem_liveAt here).2 (.inr (.inl used))
    obtain ⟨y, u, rfl, stands, t', performed, keeps, rfl⟩ := brings_quad ticked integral read result placed done given
    refine ⟨⟨(front ++ first).length, t'⟩, ?_, graph, block, ?_, ?_, keeps.even even⟩
    · have reaches := reaches_of_perform front (others ++ last ++ back) performed
      obtain ⟨pc, state⟩ := c
      cases at_front
      rw [same]
      simpa using reaches
    · exact ⟨afters, front ++ first, others, last, back, w, w₂, w₃, Nat.le_of_succ_le_succ enough, later,
        ends, by simp [same], rfl⟩
    · exact ⟨ready.site, keeps.aligned ready.aligned,
        holds_act compiled block here result placed done acted ticked.holds keeps stands⟩

/-- Behind the last quadruple of a block comes the code of its tail. -/
theorem Stands.tail {i pc : Nat} (stands : Stands s code b i pc) (ended : (s.graph.body b)[i]? = none) :
    ∃ front last back w w', Gives (Lowering.tail s (s.graph.tail b)) w last w' ∧
      code = front ++ last ++ back ∧ pc = front.length := by
  obtain ⟨afters, front, inner, last, back, w₁, w₂, w₃, -, inside, ends, same, at_front⟩ := stands
  rw [drop_of_length_le (getElem?_eq_none_iff.1 ended)] at inside
  simp only [body, gives_pure] at inside
  obtain ⟨rfl, rfl⟩ := inside
  exact ⟨front, last, back, w₂, w₃, ends, by simpa using same, at_front⟩

/-- The label of a block is found, and behind it stands the code of the block. -/
theorem Made.enter (made : Made s code start) (member : b ∈ s.graph.layout) (t : State) :
    ∃ n, target? code (s.blockLabel b) = some n ∧ Reaches code ⟨n, t⟩ ⟨n + 1, t⟩ ∧ Stands s code b 0 (n + 1) := by
  obtain ⟨front, back, same, stands⟩ := made.block b member
  refine ⟨front.length, ?_, ?_, stands⟩
  · rw [same]
    exact target?_of_nodup (same ▸ made.once)
  · have passed : perform t [.label (s.blockLabel b)] = some t := rfl
    have reaches := reaches_of_perform front back passed
    rw [same]
    simpa using reaches

/-- The code of a tail goes where the interpreter goes. -/
theorem reaches_next {tl : Tail} {live : VarSet} {n : Nat} {front last back : List Inst} {w w' : Literals}
    (ready : Ready s live m t) (integral : ∀ a ∈ tl.args, a.isIntegral) (read : ∀ v ∈ tl.uses, v ∈ live)
    (next : m.next s.graph tl = .ok (.inl b)) (given : Gives (tail s tl) w last w')
    (same : code = front ++ last ++ back) (found : target? code (s.blockLabel b) = some n) :
    ∃ t', Reaches code ⟨front.length, t⟩ ⟨n, t'⟩ ∧ Keeps none t t' := by
  subst same
  cases tl with
  | jump d | fall d =>
    cases next
    simp only [tail, gives_pure] at given
    obtain ⟨rfl, -⟩ := given
    exact ⟨t, by simpa using reaches_jmp (by simpa using found), .refl⟩
  | branch c x y onTrue onFalse =>
    simp only [Machine.next, bind_eq_ok, pure_eq_ok] at next
    obtain ⟨u, first, u', second, outcome, applied, goes⟩ := next
    cases goes
    simp only [tail, gives_bind] at given
    obtain ⟨_, _, compared, rest⟩ := given
    obtain ⟨X, Y, denotes, denotes', rfl⟩ := gives_compare ready.site (integral x (by simp [Tail.args]))
      (integral y (by simp [Tail.args])) compared
    simp only [gives_pure, append_nil] at rest
    obtain ⟨rfl, -⟩ := rest
    have stands := denotes.represents ready.holds
      (fun v is => read v (by simp [Tail.uses, Tail.args, is, Arg.var?])) first
    have stands' := denotes'.represents ready.holds
      (fun v is => read v (by simp [Tail.uses, Tail.args, is, Arg.var?])) second
    obtain ⟨a, b, left, right, rfl⟩ := comparison_of_represents stands stands' applied
    have performed := perform_compare (denotes.steady ready.site) (denotes'.steady ready.site) ready.aligned
    refine ⟨_, reaches_branch performed rfl ?_, .trans (keeps_setReg (by decide)) (keeps_setFlags _ _)⟩
    rw [left, right, holds_ofSub, ← apply_ite]
    exact found
  | ret value =>
    cases value with
    | none => cases next
    | some x =>
      simp only [Machine.next, bind_eq_ok, pure_eq_ok] at next
      obtain ⟨_, _, goes⟩ := next
      cases goes

variable (compiled : Compiled s near far code start) {args : List Int32} {frame : Frame}
include compiled

section

variable (simulates : Simulates s near code p c) {x : Option Value}
include simulates

/-- Where the interpreter goes to another block, so does the machine. -/
theorem Simulates.goto (ended : p.quad? = none) (goes : p.machine.tick.next p.graph p.tail = .ok (.inl b)) :
    ∃ c', Reaches code c c' ∧ Simulates s near code (p.goto b) c' := by
  obtain ⟨graph, block, stands, ready, even⟩ := simulates
  rw [quad?, graph] at ended
  rw [Point.tail, graph] at goes
  have ticked : Ready s (liveAt s.graph near p.block p.index) p.machine.tick c.state :=
    ⟨ready.site, ready.aligned, ready.holds⟩
  obtain ⟨front, last, back, w, w', given, same, at_front⟩ := stands.tail ended
  have edge : b ∈ s.graph.targets p.block := next_target goes
  have member := compiled.linked.target_mem block edge
  obtain ⟨n, found, -, -⟩ := compiled.made.enter member c.state
  have read : ∀ v ∈ (s.graph.tail p.block).uses, v ∈ liveAt s.graph near p.block p.index :=
    fun v used => (mem_liveAt_end ended).2 (.inr used)
  obtain ⟨t, reaches, keeps⟩ := reaches_next ticked (compiled.integral.tail p.block block) read goes given
    same found
  obtain ⟨n', found', passes, there⟩ := compiled.made.enter member t
  obtain rfl : n = n' := Option.some.inj (found.symm.trans found')
  have kept := ticked.keeps keeps
  refine ⟨⟨n + 1, t⟩, ?_, graph, member, there, ⟨kept.site, kept.aligned, ?_⟩, keeps.even even⟩
  · obtain ⟨pc, state⟩ := c
    cases at_front
    exact reaches.trans passes
  · exact kept.holds.mono fun v =>
      mem_liveAt_edge compiled.linked compiled.solved block edge ended

/-- Where the interpreter returns, the machine comes to a return. -/
theorem Simulates.ret (ended : p.quad? = none) (returns : p.machine.tick.next p.graph p.tail = .ok (.inr x)) :
    ∃ c', Reaches code c c' ∧ code[c'.pc]? = some .ret ∧ ∀ i, x = some (.int i) → c'.state.reg .rax = extended i := by
  obtain ⟨graph, block, stands, ready, even⟩ := simulates
  rw [quad?, graph] at ended
  rw [Point.tail, graph] at returns
  obtain ⟨front, last, back, w, w', given, same, at_front⟩ := stands.tail ended
  have integral := compiled.integral.tail p.block block
  have read : ∀ v ∈ (s.graph.tail p.block).uses, v ∈ liveAt s.graph near p.block p.index :=
    fun v used => (mem_liveAt_end ended).2 (.inr used)
  -- All that matters of the tail is the state that it leaves to the epilogue.
  obtain ⟨load, t, rfl, performed, keeps, value⟩ : ∃ load t, last = load ++ epilogue s ∧
      perform c.state load = some t ∧ Keeps none c.state t ∧ ∀ i, x = some (.int i) → t.reg .rax = extended i := by
    cases tail : s.graph.tail p.block with
    | jump | fall =>
      rw [tail] at returns
      cases returns
    | branch =>
      rw [tail] at returns
      simp [Machine.next] at returns
    | ret a =>
      rw [tail] at returns given integral read
      cases a with
      | none =>
        cases returns
        simp only [Lowering.tail, gives_pure] at given
        exact ⟨[], c.state, given.1, rfl, .refl, fun i is => by cases is⟩
      | some a =>
        simp only [Machine.next, bind_eq_ok, pure_eq_ok] at returns
        obtain ⟨y, valued, same⟩ := returns
        cases same
        rw [Lowering.tail, gives_bind] at given
        simp only [gives_ofExcept] at given
        have plain := integral a (by simp [Tail.args])
        obtain ⟨float, _, ⟨floats, rfl⟩, rest⟩ := given
        simp only [gives_operand plain, gives_pure, not_isFloat ready.site plain floats] at rest
        obtain ⟨X, denotes, rest⟩ := rest
        refine ⟨mov (.reg result) X, _, rest.1, perform_mov_reg (denotes.steady ready.site) ready.aligned,
          keeps_setReg (by decide), fun i is => ?_⟩
        have stands := denotes.represents ready.holds
          (fun v is => read v (by simp [Tail.uses, Tail.args, is, Arg.var?])) valued
        rw [Option.some.inj is] at stands
        exact stands
  obtain ⟨pops, t', ends, popped, kept⟩ :=
    perform_epilogue compiled.settled.saved (keeps.even even) (keeps.aligned ready.aligned)
  have whole : perform c.state (load ++ pops) = some t' := by
    rw [perform_append, performed]
    exact popped
  have reaches := reaches_of_perform front ([.ret] ++ back) whole
  refine ⟨⟨(front ++ (load ++ pops)).length, t'⟩, ?_, ?_, fun i is => kept.trans (value i is)⟩
  · obtain ⟨pc, state⟩ := c
    cases at_front
    rw [same, ends]
    simpa using reaches
  · rw [same, ends]
    simp

/-- The machine follows a run to its return. -/
theorem Simulates.run {program : Module} {n : Machine} (runs : Runs program p x n) :
    ∃ c', Reaches code c c' ∧ code[c'.pc]? = some .ret ∧ ∀ i, x = some (.int i) → c'.state.reg .rax = extended i := by
  induction runs generalizing c with
  | ret ended _ returns => exact simulates.ret compiled ended returns
  | jump ended _ goes _ ih =>
    obtain ⟨c', reaches, simulates⟩ := simulates.goto compiled ended goes
    obtain ⟨c'', rest, outcome⟩ := ih simulates
    exact ⟨c'', reaches.trans rest, outcome⟩
  | act here _ _ acted _ ih =>
    obtain ⟨c', reaches, simulates⟩ := simulates.act compiled here acted
    obtain ⟨c'', rest, outcome⟩ := ih simulates
    exact ⟨c'', reaches.trans rest, outcome⟩
  | @call p q _ _ _ _ _ _ _ _ _ _ here calls =>
    rw [quad?, simulates.graph] at here
    have integral := compiled.integral.body p.block simulates.block q (mem_of_getElem? here)
    simp [Quad.isIntegral, calls, Op.isIntegral] at integral

end

/-- The parameters that are live at the start are in their places once the prologue has run. -/
theorem holds_enter
    (entered : Frame.enter s.graph (args.map .int) = .ok frame) (counted : s.graph.params.length = args.length)
    (passed : ∀ k i, args[k]? = some i → t.argument k = extended i)
    (taken : ∀ k p l, s.graph.params[k]? = some p → s.allocation.locations[p]? = some l →
      (l.isRegister → ∀ q ∈ s.graph.params, s.allocation.locations[q]? = some l → q = p) →
      (l.isRegister = false → l = Allocation.incoming k) → t'.value (ofLocation l) = t.argument k) :
    Holds s (liveAt s.graph near s.graph.entry 0) (m.push frame) t' := by
  intro v live x valued l placed
  obtain ⟨_, found, -⟩ := varValue_eq_ok.1 valued
  obtain ⟨var, declared, -⟩ := Machine.place_eq_ok.1 found
  obtain ⟨slots, here, slot⟩ := Machine.push_varValue declared (compiled.integral.declared declared).2 valued
  by_cases param : v ∈ s.graph.params
  · obtain ⟨k, bound, rfl⟩ := getElem_of_mem param
    have bound' : k < args.length := counted ▸ bound
    have given : (s.graph.params[k], Value.int args[k]) ∈ s.graph.params.zip (args.map .int) :=
      mem_iff_getElem.2 ⟨k, by simpa using ⟨bound, bound'⟩, by simp⟩
    rw [Frame.enter_param entered compiled.integral.params (by simpa using counted) given here slot]
    have own := taken k _ l (getElem?_eq_getElem bound) placed (fun _ q member same => by
        by_contra different
        exact compiled.settled.entered q member _ live different l same placed)
      (compiled.settled.argument k _ l (getElem?_eq_getElem bound) placed)
    exact own.trans (passed k _ (getElem?_eq_getElem bound'))
  · rw [Frame.enter_undef entered param here slot]
    trivial

/-- The prologue takes the machine to the entry of the function. -/
theorem Compiled.enter {callers : List Graph} (began : prologue s = .ok start)
    (entered : Frame.enter s.graph (args.map .int) = .ok frame) (counted : s.graph.params.length = args.length)
    (even : t.Even) (passed : ∀ k i, args[k]? = some i → t.argument k = extended i) :
    ∃ c, Reaches code ⟨0, t⟩ c ∧ Simulates s near code (.start callers s.graph m frame) c := by
  obtain ⟨t', performed, aligned, even', taken⟩ := perform_prologue compiled.settled.site
    compiled.settled.bounded compiled.integral.params even began
  have member := compiled.linked.entry_mem
  obtain ⟨n, found, passes, there⟩ := compiled.made.enter member t'
  have begins (after : List Inst) : Reaches (start ++ after) ⟨0, t⟩ ⟨start.length, t'⟩ := by
    simpa using reaches_of_perform [] after performed
  have arrives : Reaches code ⟨0, t⟩ ⟨n, t'⟩ := by
    obtain ⟨back, same | same⟩ := compiled.made.entry
    · rw [same] at found ⊢
      exact (begins _).trans (reaches_jmp found)
    · have once := compiled.made.once
      rw [same] at found once ⊢
      obtain rfl : start.length = n := Option.some.inj ((target?_of_nodup once).symm.trans found)
      exact begins _
  exact ⟨⟨n + 1, t'⟩, arrives.trans passes, rfl, member, there,
    ⟨compiled.settled.site, aligned, holds_enter compiled entered counted passed taken⟩, even'⟩

end Lowering

/-- The code of a function that computes with integers comes to a return wherever the interpreter
does, with the same integer in the register for results. -/
theorem lower_computes {g : Graph} {live : Solution VarSet} {loops : Loops} {a : Allocation} {routine : Routine}
    {w w' : Literals} {args : List Int32} {outcome : Outcome} {t : State} (linked : g.Linked) (integral : g.Integral)
    (apart : g.LabelsApart) (solved : g.liveness = .ok live) (allocated : allocate g live loops = .ok a)
    (lowered : Gives (lower g a live) w routine w') (counted : args.length = g.params.length)
    (ran : g.run (args.map .int) = .ok outcome) (even : t.Even)
    (passed : ∀ k i, args[k]? = some i → t.argument k = extended i) :
    ∃ c, Reaches routine.code ⟨0, t⟩ c ∧ routine.code[c.pc]? = some .ret ∧
      ∀ i, outcome.value = some (.int i) → c.state.reg .rax = extended i := by
  have settled := Lowering.allocate_settled integral linked solved allocated
  simp only [lower, gives_bind, gives_pure] at lowered
  obtain ⟨code, _, given, rfl, -⟩ := lowered
  obtain ⟨start, began, made⟩ := Lowering.gives_code (s := ⟨g, a⟩) linked apart given
  have compiled : Lowering.Compiled ⟨g, a⟩ live.near live.far code start :=
    ⟨integral, linked, Problem.solveWithin_solves solved, settled, made⟩
  obtain ⟨m, h, frame, x, n, -, found, entered, runs, rfl⟩ := Module.run_iff_runs.1 ran
  obtain rfl : g = h := by simpa [Module.graph?] using found
  obtain ⟨c, reaches, simulates⟩ := compiled.enter began entered counted.symm even passed
  obtain ⟨c', rest, outcome⟩ := simulates.run compiled runs
  exact ⟨c', reaches.trans rest, outcome⟩

/-- Adds up the quotients of `1` to `n` by `d` and gives the negative sum. The variables `n`, `d`,
`i`, `q` and `s` are 0 to 4. -/
def dividing : Function where
  name := "dividing"
  vars := #[.declare "n" .int .param, .declare "d" .int .param, .declare "i" .int .local,
    .declare "q" .int .local, .declare "s" .int .local]
  params := [0, 1]
  quads := [
    ⟨some 2, .assign (.const (.int 0))⟩,
    ⟨some 4, .assign (.const (.int 0))⟩,
    .effect (.label "head"),
    .effect (.jumpIfNot .lt (.var 2) (.var 0) "exit"),
    ⟨some 2, .binOp .add (.var 2) (.const (.int 1))⟩,
    ⟨some 3, .binOp .div (.var 2) (.var 1)⟩,
    ⟨some 4, .binOp .add (.var 4) (.var 3)⟩,
    .effect (.goto "head"),
    .effect (.label "exit"),
    ⟨some 4, .unOp .neg (.var 4)⟩,
    .effect (.ret (some (.var 4)))]

/-- A machine that has called a function with the arguments 10 and 3. -/
def X86.State.calling : State where
  reg r := if r = .rsp then 0x1000 else 0
  memory a := if a = 0x1008 then 10 else if a = 0x1010 then 3 else 0
  flags := none

theorem dividing_computes : ∃ routine w, Gives dividing.graph.lower {} routine w ∧
    dividing.graph.run [.int 10, .int 3] = .ok ⟨some (.int (-15)), ""⟩ ∧
    ∃ c, Reaches routine.code ⟨0, .calling⟩ c ∧ routine.code[c.pc]? = some .ret ∧
      c.state.reg .rax = extended (-15) := by
  have ran : dividing.graph.run ([10, 3].map .int) = .ok ⟨some (.int (-15)), ""⟩ := by decide +kernel
  obtain ⟨live, loops, a, routine, w, solved, allocated, -, given, lowered, -⟩ :=
    Graph.lower_parts (g := dividing.graph) (f := fun _ => ()) (y := ()) (by decide +kernel)
  refine ⟨routine, w, given, ran, ?_⟩
  have even : State.calling.Even := rfl
  have passed : ∀ k i, [10, 3][k]? = some i → State.calling.argument k = extended i := by
    rintro (_ | _ | k) i ⟨⟩ <;> decide
  obtain ⟨c, reaches, ends, value⟩ := lower_computes (dividing.graph_linked rfl)
    ⟨by decide +kernel, by decide +kernel, by decide +kernel, by decide +kernel⟩ (by decide +kernel) solved
    allocated lowered rfl ran even passed
  exact ⟨c, reaches, ends, value _ rfl⟩

end Quadcode
