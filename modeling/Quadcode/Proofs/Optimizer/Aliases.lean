import Quadcode.Proofs.Eval.Tracing
import Quadcode.Proofs.Optimizer.BlockTables
import Quadcode.Proofs.Optimizer.LoopPasses
import Quadcode.Proofs.Optimizer.Passes

/-!
# Following known pointers keeps every run

A pointer in the table is private and leads to the first slot of the variable that the table has for it. So a
read through it is a read of that variable, and a write through it is an assignment, with the same errors.
-/

namespace Quadcode.Aliases

open Option Machine PassM

variable {g : Graph} {vars : Array Variable} {memory : VarSet} {quads : List Quad} {known : Known} {q : Quad}

section Pointers

variable {m n : Machine} {strings : StringPool} {x : Option Value} {c : VarId × VarId}

/-- The pointer is private and leads to the variable. -/
structure Fact (g : Graph) (c : VarId × VarId) (m : Machine) : Prop where
  hides : g.Private ∅ c.1
  leads : ∃ place, m.place g c.2 = .ok place ∧ m.top c.1 = some (.ptr place 0)

theorem Fact.kept (fact : Fact g c m) (size : n.frames.size = m.frames.size) (top : n.top c.1 = m.top c.1) :
    Fact g c n := by
  obtain ⟨place, placed, here⟩ := fact.leads
  exact ⟨fact.hides, place, (place_congr size).trans placed, top.trans here⟩

theorem Fact.pointee (fact : Fact g c m) :
    ∃ place, m.tick.place g c.2 = .ok place ∧ m.tick.pointee g c.1 = .ok (place, 0) := by
  obtain ⟨place, placed, here⟩ := fact.leads
  refine ⟨place, placed, ?_⟩
  unfold Machine.pointee
  rw [(varValue_of_top (m := m.tick) fact.hides).2 here]
  rfl

/-- Reading the variable is reading what the pointer leads to. -/
theorem Fact.deref (fact : Fact g c m) (result : Option VarId) :
    m.tick.act strings g ⟨result, .assign (.var c.2)⟩ = m.tick.act strings g ⟨result, .deref c.1⟩ := by
  obtain ⟨place, placed, leads⟩ := fact.pointee
  have same : m.tick.effect strings g (.assign (.var c.2)) = m.tick.effect strings g (.deref c.1) := by
    simp only [effect, arg, varValue, placed, leads]
    rfl
  unfold act
  rw [same]

/-- Assigning to the variable is storing where the pointer leads to. -/
theorem Fact.derefStore (fact : Fact g c m) (result : Option VarId) (value : Arg) :
    m.tick.act strings g ⟨some c.2, .assign value⟩ = m.tick.act strings g ⟨result, .derefStore c.1 value⟩ := by
  obtain ⟨place, placed, leads⟩ := fact.pointee
  simp only [act, effect, leads]
  cases m.tick.arg g value with
  | error e => rfl
  | ok y =>
    have placed' : (m.tick.perform (.value y)).place g c.2 = .ok place := placed
    simp only [bind, Except.bind, pure, Except.pure, Effect.result?, destination, placed']
    unfold existing
    rw [show (m.tick.perform (.value y)).slot? place 0 = m.tick.slot? place 0 from rfl]
    cases m.tick.slot? place 0 with
    | none => rfl
    | some old => cases result <;> rfl

variable {q' : Quad}

/-- Only reads and writes through a known pointer are replaced. -/
theorem of_direct (found : direct? known q = some q') :
    (∃ c ∈ known, q.op = .deref c.1 ∧ q' = ⟨q.result, .assign (.var c.2)⟩) ∨
      ∃ c ∈ known, ∃ value, q.op = .derefStore c.1 value ∧ q' = ⟨some c.2, .assign value⟩ := by
  obtain ⟨result, op⟩ := q
  cases op with
  | deref p =>
    simp only [direct?] at found
    split at found
    · obtain ⟨x, listed, rfl⟩ := map_eq_some_iff.1 found
      exact .inl ⟨(p, x), mem_of_lookup listed, rfl, rfl⟩
    · cases found
  | derefStore p value =>
    obtain ⟨x, listed, rfl⟩ := map_eq_some_iff.1 found
    exact .inr ⟨(p, x), mem_of_lookup listed, value, rfl, rfl⟩
  | _ => cases found

/-- A pointer that is followed at once does what it did. -/
theorem direct_standsIn (facts : ∀ c ∈ known, Fact g c m) (found : direct? known q = some q') :
    m.StandsIn True strings g q q' := by
  rcases of_direct found with ⟨c, listed, op, rfl⟩ | ⟨c, listed, value, op, rfl⟩ <;>
    obtain ⟨result, _⟩ := q <;> obtain rfl := op
  · exact .act rfl rfl (.of_eq ((facts c listed).deref result))
  · exact .act rfl rfl (.of_eq ((facts c listed).derefStore result value))

/-! ## The table -/

/-- What is known after a quadruple was known before, or is the address that the quadruple takes. -/
theorem mem_after {known' : Known} (done : after vars memory known q = .ok known') (listed : c ∈ known') :
    (c ∈ known ∧ q.result ≠ some c.1) ∨ (q.result = some c.1 ∧ q.op = .address c.2 ∧ c.1 ∉ memory) := by
  unfold after at done
  split at done
  next result =>
    cases done
    exact .inl ⟨listed, by simp [result]⟩
  next r result =>
    have filtered (listed : c ∈ known.filter (·.1 ≠ r)) : c ∈ known ∧ q.result ≠ some c.1 := by
      simp only [List.mem_filter, ne_eq, decide_eq_true_eq] at listed
      exact ⟨listed.1, fun same => listed.2 (Option.some.inj (same.symm.trans result))⟩
    dsimp only at done
    split at done
    next x op =>
      simp only [bind_eq_ok, pure_eq_ok] at done
      obtain ⟨target, -, rfl⟩ := done
      split at listed
      next fits =>
        rcases List.mem_cons.1 listed with rfl | listed
        · exact .inr ⟨result, op, by simpa using (Bool.and_eq_true_iff.1 fits).2⟩
        · exact .inl (filtered listed)
      · exact .inl (filtered listed)
    · cases done
      exact .inl (filtered listed)

/-- The pass on one quadruple. -/
def quad (vars : Array Variable) (memory : VarSet) (known : Known) (q : Quad) : Quad × Known × Nat :=
  let r := (direct? known q).getD q
  (r, (after vars memory known r).toOption.getD [], 0)

/-- A quadruple that is replaced changes no private variable but for its result. -/
theorem top_of_direct (carries : m.Carries strings g q x n) (found : direct? known q = some q') {v : VarId}
    (hides : g.Private ∅ v) (other : q'.result ≠ some v) : n.top v = m.top v := by
  rcases of_direct found with ⟨c, -, op, rfl⟩ | ⟨c, -, value, op, rfl⟩
  · exact carries.top_of_ne hides other
  · -- Nothing is delivered to the result, so it does not matter that it gets lost.
    obtain ⟨e, done, valued⟩ := carries.yields (op ▸ rfl)
    obtain rfl : x = none := by
      rw [op] at done
      simp only [effect, bind_eq_ok, pure_eq_ok] at done
      obtain ⟨_, -, _, -, _, -, rfl⟩ := done
      exact valued.symm
    rw [carries.top v hides, none_or, ite_self]

/-- A quadruple that is replaced takes no address. -/
theorem op_of_direct (found : direct? known q = some q') : ∃ a, q'.op = .assign a := by
  rcases of_direct found with ⟨c, -, -, rfl⟩ | ⟨c, -, value, -, rfl⟩
  · exact ⟨.var c.2, rfl⟩
  · exact ⟨value, rfl⟩

theorem fact_of_address {r y : VarId} (carries : m.Carries strings g q x n) (result : q.result = some r)
    (op : q.op = .address y) (resident : r ∉ g.memoryResident) : Fact g (r, y) n := by
  obtain ⟨e, done, valued⟩ := carries.yields (by rw [op]; rfl)
  rw [op] at done
  simp only [effect, bind_eq_ok, pure_eq_ok, tick_place] at done
  obtain ⟨place, placed, rfl⟩ := done
  obtain rfl : some (.ptr place 0) = x := valued
  have hides : g.Private ∅ r := Graph.private_of_not_resident resident (carries.declared r result rfl)
  exact ⟨hides, place, (place_congr carries.size).trans placed, carries.top_result hides result⟩

theorem quad_facts (facts : ∀ c ∈ known, Fact g c m) (carries : m.Carries strings g q x n) :
    ∀ c ∈ (quad g.vars g.memoryResident known q).2.1, Fact g c n := by
  intro c listed
  unfold quad at listed
  dsimp only at listed
  cases done : after g.vars g.memoryResident known ((direct? known q).getD q) with
  | error e =>
    rw [done] at listed
    cases listed
  | ok known' =>
    rw [done] at listed
    rcases mem_after done listed with ⟨old, other⟩ | ⟨result, op, resident⟩
    · have fact := facts c old
      refine fact.kept carries.size ?_
      cases found : direct? known q with
      | none =>
        rw [found] at other
        exact carries.top_of_ne fact.hides other
      | some q' =>
        rw [found] at other
        exact top_of_direct carries found fact.hides other
    · cases found : direct? known q with
      | none =>
        rw [found] at result op
        exact fact_of_address carries result op resident
      | some q' =>
        obtain ⟨a, op'⟩ := op_of_direct found
        rw [found] at op
        cases op'.symm.trans op

end Pointers

/-! ## The pass -/

/-- The pass gives what it makes of each quadruple. -/
theorem body_eq {r : List Quad × Nat} (done : body vars memory known quads = .ok r) :
    r.1 = (transformBody (quad vars memory) known quads).1 := by
  induction quads generalizing known r with
  | nil =>
    cases done
    rfl
  | cons q rest ih =>
    rw [transformBody_cons]
    cases found : direct? known q <;>
      simp only [body, found, bind_eq_ok, pure_eq_ok] at done <;>
      obtain ⟨known', next, more, others, rfl⟩ := done <;>
      simp only [quad, found, next, Except.toOption, getD_some, getD_none, ih others]

theorem after_succeeds (vars : Array Variable) (memory : VarSet) (declared : ∀ x, q.op = .address x → x < vars.size)
    (known : Known) :
    ∃ known', after vars memory known q = .ok known' := by
  unfold after
  split
  · exact ⟨_, rfl⟩
  · dsimp only
    split
    next x op =>
      rw [Array.getElem?_eq_getElem (declared x op)]
      exact ⟨_, rfl⟩
    · exact ⟨_, rfl⟩

/-- The pass succeeds where every address is one of a variable in the table. -/
theorem body_succeeds (vars : Array Variable) (memory : VarSet)
    (declared : ∀ q ∈ quads, ∀ x, q.op = .address x → x < vars.size) (known : Known) :
    ∃ r, body vars memory known quads = .ok r := by
  induction quads generalizing known with
  | nil => exact ⟨_, rfl⟩
  | cons q rest ih =>
    obtain ⟨here, later⟩ := List.forall_mem_cons.1 declared
    cases found : direct? known q with
    | none =>
      obtain ⟨known', next⟩ := after_succeeds vars memory here known
      obtain ⟨r, others⟩ := ih later known'
      simp only [body, found, bind_eq_ok, pure_eq_ok]
      exact ⟨_, known', next, r, others, rfl⟩
    | some q' =>
      obtain ⟨a, op⟩ := op_of_direct found
      obtain ⟨known', next⟩ := after_succeeds vars memory (q := q') (by simp [op]) known
      obtain ⟨r, others⟩ := ih later known'
      simp only [body, found, bind_eq_ok, pure_eq_ok]
      exact ⟨_, known', next, r, others, rfl⟩

/-- The pass succeeds on a function whose variables are in its table, and goes through all of its blocks. -/
theorem graph_reworked (linked : g.Linked) (declared : g.Declared) : ∃ r, graph g = .ok r ∧ g.Reworked (fun _ x y => y =
      { x with body := (transformBody (quad g.vars g.memoryResident) [] x.body).1 }) g.layout r.1 := by
  refine foldlM_succeeds (fun done (r : Graph × Nat) => g.Reworked (fun _ x y => y =
    { x with body := (transformBody (quad g.vars g.memoryResident) [] x.body).1 }) done r.1) (.refl _ g) ?_
  intro done b rest r split before
  obtain ⟨laid, fresh⟩ := linked.fresh split
  have same : r.1.body b = g.body b := congrArg Block.body (before.others b fresh)
  obtain ⟨made, succeeded⟩ := body_succeeds g.vars g.memoryResident
    (fun q (inside : q ∈ g.body b) x op => (declared b laid).1 q inside x (by simp [Quad.uses, op, Op.base?])) []
  refine ⟨(r.1.setBody b made.1, r.2 + made.2), ?_, ?_⟩
  · simp only [before.alike.vars, same, succeeded, bind_eq_ok, pure_eq_ok, Except.ok.injEq, exists_eq_left']
  · refine before.modifyBlock (linked.lt_size laid) fresh ?_
    rw [body_eq succeeded]
    rfl

theorem graph_recasts (linked : g.Linked) (declared : g.Declared) (strings : StringPool) :
    ∃ r knows, graph g = .ok r ∧ g.Recasts strings (fun _ _ => True) knows r.1 := by
  obtain ⟨r, done, made⟩ := graph_reworked linked declared
  refine ⟨r, _, done, Graph.recasts_of_table (quad g.vars g.memoryResident) (Fact g) made.alike made.entry
    (fun b laid => ?_) (fun b laid m facts => ?_) (fun known m q _ facts _ => ?_)
    fun known m n q x => quad_facts⟩
  · exact congrArg Block.body (made.blocks b laid)
  · rw [show r.1.tail b = g.tail b from (congrArg Block.tail (made.blocks b laid) :)]
  · unfold quad
    cases found : direct? known q with
    | none => exact .refl ..
    | some q' => exact direct_standsIn facts found

/-- Following the known pointers of one function of a module succeeds if its variables are in its table, and
changes no run on which pointers lead only to globals and to variables whose address the owner of the frame
takes: it gives the same outcome or the same error. -/
theorem following_keeps_run {program : Module} {before after : List Graph} {w : Work}
    (listed : program.graphs = before ++ w.graph :: after) (linked : w.graph.Linked) (declared : w.graph.Declared)
    (stores : ∀ q ∈ w.graph.bodies, w.graph.StoresToMemory q) {entry : Label} {args : List Value} {input : List Int32}
    (confined : ∀ p, program.Comes entry args input p → p.Confined) :
    ∃ changed w', Gives pass w changed w' ∧
      Module.run { program with graphs := before ++ w'.graph :: after } entry args input =
        program.run entry args input := by
  obtain ⟨r, knows, done, recasts⟩ := graph_recasts linked declared program.strings
  have given : Gives pass w (decide (r.2 > 0)) ⟨r.1,
      { w.context with stats := w.context.stats.add "aliases.resolved" r.2 }, w.supply⟩ := by
    simp only [pass, gives_bind, gives_graph, gives_ofExcept, gives_setGraph, gives_count, gives_pure]
    exact ⟨_, _, ⟨rfl, rfl⟩, r, _, ⟨done, rfl⟩, (), _, rfl, (), _, rfl, rfl, rfl⟩
  exact ⟨_, _, given, recasts.run listed linked stores fun p comes => ⟨confined p comes, fun _ _ _ => trivial⟩⟩

/-- The function with its known pointers followed. -/
def resolved (f : Function) : Graph := (outcome pass ⟨f.graph, {}, {}⟩).2.graph

/-- Adds one to what the pointer it is given leads to, by way of a pointer of its own. -/
def bumping : Function where
  name := "bumping"
  vars := #[.declare "q" (.pointer .int) .param, .declare "t" .int .local]
  params := [0]
  quads := [
    ⟨some 1, .deref 0⟩,
    ⟨some 1, .binOp .add (.var 1) (.const (.int 1))⟩,
    .effect (.derefStore 0 (.var 1)),
    .effect (.ret none)]

/-- Stores to `x` and `y` through `p`, and to `p` through `pp`, over a call that changes `x` too. The
variables `x`, `y`, `p`, `q`, `pp` and `r` are 0 to 5. -/
def pointing : Function where
  name := "main"
  vars := #[.declare "x" .int .local, .declare "y" .int .local, .declare "p" (.pointer .int) .local,
    .declare "q" (.pointer .int) .local, .declare "pp" (.pointer (.pointer .int)) .local,
    .declare "r" .int .local]
  quads := [
    ⟨some 3, .address 0⟩,
    .effect (.derefStore 3 (.const (.int 4))),
    ⟨some 4, .address 2⟩,
    .effect (.derefStore 4 (.var 3)),
    .effect (.call "bumping" [.var 3]),
    ⟨some 5, .deref 3⟩,
    .effect (.print (.var 5)),
    ⟨some 3, .address 1⟩,
    .effect (.derefStore 3 (.var 5)),
    .effect (.derefStore 2 (.const (.int 7))),
    ⟨some 5, .deref 3⟩,
    .effect (.print (.var 0)),
    .effect (.ret (some (.var 5)))]

theorem pointing_keeps_run : (pointing.module [bumping]).run "main" [] [] = .ok ⟨some (.int 5), "57"⟩ ∧
      resolved pointing ≠ pointing.graph ∧
      Module.run { pointing.module [bumping] with graphs := [resolved pointing, bumping.graph] } "main" [] [] =
        .ok ⟨some (.int 5), "57"⟩ := by
  have ran : (pointing.module [bumping]).run "main" [] [] = .ok ⟨some (.int 5), "57"⟩ := by decide +kernel
  have confined : ∀ p ∈ (pointing.module [bumping]).trace "main" [] [], p.Confined := by decide +kernel
  have listed : (pointing.module [bumping]).graphs = [] ++ pointing.graph :: [bumping.graph] := rfl
  obtain ⟨_, w, given, same⟩ := following_keeps_run (w := ⟨pointing.graph, {}, {}⟩) listed
    (pointing.graph_linked rfl) (by decide +kernel) (by decide +kernel) fun p comes => confined p comes.mem_trace
  have final : w.graph = resolved pointing := (congrArg (·.2.graph) given).symm
  rw [final] at same
  exact ⟨ran, by decide +kernel, same.trans ran⟩

end Quadcode.Aliases
