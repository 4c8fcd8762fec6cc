import Quadcode.Proofs.Eval.Tracing
import Quadcode.Proofs.Optimizer.BlockTables
import Quadcode.Proofs.Optimizer.LoopPasses
import Quadcode.Proofs.Optimizer.Passes

/-!
# Copy propagation keeps every run

A variable in the table of copies and what it is a copy of are private and have one value, so reading the one
is reading the other. What a variable is a copy of is never a copy itself, so the code that comes out has
nothing left to replace.
-/

namespace Quadcode

open List Machine Quadcode.Graph

namespace CopyPropagation

variable {g : Graph} {copies : Copies} {q : Quad} {a : Arg}

/-! ## Copies hold -/

section Holding

variable {m n : Machine} {strings : StringPool} {x : Option Value} {c : VarId × Arg}

/-- The variable and what it is a copy of are private and have one value. -/
structure Fact (g : Graph) (c : VarId × Arg) (m : Machine) : Prop where
  hides : g.Private ∅ c.1
  source : ∀ v ∈ c.2.var?, g.Private ∅ v
  same : m.arg g (.var c.1) = m.arg g c.2

theorem Fact.kept (fact : Fact g c m) (passed : Machine.Passed ∅ g q x m n) (other : q.result ≠ some c.1)
    (others : ∀ v ∈ c.2.var?, q.result ≠ some v) : Fact g c n := by
  refine ⟨fact.hides, fact.source, ?_⟩
  have hides : ∀ v ∈ (Arg.var c.1).var?, g.Private ∅ v := by
    rintro v ⟨⟩
    exact fact.hides
  calc n.arg g (.var c.1) = m.arg g (.var c.1) := arg_congr_top hides <| by
        rintro v ⟨⟩
        exact passed.top_of_ne fact.hides other
    _ = m.arg g c.2 := fact.same
    _ = n.arg g c.2 := (arg_congr_top fact.source fun v named =>
        passed.top_of_ne (fact.source v named) (others v named)).symm

theorem arg_replace (facts : ∀ c ∈ copies, Fact g c m) (a : Arg) : m.arg g (replace copies a) = m.arg g a := by
  unfold replace
  cases found : copied? copies a with
  | none => rfl
  | some x =>
    obtain ⟨v, named, listed⟩ := Option.bind_eq_some_iff.1 found
    cases a with
    | var u =>
      cases named
      exact (facts _ (mem_of_lookup listed)).same.symm
    | const | str => cases named

variable {r : VarId}

theorem mem_forget : c ∈ forget copies r ↔ c ∈ copies ∧ c.1 ≠ r ∧ c.2.var? ≠ some r := by
  simp [forget]

variable (facts : ∀ c ∈ copies, Fact g c m)
include facts

theorem forget_facts (passed : Machine.Passed ∅ g q x m n) (result : q.result = some r) :
    ∀ c ∈ forget copies r, Fact g c n := by
  intro c listed
  obtain ⟨listed, other, others⟩ := mem_forget.1 listed
  refine (facts c listed).kept passed ?_ fun v named same => ?_
  · rw [result]
    exact fun same => other (Option.some.inj same).symm
  · exact others (named.trans (same.symm.trans result))

/-- A variable that was assigned another one, or a constant, is a copy. -/
theorem fact_of_assign (carries : m.Carries strings g q x n) (result : q.result = some r) (op : q.op = .assign a)
    (copy : isCopy g.memoryResident r (replace copies a)) : Fact g (r, replace copies a) n := by
  obtain ⟨e, done, valued⟩ := carries.yields (by rw [op]; rfl)
  rw [op] at done
  simp only [Machine.effect, bind_eq_ok, pure_eq_ok, tick_arg] at done
  obtain ⟨y, read, rfl⟩ := done
  obtain rfl : some y = x := valued
  rw [← arg_replace facts] at read
  generalize replace copies a = source at copy read
  simp only [isCopy, Bool.and_eq_true, decide_eq_true_eq] at copy
  have hides : g.Private ∅ r := private_of_not_resident copy.1 (carries.declared r result rfl)
  have foreign : ∀ v ∈ source.var?, v ≠ r ∧ g.Private ∅ v := by
    intro v named
    have kind := copy.2
    rw [named] at kind
    simp only [ne_eq, Bool.and_eq_true, decide_eq_true_eq] at kind
    exact ⟨kind.1, private_of_not_resident kind.2 (declared_of_arg read named)⟩
  refine ⟨hides, fun v named => (foreign v named).2, ?_⟩
  calc n.arg g (.var r) = .ok y := (varValue_of_top hides).2 (carries.top_result hides result)
    _ = m.arg g source := read.symm
    _ = n.arg g source := (arg_congr_top (fun v named => (foreign v named).2) fun v named =>
        carries.top_of_ne (foreign v named).2 fun same =>
          (foreign v named).1 (Option.some.inj (same.symm.trans result))).symm

theorem after_facts (carries : m.Carries strings g q x n) : ∀ c ∈ (quad g.memoryResident copies q).2.1, Fact g c n := by
  simp only [quad, after, Quad.mapArgs]
  cases result : q.result with
  | none =>
    exact fun c listed => (facts c listed).kept carries.toPassed (by simp [result]) (by simp [result])
  | some r =>
    have forgotten := forget_facts facts carries.toPassed result
    dsimp only
    split
    next source changed =>
      split
      next copy =>
        obtain ⟨a, op, rfl⟩ : ∃ a, q.op = .assign a ∧ replace copies a = source := by
          cases op : q.op with
          | ret x => cases x <;> simp [op, Op.mapArgs] at changed
          | assign a => exact ⟨a, rfl, by simpa [op, Op.mapArgs] using changed⟩
          | _ => simp [op, Op.mapArgs] at changed
        exact forall_mem_cons.2 ⟨fact_of_assign facts carries result op copy, forgotten⟩
      · exact forgotten
    · exact forgotten

end Holding

/-- Copy propagation recasts a function. -/
theorem graph_recasts (linked : g.Linked) (strings : StringPool) :
    ∃ knows, g.Recasts strings (fun _ _ => True) knows (graph g).1 := by
  have made := linked.transformBlocks (block g.memoryResident)
  refine ⟨_, recasts_of_table (quad g.memoryResident) (Fact g) made.alike made.entry
    (fun b laid => ?_) (fun b laid m facts => ?_) (fun copies m q _ facts _ => ?_)
    fun copies m n q x => after_facts⟩
  · exact congrArg Block.body (made.blocks b laid)
  · rw [show (graph g).1.tail b = _ from congrArg Block.tail (made.blocks b laid)]
    exact (covers_next (m := m.tick) fun a _ => .of_eq (arg_replace facts a)).eq
  · exact .mapArgs fun a _ => .of_eq (arg_replace facts a)

/-! ## Nothing is left to replace -/

section Again

variable {memory : VarSet}

/-- What a variable is a copy of is no copy itself. -/
def Normal (copies : Copies) : Prop := ∀ c ∈ copies, copied? copies c.2 = none

theorem copied?_eq_none : copied? copies a = none ↔ ∀ c ∈ copies, a.var? ≠ some c.1 := by
  unfold copied?
  cases a.var? with
  | none => simp
  | some v => simp [lookup_eq_none_iff]

theorem Normal.replace (normal : Normal copies) (a : Arg) : copied? copies (replace copies a) = none := by
  unfold CopyPropagation.replace
  cases found : copied? copies a with
  | none => exact found
  | some x =>
    obtain ⟨v, -, listed⟩ := Option.bind_eq_some_iff.1 found
    exact normal _ (mem_of_lookup listed)

theorem Normal.forget (normal : Normal copies) (r : VarId) : Normal (forget copies r) := by
  intro c listed
  refine copied?_eq_none.2 fun c' listed' => ?_
  exact copied?_eq_none.1 (normal c (mem_forget.1 listed).1) c' (mem_forget.1 listed').1

theorem Normal.after (normal : Normal copies) (settled : ∀ a ∈ q.op.args, copied? copies a = none) :
    Normal (after memory copies q) := by
  unfold CopyPropagation.after
  cases q.result with
  | none => exact normal
  | some r =>
    dsimp only
    split
    next x op =>
      split
      next copy =>
        rw [op] at settled
        have source := copied?_eq_none.1 (settled x (by simp [Op.args]))
        have foreign : x.var? ≠ some r := by
          intro same
          simp [isCopy, same] at copy
        refine forall_mem_cons.2 ⟨?_, fun c listed => ?_⟩ <;>
          refine copied?_eq_none.2 (forall_mem_cons.2 ⟨?_, fun c' listed' => ?_⟩)
        · exact foreign
        · exact source c' (mem_forget.1 listed').1
        · exact (mem_forget.1 listed).2.2
        · exact copied?_eq_none.1 (normal c (mem_forget.1 listed).1) c' (mem_forget.1 listed').1
      · exact normal.forget r
    · exact normal.forget r

/-- What has been replaced stays as it is. -/
theorem Normal.replaced (normal : Normal copies) (args : List Arg) :
    (args.map (CopyPropagation.replace copies)).countP (fun a => (copied? copies a).isSome) = 0 := by
  refine countP_eq_zero.2 fun a member => ?_
  obtain ⟨b, -, rfl⟩ := mem_map.1 member
  simp [normal.replace b]

theorem quad_again (memory : VarSet) (q : Quad) (normal : Normal copies) : quad memory copies (quad memory copies q).1 =
        ((quad memory copies q).1, (quad memory copies q).2.1, 0) ∧
      Normal (quad memory copies q).2.1 := by
  have nothing : (q.mapArgs (replace copies)).op.args.countP (fun a => (copied? copies a).isSome) = 0 := by
    rw [Quad.mapArgs, Op.args_mapArgs]
    exact normal.replaced _
  have same : (q.mapArgs (replace copies)).mapArgs (replace copies) = q.mapArgs (replace copies) :=
    (quad_eq_self nothing : (quad memory copies (q.mapArgs (replace copies))).1 = _)
  refine ⟨?_, normal.after fun a member => ?_⟩
  · simp only [quad, nothing, same]
  · simpa using countP_eq_zero.1 nothing a member

theorem body_again (memory : VarSet) (normal : Normal copies) (body : List Quad) :
    transformBody (quad memory) copies (transformBody (quad memory) copies body).1 =
        ((transformBody (quad memory) copies body).1, (transformBody (quad memory) copies body).2.1, 0) ∧
      Normal (transformBody (quad memory) copies body).2.1 := by
  induction body generalizing copies with
  | nil => exact ⟨rfl, normal⟩
  | cons q rest ih =>
    obtain ⟨here, normal'⟩ := quad_again memory q normal
    obtain ⟨later, normal''⟩ := ih normal'
    rw [transformBody_cons]
    dsimp only
    rw [transformBody_cons, here]
    dsimp only
    rw [later]
    exact ⟨rfl, normal''⟩

theorem block_again (memory : VarSet) (b : Block) : block memory (block memory b).1 = ((block memory b).1, 0) := by
  have blank : Normal [] := fun c listed => by cases listed
  obtain ⟨body, normal⟩ := body_again memory blank b.body
  have nothing := normal.replaced b.tail.args
  rw [← Tail.args_mapArgs] at nothing
  have tail := Tail.mapArgs_eq_self (replaced_eq_self replace_eq_self nothing)
  simp only [block, body, nothing, tail]

end Again

/-- The same addresses are taken. -/
theorem body_takes (memory : VarSet) (copies : Copies) (v : VarId) (body : List Quad) :
    (∃ q ∈ (transformBody (quad memory) copies body).1, q.op = .address v) ↔ ∃ q ∈ body, q.op = .address v := by
  have kept (copies : Copies) (q : Quad) : (quad memory copies q).1.op = .address v ↔ q.op = .address v := by
    simp only [quad, Quad.mapArgs]
    cases q.op with
    | ret x => cases x <;> simp [Op.mapArgs]
    | _ => simp [Op.mapArgs]
  induction body generalizing copies with
  | nil => rfl
  | cons q rest ih =>
    rw [transformBody_cons]
    simp only [mem_cons, exists_eq_or_imp, kept, ih]

theorem graph_memoryResident (linked : g.Linked) : (graph g).1.memoryResident = g.memoryResident := by
  have made := linked.transformBlocks (block g.memoryResident)
  have taken (v : VarId) : v ∈ (graph g).1.addressTaken ↔ v ∈ g.addressTaken := by
    have inside (h : Graph) : v ∈ h.addressTaken ↔ ∃ b ∈ h.layout, ∃ q ∈ h.body b, q.op = .address v := by
      rw [mem_addressTaken, Graph.bodies]
      simp only [mem_flatMap]
      grind
    rw [inside, inside, show (graph g).1.layout = g.layout from made.layout]
    refine exists_congr fun b => and_congr_right fun laid => ?_
    rw [show (graph g).1.body b = _ from congrArg Block.body (made.blocks b laid)]
    exact body_takes g.memoryResident [] v (g.body b)
  refine Std.ExtTreeSet.ext_mem fun v => ?_
  rw [mem_memoryResident, mem_memoryResident, taken, show (graph g).1.vars = g.vars from made.alike.vars]

/-- Copy propagation has nothing to do on its own result. -/
theorem graph_again (linked : g.Linked) : graph (graph g).1 = ((graph g).1, 0) := by
  have made := linked.transformBlocks (block g.memoryResident)
  rw [graph, graph_memoryResident linked]
  refine transformBlocks_eq_self fun b laid => ?_
  rw [show (graph g).1.layout = g.layout from made.layout] at laid
  rw [show (graph g).1.block b = _ from made.blocks b laid]
  exact block_again g.memoryResident (g.block b)

/-- What the pass does to the work at hand. -/
theorem gives_pass {w w' : Work} {changed : Bool} : Gives pass w changed w' ↔
    changed = decide ((graph w.graph).2 > 0) ∧ w' = ⟨(graph w.graph).1,
      { w.context with stats := w.context.stats.add "copy_prop.replaced" (graph w.graph).2 }, w.supply⟩ := by
  have ran : outcome pass w = (.ok (decide ((graph w.graph).2 > 0)), ⟨(graph w.graph).1,
      { w.context with stats := w.context.stats.add "copy_prop.replaced" (graph w.graph).2 }, w.supply⟩) :=
    rfl
  simp [Gives, ran, eq_comm]

/-- Copy propagation in one function of a module changes no run on which pointers lead only to globals and to
variables whose address the owner of the frame takes: it gives the same outcome or the same error. Another
time it finds nothing to do. -/
theorem copying_keeps_run {program : Module} {before after : List Graph} {w : Work}
    (listed : program.graphs = before ++ w.graph :: after) (linked : w.graph.Linked)
    (stores : ∀ q ∈ w.graph.bodies, w.graph.StoresToMemory q) {entry : Label} {args : List Value} {input : List Int32}
    (confined : ∀ p, program.Comes entry args input p → p.Confined) :
    ∃ changed w', Gives pass w changed w' ∧
      Module.run { program with graphs := before ++ w'.graph :: after } entry args input =
        program.run entry args input ∧
      ∀ again, again.graph = w'.graph → ∃ w'', Gives pass again false w'' ∧ w''.graph = w'.graph := by
  refine ⟨_, _, gives_pass.2 ⟨rfl, rfl⟩, ?_, fun again same => ?_⟩
  · obtain ⟨knows, recasts⟩ := graph_recasts linked program.strings
    exact recasts.run listed linked stores fun p comes => ⟨confined p comes, fun _ _ _ => trivial⟩
  · dsimp only at same ⊢
    have settled : graph again.graph = (again.graph, 0) := by
      rw [same]
      exact graph_again linked
    refine ⟨_, gives_pass.2 ⟨?_, rfl⟩, ?_⟩
    · rw [settled]
      rfl
    · rw [settled, same]

/-- The function with its copies propagated. -/
def propagated (f : Function) : Graph := (graph f.graph).1

/-- Doubles what the pointer it is given leads to. -/
def doubling : Function where
  name := "doubling"
  vars := #[.declare "q" (.pointer .int) .param, .declare "t" .int .local, .declare "u" .int .local]
  params := [0]
  quads := [
    ⟨some 1, .deref 0⟩,
    ⟨some 2, .assign (.var 1)⟩,
    ⟨some 1, .binOp .add (.var 1) (.var 2)⟩,
    .effect (.derefStore 0 (.var 1)),
    .effect (.ret none)]

/-- Copies to and fro, over a store through `p` to `x`, a call that changes `x` too, and changes of what was
copied. The variables `a`, `b`, `c`, `x` and `p` are 0 to 4. -/
def shuffling : Function where
  name := "main"
  vars := #[.declare "a" .int .local, .declare "b" .int .local, .declare "c" .int .local,
    .declare "x" .int .local, .declare "p" (.pointer .int) .local]
  quads := [
    ⟨some 0, .assign (.const (.int 1))⟩,
    ⟨some 1, .assign (.var 0)⟩,
    ⟨some 4, .address 3⟩,
    ⟨some 2, .binOp .add (.var 1) (.const (.int 2))⟩,
    .effect (.derefStore 4 (.var 2)),
    ⟨some 0, .assign (.var 2)⟩,
    ⟨some 1, .assign (.var 0)⟩,
    .effect (.call "doubling" [.var 4]),
    ⟨some 2, .assign (.var 3)⟩,
    .effect (.print (.var 0)),
    ⟨some 0, .assign (.var 1)⟩,
    ⟨some 1, .binOp .mul (.var 0) (.var 2)⟩,
    .effect (.print (.var 0)),
    .effect (.ret (some (.var 1)))]

theorem shuffling_keeps_run : (shuffling.module [doubling]).run "main" [] [] = .ok ⟨some (.int 18), "33"⟩ ∧
      propagated shuffling ≠ shuffling.graph ∧
      Module.run { shuffling.module [doubling] with graphs := [propagated shuffling, doubling.graph] }
        "main" [] [] = .ok ⟨some (.int 18), "33"⟩ ∧
      ∃ w, Gives pass ⟨propagated shuffling, {}, {}⟩ false w := by
  have ran : (shuffling.module [doubling]).run "main" [] [] = .ok ⟨some (.int 18), "33"⟩ := by decide +kernel
  have confined : ∀ p ∈ (shuffling.module [doubling]).trace "main" [] [], p.Confined := by decide +kernel
  have listed : (shuffling.module [doubling]).graphs = [] ++ shuffling.graph :: [doubling.graph] := rfl
  obtain ⟨_, _, given, same, again⟩ := copying_keeps_run (w := ⟨shuffling.graph, {}, {}⟩) listed
    (shuffling.graph_linked rfl) (by decide +kernel) fun p comes => confined p comes.mem_trace
  obtain ⟨-, rfl⟩ := gives_pass.1 given
  obtain ⟨w, settled, -⟩ := again ⟨propagated shuffling, {}, {}⟩ rfl
  exact ⟨ran, by decide +kernel, same.trans ran, w, settled⟩

end CopyPropagation

end Quadcode
