import Quadcode.Proofs.Eval.Lockstep
import Quadcode.Proofs.Eval.Tracing
import Quadcode.Proofs.Flow.ConstantPoints
import Quadcode.Proofs.Graph.Edits
import Quadcode.Proofs.Optimizer.LocalEdits
import Quadcode.Proofs.Optimizer.Passes

/-!
# Constant folding keeps results

The folded function runs in lockstep with the original: at corresponding points the states are equal,
because an operand that was replaced has the value it was replaced by.
-/

namespace Quadcode

open List Option Machine PassM Problem Constants ConstantFolding

namespace ConstantFolding

variable {facts : Facts} {g g' : Graph} {m : Machine} {strings : StringPool} {a : Arg} {op : Op} {x : Value}
  {e : Effect} {sol : Solution Facts} {near : BlockMap Facts} {n : Counts}

/-! ## Operands -/

theorem arg_substitute (hold : facts.Hold g m) (valued : m.arg g a = .ok x) (defined : x ≠ .undef) :
    m.arg g (substitute facts a) = .ok x := by
  unfold substitute
  split
  next c known =>
    have const : (facts.ofArg a).const? = some c := by
      cases a <;> simp_all [known?, Facts.ofArg]
    rw [hold.arg const valued defined]
    rfl
  · exact valued

/-- Where the facts hold, an operand that is defined comes to what it is replaced by. -/
theorem covers_substitute {args : List Arg} (hold : facts.Hold g m) (defined : m.Defined g args) :
    ∀ a ∈ args, Covers False Eq (m.arg g a) (m.arg g (substitute facts a)) := by
  refine fun a member => ⟨fun x valued => ⟨x, arg_substitute hold valued ?_, rfl⟩, False.elim⟩
  rintro rfl
  exact defined a member valued

/-- An operation on constants has the effect of a constant. -/
theorem effect_value {c : Const} (folds : value? op = some c) (done : m.effect strings g op = .ok e) :
    m.effect strings g (.assign (.const c)) = .ok e := by
  cases op with
  | binOp op a b =>
    cases a <;> cases b <;> simp only [value?] at folds <;> try cases folds
    simp only [effect, arg, bind_eq_ok, pure_eq_ok, Except.ok.injEq,
      exists_eq_left', BinOp.apply_of_fold folds] at done ⊢
    exact done
  | unOp op a =>
    cases a <;> simp only [value?] at folds <;> try cases folds
    simp only [effect, arg, bind_eq_ok, pure_eq_ok, Except.ok.injEq,
      exists_eq_left', UnOp.apply_of_fold folds] at done ⊢
    exact done
  | cmp k a b =>
    cases a <;> cases b <;> simp only [value?] at folds <;> try cases folds
    obtain ⟨r, test, rfl⟩ := map_eq_some_iff.1 folds
    simp only [effect, arg, bind_eq_ok, pure_eq_ok, Except.ok.injEq,
      exists_eq_left', Comparison.apply_of_fold test] at done ⊢
    exact done
  | _ => cases folds

/-- A transformed quadruple has its operands replaced, and its operation too if it folds. -/
theorem quad_cases (facts : Facts) (q : Quad) : (quad facts q).1 = q.mapArgs (substitute facts) ∨
      ∃ c, value? (q.op.mapArgs (substitute facts)) = some c ∧ (quad facts q).1 = ⟨q.result, .assign (.const c)⟩ := by
  unfold quad
  simp only
  split
  · cases folds : value? (q.mapArgs (substitute facts)).op with
    | none => exact .inl rfl
    | some c => exact .inr ⟨c, folds, rfl⟩
  · exact .inl rfl

/-- A transformed quadruple does what it did. -/
theorem quad_standsIn {q : Quad} (hold : facts.Hold g m) (defined : m.Defined g q.op.args) :
    m.StandsIn False strings g q (quad facts q).1 := by
  have same := covers_substitute hold defined
  obtain mapped | ⟨c, folds, folded⟩ := quad_cases facts q
  · rw [mapped]
    exact .mapArgs same
  · rw [folded]
    have plain : q.op.isCall = false := by cases op : q.op <;> simp_all [Op.mapArgs, value?, Op.isCall]
    refine .act plain rfl (covers_act rfl ⟨fun e done => ?_, False.elim⟩)
    obtain ⟨_, replaced, rfl⟩ := (covers_effect (m := m.tick) same).ok e done
    exact ⟨e, effect_value folds replaced, rfl⟩

theorem covers_tail {t : Tail} (hold : facts.Hold g m) (defined : m.Defined g t.args) :
    Covers False Eq (m.next g t) (m.next g (tail facts t).1) := by
  refine ⟨fun r next => ⟨r, ?_, rfl⟩, False.elim⟩
  obtain ⟨_, replaced, rfl⟩ := (covers_next (covers_substitute hold defined)).ok r next
  unfold tail
  simp only
  split
  next c x y onTrue onFalse shape =>
    rw [shape] at replaced
    split
    next taken folds =>
      simp only [Machine.next, Machine.arg, bind_eq_ok, Except.ok.injEq, exists_eq_left',
        Comparison.apply_of_fold folds, pure_eq_ok] at replaced ⊢
      exact replaced
    · exact replaced
  next t shape => exact replaced

/-! ## The folded graph -/

/-- Every laid-out block has been transformed by the facts at its points. -/
structure Folded (near : BlockMap Facts) (g g' : Graph) : Prop where
  alike : g.Alike g'
  entry : g'.entry = g.entry
  body : ∀ b ∈ g.layout, ∀ i, (g'.body b)[i]? = (g.body b)[i]?.map fun q => (quad (factsAt g near b i) q).1
  tail : ∀ b ∈ g.layout, ∀ i, (g.body b)[i]? = none → g'.tail b = (tail (factsAt g near b i) (g.tail b)).1

theorem getElem?_body (g : Graph) (quads : List Quad) (start : Facts) (i : Nat) :
    (body quads ((problem g).pointsBefore quads start)).1[i]? =
      quads[i]?.map fun q => (quad (upTo g (quads.take i) start) q).1 := by
  induction quads generalizing start i with
  | nil => simp [body]
  | cons q rest ih =>
    cases i with
    | zero => simp [body, pointsBefore, upTo]
    | succ i =>
      simp only [body, pointsBefore, getElem?_cons_succ, take_succ_cons, ih]
      rfl

theorem getLastD_pointsBefore (g : Graph) (quads : List Quad) (start other : Facts) :
    ((problem g).pointsBefore quads start).getLastD other = upTo g quads start := by
  induction quads generalizing start other with
  | nil => rfl
  | cons q rest ih =>
    rw [pointsBefore, getLastD_cons, ih]
    rfl

theorem graph_reworked (linked : g.Linked) (folded : graph sol g = .ok (g', n)) :
    g.Reworked (fun b x y => ∃ start, sol.near[b]? = some start ∧
      y = (block ((problem g).pointsBefore x.body start) x).1) g.layout g' := by
  refine foldlM_ok (fun done (s : Graph × Counts) => g.Reworked _ done s.1) (.refl _ g) ?_ folded
  rintro done b rest ⟨h, k⟩ ⟨h', k'⟩ split before step
  obtain ⟨laid, fresh⟩ := linked.fresh split
  simp only [bind_eq_ok, pure_eq_ok, Prod.mk.injEq, points] at step
  obtain ⟨points, found, rfl, -⟩ := step
  simp only [problem, bind_eq_ok, orFault_eq_ok, pure_eq_ok] at found
  obtain ⟨start, found, rfl⟩ := found
  refine before.modifyBlock (linked.lt_size laid) fresh ⟨start, found, ?_⟩
  rw [Graph.body, before.others b fresh]
  rfl

theorem graph_folded (linked : g.Linked) (folded : graph sol g = .ok (g', n)) : Folded sol.near g g' := by
  have done := graph_reworked linked folded
  refine ⟨done.alike, done.entry, fun b member i => ?_, fun b member i ended => ?_⟩
  · obtain ⟨start, found, same⟩ := done.blocks b member
    rw [Graph.body, same]
    simp only [block, factsAt, found, getD_some]
    exact getElem?_body g (g.body b) start i
  · obtain ⟨start, found, same⟩ := done.blocks b member
    rw [Graph.tail, same]
    simp only [block, factsAt, found, getD_some, getLastD_pointsBefore,
      take_of_length_le (getElem?_eq_none_iff.1 ended)]
    rfl

theorem Folded.relink (folded : Folded near g g') : Folded near g g'.relink where
  alike := ⟨folded.alike.vars, folded.alike.params, folded.alike.name⟩
  entry := folded.entry
  body b member i := by rw [Graph.relink_body, folded.body b member i]
  tail b member i ended := by rw [Graph.relink_tail, folded.tail b member i ended]

/-- A successful pass without kept analyses folds by a solution for the graph it is given. -/
theorem pass_folded {w w' : Work} {changed : Bool} (linked : w.graph.Linked)
    (fresh : w.context.analyses.constants = none) (ran : Gives pass w changed w') :
    ∃ sol, w.graph.constants = .ok sol ∧ Folded sol.near w.graph w'.graph := by
  simp only [pass, gives_bind, gives_graph, gives_ofExcept, gives_setGraph, gives_count, gives_pure] at ran
  obtain ⟨sol, v, solved, _, _, ⟨rfl, rfl⟩, ⟨g', n⟩, _, ⟨folded, rfl⟩, _, _, rfl, _, _, rfl, _, _, rfl,
    _, _, rfl, -, rfl⟩ := ran
  obtain ⟨solved, same⟩ := gives_constants fresh solved
  rw [same] at folded
  refine ⟨sol, solved, ?_⟩
  have done := graph_folded linked folded
  change Folded sol.near w.graph (if n.branches > 0 then g'.relink else g')
  split
  · exact done.relink
  · exact done

/-! ## Lockstep -/

/-- The folded function does what it did wherever the facts hold and the operands are defined. -/
theorem Folded.mirrors (folded : Folded near g g') (strings : StringPool) :
    g.Mirrors False strings (fun p => Constants.TrueAt g near p ∧ p.OperandsDefined) g' where
  alike := folded.alike
  entry := folded.entry
  quad p q here holds next := by
    obtain ⟨member, hold⟩ := holds.1 here
    have defined := holds.2
    simp only [Point.OperandsDefined, Point.operands, next] at defined
    subst here
    refine ⟨_, ?_, quad_standsIn hold defined⟩
    rw [folded.body _ member, show (p.graph.body p.block)[p.index]? = some q from next]
    rfl
  tail p here holds ended := by
    obtain ⟨member, hold⟩ := holds.1 here
    have defined := holds.2
    simp only [Point.OperandsDefined, Point.operands, ended] at defined
    subst here
    have ended : (p.graph.body p.block)[p.index]? = none := ended
    rw [folded.body _ member, folded.tail _ member _ ended, ended]
    exact ⟨rfl, covers_tail (m := p.machine.tick) hold defined⟩

end ConstantFolding

/-- Folding the constants of one function of a module changes no successful run that reads no
undefined operand and follows pointers only to globals and to variables whose address the owner of
the frame takes, as long as every store in the function that hits one of its variables is followed
by facts that let the variable vary. -/
theorem folding_keeps_outcome {program : Module} {before after : List Graph} {w w' : Work}
    {changed : Bool} (listed : program.graphs = before ++ w.graph :: after)
    (linked : w.graph.Linked) (once : w.graph.NamesGlobalsOnce) (fresh : w.context.analyses = {})
    (folded : Gives pass w changed w') {entry : Label} {args : List Value}
    {input : List Int32} {outcome : Outcome} (ran : program.run entry args input = .ok outcome)
    (defined : ∀ p, program.Comes entry args input p → p.OperandsDefined)
    (confined : ∀ p, program.Comes entry args input p → p.Confined)
    (noticed : ∀ sol, w.graph.constants = .ok sol → ∀ p, program.Comes entry args input p →
      Constants.Noticed program w.graph sol.near p) :
    Module.run { program with graphs := before ++ w'.graph :: after } entry args input = .ok outcome := by
  have unanalysed : w.context.analyses.constants = none := by rw [fresh]
  obtain ⟨sol, solved, done⟩ := pass_folded linked unanalysed folded
  have equations := solveWithin_solves solved
  have holds : ∀ p, program.Comes entry args input p → Constants.TrueAt w.graph sol.near p := by
    rintro p ⟨m, h, frame, started, found, entered, visits⟩
    refine Constants.TrueAt.visits linked once equations visits (Point.framed_start started h frame)
      (trueAt_start linked equations entered [] m) fun r visits => ?_
    have comes : program.Comes entry args input r := ⟨m, h, frame, started, found, entered, visits⟩
    exact ⟨defined r comes, confined r comes, noticed sol solved r comes⟩
  obtain ⟨_, ran', rfl⟩ := ((done.mirrors program.strings).run listed fun p comes _ =>
    ⟨holds p comes, defined p comes⟩).ok outcome ran
  exact ran'

/-- The function after constant folding. -/
def Function.folded (f : Function) : Graph := (outcome pass ⟨f.graph, {}, {}⟩).2.graph

/-- Stores through the pointer it is given. -/
def poked : Function where
  name := "poked"
  vars := #[.declare "q" (.pointer .int) .param]
  params := [0]
  quads := [.effect (.derefStore 0 (.const (.int 7))), .effect (.ret none)]

/-- Stores to `x` through a pointer, lets another function do so, and adds the constant `k`. The
variables `x`, `p`, `k` and `r` are 0 to 3. -/
def poking : Function where
  name := "main"
  vars := #[.declare "x" .int .local, .declare "p" (.pointer .int) .local,
    .declare "k" .int .local, .declare "r" .int .local]
  quads := [
    ⟨some 2, .assign (.const (.int 3))⟩,
    ⟨some 0, .assign (.const (.int 1))⟩,
    ⟨some 1, .address 0⟩,
    .effect (.derefStore 1 (.var 2)),
    .effect (.print (.var 0)),
    .effect (.call "poked" [.var 1]),
    ⟨some 3, .binOp .add (.var 0) (.var 2)⟩,
    .effect (.ret (some (.var 3)))]

theorem poking_keeps_outcome : (poking.module [poked]).run "main" [] [] = .ok ⟨some (.int 10), "3"⟩ ∧
      poking.folded ≠ poking.graph ∧
      Module.run { poking.module [poked] with graphs := [poking.folded, poked.graph] } "main" [] [] =
        .ok ⟨some (.int 10), "3"⟩ := by
  have ran : (poking.module [poked]).run "main" [] [] = .ok ⟨some (.int 10), "3"⟩ := by
    decide +kernel
  have watched : ∀ p ∈ (poking.module [poked]).trace "main" [] [], p.OperandsDefined ∧ p.Confined := by
    decide +kernel
  have noticed : ∀ sol ∈ poking.graph.constants.toOption, ∀ p ∈ (poking.module [poked]).trace "main" [] [],
        Constants.Noticed (poking.module [poked]) poking.graph sol.near p := by
    decide +kernel
  have listed : (poking.module [poked]).graphs = [] ++ poking.graph :: [poked.graph] := rfl
  refine ⟨ran, by decide +kernel, ?_⟩
  exact folding_keeps_outcome (w := ⟨poking.graph, {}, {}⟩) listed (poking.graph_linked rfl)
    (by decide +kernel) rfl rfl ran
    (fun p comes => (watched p comes.mem_trace).1) (fun p comes => (watched p comes.mem_trace).2)
    (fun sol solved p comes => noticed sol (by rw [solved]; rfl) p comes.mem_trace)

/-- Stores to `x` with an indexed store on the pointer `p`, after which the pass still takes `x` for
1. The variables `x` and `p` are 0 and 1. -/
def indexing : Function where
  name := "main"
  vars := #[.declare "x" .int .local, .declare "p" (.pointer .int) .local]
  quads := [
    ⟨some 0, .assign (.const (.int 1))⟩,
    ⟨some 1, .address 0⟩,
    ⟨some 0, .assign (.const (.int 1))⟩,
    .effect (.store 1 (.const (.int 0)) (.const (.int 5))),
    .effect (.ret (some (.var 0)))]

/-- Without `Constants.Noticed` the outcome changes, however defined and confined the run is. -/
theorem indexing_loses_outcome : (∀ p ∈ (indexing.module []).trace "main" [] [], p.OperandsDefined ∧ p.Confined) ∧
      (indexing.module []).run "main" [] [] = .ok ⟨some (.int 5), ""⟩ ∧
      Module.run { indexing.module [] with graphs := [indexing.folded] } "main" [] [] = .ok ⟨some (.int 1), ""⟩ := by
  decide +kernel

end Quadcode
