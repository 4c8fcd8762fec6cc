import Quadcode.Proofs.Optimizer.Invariants
import Quadcode.Proofs.Optimizer.Passes

/-!
# Passes that find nothing to do

What a pass does depends on the graph, the configuration, the loops that have been unrolled in part, and
the analyses, which say nothing but what the graph says. If it reports no change, it has made none, and
it will report the same whenever it sees the same.
-/

namespace Quadcode

open PassM

variable {v : View} {w : Work}

/-- What passes look at. -/
structure View where
  graph : Graph
  config : Config
  unrolled : List Label

namespace Work

/-- The work is seen as `v`, and its kept analyses say the same as new ones. -/
structure Shows (v : View) (w : Work) : Prop where
  graph : w.graph = v.graph
  config : w.context.config = v.config
  unrolled : w.context.unrolled = v.unrolled
  current : w.context.analyses.Match v.graph

def view (w : Work) : View := ⟨w.graph, w.context.config, w.context.unrolled⟩

theorem Coherent.shows {old : Context} (coherent : w.Coherent old) : w.Shows w.view :=
  ⟨rfl, rfl, rfl, coherent.current⟩

theorem Shows.coherent (shows : w.Shows v) : w.Coherent w.context :=
  ⟨shows.graph ▸ shows.current, rfl, fun _ => .inl⟩

end Work

/-- Wherever it is seen as `v`, a stage gives `a`, and leaves what is seen as it is. -/
def Settles {α : Type} (x : PassM α) (v : View) (a : α) : Prop := ∀ w, w.Shows v → ∃ w', Gives x w a w' ∧ w'.Shows v

variable {d : Dominators} {name : String} {w' : Work}

section

variable {α β : Type} {x : PassM α} {f : α → PassM β} {a : α} {b : β} {e : Except Failure α}

namespace Settles

theorem shows (settles : Settles x v a) (shows : w.Shows v) (given : Gives x w a w') : w'.Shows v := by
  obtain ⟨w'', again, shows'⟩ := settles w shows
  exact (given.unique again).2 ▸ shows'

theorem bind (first : Settles x v a) (rest : Settles (f a) v b) : Settles (x >>= f) v b := by
  intro w shows
  obtain ⟨w₁, one, shows₁⟩ := first w shows
  obtain ⟨w₂, two, shows₂⟩ := rest w₁ shows₁
  exact ⟨w₂, gives_bind.2 ⟨a, w₁, one, two⟩, shows₂⟩

theorem pure (a : α) : Settles (pure a) v a := fun w shows => ⟨w, gives_pure.2 ⟨rfl, rfl⟩, shows⟩

theorem ofExcept (done : e = .ok a) : Settles (PassM.ofExcept e) v a := by
  subst done
  exact .pure a

theorem graph : Settles graph v v.graph := fun w shows => ⟨w, shows.graph ▸ rfl, shows⟩

theorem config : Settles config v v.config := fun w shows => ⟨w, shows.config ▸ rfl, shows⟩

theorem setGraph : Settles (setGraph v.graph) v () := fun _ shows =>
  ⟨_, rfl, rfl, shows.config, shows.unrolled, shows.current⟩

theorem count (name : String) (n : Nat) : Settles (count name n) v () := fun _ shows =>
  ⟨_, rfl, shows.graph, shows.config, shows.unrolled, shows.current⟩

/-! ## Analyses -/

theorem analysis {kind : α → Analysis} {kept? : Analyses → Option α} {keep : α → Analyses → Analyses}
    (known : ∀ as : Analyses, as.Match v.graph → ∀ c, kept? as = some c → c = a) (computes : Settles x v a)
    (keeps : ∀ as : Analyses, as.Match v.graph → (keep a as).Match v.graph) :
    Settles (analysis kind kept? keep x) v a := by
  have found : Settles (.keptOr kept? keep x) v a := by
    intro w shows
    rw [keptOr]
    cases kept : kept? w.context.analyses with
    | some c =>
      obtain rfl := known _ shows.current c kept
      exact ⟨w, by simp [kept], shows⟩
    | none =>
      obtain ⟨w', computed, shows'⟩ := computes w shows
      refine ⟨{ w' with context := { w'.context with analyses := keep a w'.context.analyses } }, ?_,
        shows'.graph, shows'.config, shows'.unrolled, keeps _ shows'.current⟩
      simp only [gives_bind, gives_get]
      refine ⟨w, w, ⟨rfl, rfl⟩, ?_⟩
      simp only [kept, gives_bind, gives_pure]
      exact ⟨a, w', computed, (), _, rfl, rfl, rfl⟩
  exact found.bind fun w shows =>
    ⟨{ w with context := { w.context with given := ⟨w.graph, kind a⟩ :: w.context.given } }, rfl, shows.graph,
      shows.config, shows.unrolled, shows.current⟩

theorem dominators (computed : v.graph.dominators = .ok d) : Settles dominators v d := by
  refine analysis (fun as current c kept => ?_) (graph.bind (ofExcept computed)) fun as current => ?_
  · exact Except.ok.inj ((current.dominators c kept).symm.trans computed)
  · exact ⟨fun d' kept => Option.some.inj kept ▸ computed, current.loops, current.liveness, current.constants⟩

theorem loops (computed : v.graph.dominators = .ok d) : Settles loops v (Loops.detect v.graph d) := by
  refine analysis (fun as current c kept => ?_) ((dominators computed).bind (graph.bind (pure _)))
    fun as current => ?_
  · obtain ⟨d', computed', same⟩ := current.loops c kept
    rw [same, Except.ok.inj (computed'.symm.trans computed)]
  · exact ⟨current.dominators, fun l kept => Option.some.inj kept ▸ ⟨d, computed, rfl⟩, current.liveness,
      current.constants⟩

theorem liveness {s : Solution VarSet} (computed : v.graph.liveness = .ok s) : Settles liveness v s := by
  refine analysis (fun as current c kept => ?_) (graph.bind (ofExcept computed)) fun as current => ?_
  · exact Except.ok.inj ((current.liveness c kept).symm.trans computed)
  · exact ⟨current.dominators, current.loops, fun s' kept => Option.some.inj kept ▸ computed, current.constants⟩

theorem constants {s : Solution Facts} (computed : v.graph.constants = .ok s) : Settles constants v s := by
  refine analysis (fun as current c kept => ?_) (graph.bind (ofExcept computed)) fun as current => ?_
  · exact Except.ok.inj ((current.constants c kept).symm.trans computed)
  · exact ⟨current.dominators, current.loops, current.liveness, fun s' kept => Option.some.inj kept ▸ computed⟩

end Settles

/-- A stage that gives `a` somewhere where `v` is seen settles there. -/
def Steady {α : Type} (x : PassM α) (v : View) (a : α) : Prop := ∀ w w', w.Shows v → Gives x w a w' → Settles x v a

namespace Steady

theorem never (none : ∀ {w w'}, ¬Gives x w a w') : Steady x v a := fun _ _ _ given => (none given).elim

theorem pure (a c : α) : Steady (pure a) v c := fun _ _ _ given => (gives_pure.1 given).1 ▸ Settles.pure a

/-- The first stage gives the same whenever the second one gives `b`. -/
theorem through (only : ∀ {c w w'}, Gives (f c) w b w' → c = a) (first : Steady x v a) (rest : Steady (f a) v b) :
    Steady (x >>= f) v b := by
  intro w w' shows given
  obtain ⟨c, w₁, one, two⟩ := gives_bind.1 given
  obtain rfl := only two
  have settled := first _ _ shows one
  exact settled.bind (rest _ _ (settled.shows shows one) two)

theorem bind (first : ∀ a, Steady x v a) (rest : ∀ a, Steady (f a) v b) : Steady (x >>= f) v b := by
  intro w w' shows given
  obtain ⟨a, w₁, one, two⟩ := gives_bind.1 given
  have settled := first a _ _ shows one
  exact settled.bind (rest a _ _ (settled.shows shows one) two)

theorem after (first : Settles x v a) (rest : Steady (f a) v b) : Steady (x >>= f) v b := by
  intro w w' shows given
  obtain ⟨w₁, one, shows₁⟩ := first w shows
  obtain ⟨c, w₂, again, two⟩ := gives_bind.1 given
  obtain ⟨rfl, rfl⟩ := one.unique again
  exact first.bind (rest _ _ shows₁ two)

theorem ofExcept (rest : ∀ a, e = .ok a → Steady (f a) v b) : Steady (PassM.ofExcept e >>= f) v b := by
  intro w w' shows given
  simp only [gives_bind, gives_ofExcept] at given
  obtain ⟨a, _, ⟨done, rfl⟩, given⟩ := given
  exact (Settles.ofExcept done).bind (rest a done _ _ shows given)

/-- What is read from the work is the same wherever `v` is seen. -/
theorem get {f : Work → PassM β} (same : ∀ w w', w.Shows v → w'.Shows v → f w = f w')
    (rest : ∀ w, w.Shows v → Steady (f w) v b) : Steady (MonadState.get >>= f) v b := by
  intro w w' shows given w₁ shows₁
  simp only [gives_bind, gives_get] at given
  obtain ⟨_, _, ⟨rfl, rfl⟩, given⟩ := given
  obtain ⟨w₂, again, shows₂⟩ := rest _ shows _ _ shows given w₁ shows₁
  rw [same _ _ shows shows₁] at again
  exact ⟨w₂, gives_bind.2 ⟨w₁, w₁, gives_get.2 ⟨rfl, rfl⟩, again⟩, shows₂⟩

theorem setGraph {h : Graph} {y : PassM β} (same : ∀ {w w'}, Gives y w b w' → h = v.graph) (rest : Steady y v b) :
    Steady (setGraph h >>= fun _ => y) v b := by
  intro w w' shows given
  obtain ⟨_, _, -, later⟩ := gives_bind.1 given
  obtain rfl := same later
  exact after Settles.setGraph rest _ _ shows given

/-- A pass that counts what another stage has done. -/
theorem report {x : PassM Nat} (still : Steady x v 0) :
    Steady (do let n ← x; count name n; return decide (n > 0)) v false := by
  refine .through (fun given => ?_) still (.after (.count _ _) (.pure _ _))
  obtain ⟨_, _, -, given⟩ := gives_bind.1 given
  simpa using (gives_pure.1 given).1.symm

/-! ## Analyses -/

theorem analysis (kind : α → Analysis) (asks : ∀ {w : Work} {old}, w.Coherent old →
      Ensures x w (fun a w' => (kind a).Of w.graph ∧ PassM.Asked old w w') (PassM.Refused old w))
    (settles : ∀ a, (kind a).Of v.graph → Settles x v a) (rest : ∀ a, (kind a).Of v.graph → Steady (f a) v b) :
    Steady (x >>= f) v b := by
  intro w w' shows given
  obtain ⟨a, w₁, one, two⟩ := gives_bind.1 given
  have right := ((asks shows.coherent).of_gives one).1
  rw [shows.graph] at right
  have settled := settles a right
  exact settled.bind (rest a right _ _ (settled.shows shows one) two)

theorem dominators {f : Dominators → PassM β} (rest : ∀ d, v.graph.dominators = .ok d → Steady (f d) v b) :
    Steady (dominators >>= f) v b := .analysis .dominators ensures_dominators (fun _ => .dominators) rest

theorem loops {f : Loops → PassM β} (rest : ∀ ls, Steady (f ls) v b) : Steady (loops >>= f) v b :=
  .analysis .loops ensures_loops (fun _ ⟨_, computed, same⟩ => same ▸ .loops computed) fun ls _ => rest ls

theorem liveness {f : Solution VarSet → PassM β} (rest : ∀ s, v.graph.liveness = .ok s → Steady (f s) v b) :
    Steady (liveness >>= f) v b := .analysis .liveness ensures_liveness (fun _ => .liveness) rest

theorem constants {f : Solution Facts → PassM β} (rest : ∀ s, v.graph.constants = .ok s → Steady (f s) v b) :
    Steady (constants >>= f) v b := .analysis .constants ensures_constants (fun _ => .constants) rest

end Steady

end

/-! ## Passes within a block -/

/-- A pass that edits the whole graph at once and counts what it changes. -/
def PassM.editing (name : String) (edit : Graph → Except Failure (Graph × Nat)) : PassM Bool := do
  let (g, n) ← ofExcept (edit (← graph))
  setGraph g
  count name n
  return n > 0

theorem Steady.editing (edit : Graph → Except Failure (Graph × Nat))
    (same : ∀ h, edit v.graph = .ok (h, 0) → h = v.graph) : Steady (PassM.editing name edit) v false := by
  refine .after .graph (.ofExcept fun ⟨h, n⟩ done => .setGraph (fun given => ?_) (.after (.count _ _) (.pure _ _)))
  obtain ⟨_, _, -, given⟩ := gives_bind.1 given
  obtain rfl : n = 0 := by simpa using (gives_pure.1 given).1.symm
  exact same h done

theorem Steady.rewriting {edit : Graph → Graph × Nat} (edited : v.graph.Edited (edit v.graph).1 (edit v.graph).2) :
    Steady (PassM.editing name (.ok <| edit ·)) v false := by
  refine .editing _ fun h done => ?_
  rw [Except.ok.inj done] at edited
  exact edited.same rfl

theorem CopyPropagation.steady : Steady pass v false := .rewriting (graph_edited v.graph)

theorem CommonSubexpressions.steady : Steady pass v false := .rewriting (graph_edited v.graph)

theorem Aliases.steady : Steady pass v false := .editing graph fun _ done => (graph_edited done).same rfl

theorem DeadCode.steady : Steady pass v false := by
  refine .liveness fun live _ => .after .graph (.ofExcept fun ⟨h, n, k⟩ done => .setGraph (fun given => ?_)
    (.after (.count _ _) (.pure _ _)))
  obtain ⟨_, _, -, given⟩ := gives_bind.1 given
  exact (graph_edited done).same (by simpa using (gives_pure.1 given).1.symm)

/-! ## Passes that change edges -/

theorem ConstantFolding.steady : Steady pass v false := by
  refine .constants fun facts _ => .after .graph (.ofExcept fun ⟨h, n⟩ done => .setGraph (fun given => ?_)
    (.after (.count _ _) (.after (.count _ _) (.after (.count _ _) (.pure _ _)))))
  simp only [gives_bind, gives_pure] at given
  obtain ⟨_, _, -, _, _, -, _, _, -, none, -⟩ := given
  have none : n.substituted + n.folded + n.branches = 0 := by simpa using none.symm
  have undecided : n.branches = 0 := by omega
  rw [if_neg (by omega), (graph_edited done undecided).same (by omega)]

theorem JumpSkipping.steady : Steady pass v false := by
  refine .dominators fun d _ => .after .graph ?_
  dsimp only
  refine .setGraph (fun given => ?_) (.after (.count _ _) (.pure _ _))
  obtain ⟨_, _, -, given⟩ := gives_bind.1 given
  have none : (graph d v.graph).2 = 0 := by simpa using (gives_pure.1 given).1.symm
  rw [none, if_neg (lt_irrefl 0), graph_eq_self none]

theorem BlockMerging.steady : Steady pass v false := by
  refine .editing graph fun h done => ?_
  obtain ⟨-, -, same⟩ := mergeAll_ok (fun _ => True) (fun _ _ _ _ _ => trivial) trivial done
  exact same rfl

/-! ## Passes on loops -/

variable {memory : VarSet} {fuel n : Nat} {l : Loop}

namespace InvariantMotion

variable {visited : List Label}

theorem hoist_steady : Steady (hoist memory l) v 0 := by
  refine .dominators fun d _ => .liveness fun live _ => .after .graph (.ofExcept fun spots _ => ?_)
  by_cases none : spots = []
  · subst none
    exact .pure _ _
  · refine .never fun given => none (List.length_eq_zero_iff.1 ?_)
    simp only [List.isEmpty_iff, none, if_false, gives_bind] at given
    obtain ⟨⟨pre, isNew⟩, _, -, given⟩ := given
    cases isNew with
    | true =>
      simp only [if_true, gives_bind, gives_pure] at given
      obtain ⟨_, _, -, _, _, -, _, _, -, _, _, -, length, -⟩ := given
      exact length.symm
    | false =>
      simp only [Bool.false_eq_true, if_false, gives_bind, gives_pure] at given
      obtain ⟨_, _, -, _, _, -, length, -⟩ := given
      exact length.symm

/-- What was moved stays counted. -/
theorem le_visitLoops {total : Nat} (given : Gives (visitLoops memory fuel visited total) w n w') : total ≤ n := by
  induction fuel generalizing visited total w with (
    rw [visitLoops] at given
    simp only [gives_bind] at given
    obtain ⟨_, _, -, _, _, -, given⟩ := given
    split at given
    · exact (gives_pure.1 given).1.ge)
  | zero => exact (not_gives_throw given).elim
  | succ fuel ih =>
    obtain ⟨k, _, -, given⟩ := gives_bind.1 given
    have := ih given
    omega

theorem visitLoops_steady : Steady (visitLoops memory fuel visited 0) v 0 := by
  induction fuel generalizing visited with (
    rw [visitLoops]
    refine .loops fun ls => .after .graph ?_
    split
    · exact .pure _ _)
  | zero => exact .never not_gives_throw
  | succ fuel ih =>
    -- The count only grows, so nothing has been moved out of this loop either.
    refine .through (fun given => ?_) hoist_steady ih
    have := le_visitLoops given
    omega

theorem steady : Steady pass v false := .after .graph (.report visitLoops_steady)

end InvariantMotion

namespace Unswitching

theorem le_search {count : Nat} (given : Gives (search memory fuel count) w n w') : count ≤ n := by
  induction fuel generalizing count w with (
    rw [search] at given
    simp only [gives_bind] at given
    obtain ⟨_, _, -, _, _, -, _, _, -, given⟩ := given
    split at given
    · exact (gives_pure.1 given).1.ge)
  | zero => exact (not_gives_throw given).elim
  | succ fuel ih =>
    obtain ⟨_, _, -, given⟩ := gives_bind.1 given
    exact Nat.le_of_succ_le (ih given)

theorem search_steady : Steady (search memory fuel 0) v 0 := by
  rw [search]
  refine .loops fun ls => .after .config (.after .graph ?_)
  split
  · exact .pure _ _
  · cases fuel with
    | zero => exact .never not_gives_throw
    | succ fuel =>
      -- A loop that was unswitched would have been counted.
      refine .never fun given => ?_
      obtain ⟨_, _, -, given⟩ := gives_bind.1 given
      exact absurd (le_search given) (by omega)

theorem steady : Steady pass v false := .after .graph (.report search_steady)

end Unswitching

namespace Unrolling

/-- Counting the runs of a loop changes nothing. -/
theorem analyze_steady {limit : Nat} (counted : Option Counted) : Steady (analyze l limit) v counted := by
  unfold analyze
  refine .after .graph ?_
  split
  · exact .pure _ _
  · refine .constants fun facts _ => .ofExcept fun start _ => ?_
    cases start <;> exact .pure _ _

theorem unrollPartially_steady : Steady (unrollPartially l) v none := by
  unfold unrollPartially
  refine .get (fun w w' shows shows' => ?_) fun w shows => ?_
  · rw [shows.graph, shows.config, shows.unrolled, shows'.graph, shows'.config, shows'.unrolled]
  · dsimp only
    split
    · exact .pure _ _
    · refine .bind analyze_steady fun counted => ?_
      cases counted with
      | none => exact .pure _ _
      | some c =>
        dsimp only
        split
        · exact .pure _ _
        · refine .never fun given => ?_
          simp only [gives_bind, gives_pure] at given
          obtain ⟨_, _, -, _, _, -, impossible, -⟩ := given
          cases impossible

theorem unroll_steady : Steady (unroll l) v none := by
  unfold unroll
  refine .after .config (.bind analyze_steady fun counted => ?_)
  cases counted with
  | none => exact unrollPartially_steady
  | some c =>
    refine .after .graph ?_
    split
    · refine .never fun given => ?_
      simp only [gives_bind, gives_pure] at given
      obtain ⟨_, _, -, _, _, -, impossible, -⟩ := given
      cases impossible
    · exact unrollPartially_steady

theorem unrollFirst_steady {ls : List Loop} : Steady (unrollFirst ls) v none := by
  induction ls with
  | nil => exact .pure _ _
  | cons l rest ih =>
    refine .through (fun {extent} _ _ given => ?_) unroll_steady ih
    cases extent with
    | some extent => cases (gives_pure.1 given).1
    | none => rfl

theorem le_search {complete part : Nat} {n : Nat × Nat} (given : Gives (search fuel complete part) w n w') :
    complete + part ≤ n.1 + n.2 := by
  induction fuel generalizing complete part w with (
    rw [search] at given
    simp only [gives_bind] at given
    obtain ⟨_, _, -, extent, _, -, given⟩ := given)
  | zero =>
    cases extent with
    | none => exact (gives_pure.1 given).1 ▸ Nat.le_refl _
    | some => exact (not_gives_throw given).elim
  | succ fuel ih =>
    rcases extent with _ | _ | _
    · exact (gives_pure.1 given).1 ▸ Nat.le_refl _
    · have := ih given
      omega
    · have := ih given
      omega

theorem search_steady : Steady (search fuel 0 0) v (0, 0) := by
  rw [search]
  refine .loops fun ls => .through (fun {extent} _ _ given => ?_) unrollFirst_steady (.pure _ _)
  cases extent with
  | none => rfl
  | some extent =>
    cases fuel with
    | zero => exact (not_gives_throw given).elim
    | succ fuel => cases extent <;> exact absurd (le_search given) (by simp)

theorem steady : Steady pass v false := by
  refine .after .graph (.through (fun given => ?_) search_steady (.after (.count _ _) (.after (.count _ _) (.pure _ _))))
  simp only [gives_bind, gives_pure] at given
  obtain ⟨_, _, -, _, _, -, none, -⟩ := given
  simpa [Prod.ext_iff] using none.symm

end Unrolling

end Quadcode
