import Quadcode.Proofs.Eval.Replacement
import Quadcode.Proofs.Optimizer.Invariants

/-!
# Passes on loops, edit by edit

A pass on loops makes one edit after the other, each of which keeps track of the function before it. The new
function may compute something earlier than the old one did, or where the old one never did; it may then meet
a value that is missing or of another type, and a variable that is in no table.
-/

namespace Quadcode

variable {g : Graph} {x : Value}

/-- Errors of reading what is not there yet or is of another type, and of running too long. -/
inductive Stop.Mild : Stop → Prop
  | undefined (name : Label) : Mild (.error (.undefined name))
  | typeMismatch (name : Label) : Mild (.error (.typeMismatch name))
  | stepLimit : Mild .outOfSteps

namespace FailsOnly

variable {soft : Stop → Prop} (mild : ∀ e : Stop, e.Mild → soft e)
include mild

theorem number (g : Graph) (x : Value) : FailsOnly soft (x.number g) := by
  cases x with
  | int | float => exact ok _
  | undef => exact failsOnly_error.2 (mild _ (.undefined _))
  | _ => exact failsOnly_error.2 (mild _ (.typeMismatch _))

theorem unOp (op : UnOp) (g : Graph) (x : Value) : FailsOnly soft (op.apply g x) := by
  refine (number mild g x).bind fun a _ => ?_
  split
  · exact ok _
  · exact failsOnly_error.2 (mild _ (.typeMismatch _))

/-- Arithmetic other than a division by zero. -/
theorem binOp {op : BinOp} {y : Value} (safe : op.isDivision → y ≠ .int 0) : FailsOnly soft (op.apply g x y) := by
  refine (number mild g x).bind fun a _ => (number mild g y).bind fun b number => ?_
  rw [if_neg]
  · split
    · exact ok _
    · exact failsOnly_error.2 (mild _ (.typeMismatch _))
  · rintro ⟨division, rfl⟩
    refine safe division ?_
    cases y <;> cases number
    rfl

theorem comparison (c : Comparison) (g : Graph) (x y : Value) : FailsOnly soft (c.apply g x y) := by
  unfold Comparison.apply
  split
  · exact ok _
  · exact ok _
  · exact failsOnly_error.2 (mild _ (.undefined _))
  · exact failsOnly_error.2 (mild _ (.undefined _))
  · split
    · exact ok _
    · exact ok _
    · exact failsOnly_error.2 (mild _ (.typeMismatch _))

end FailsOnly

/-- Every variable that the code of a function names is in its table. -/
def Graph.Declared (g : Graph) : Prop :=
  ∀ b ∈ g.layout, (∀ q ∈ g.body b, ∀ v ∈ q.uses ++ q.result.toList, v < g.vars.size) ∧
    ∀ v ∈ (g.tail b).uses, v < g.vars.size

instance (g : Graph) : Decidable g.Declared :=
  inferInstanceAs (Decidable (∀ b ∈ g.layout, (∀ q ∈ g.body b, ∀ v ∈ q.uses ++ q.result.toList,
    v < g.vars.size) ∧ ∀ v ∈ (g.tail b).uses, v < g.vars.size))

/-- The terms on which a pass edits the loops of a function. -/
def Terms.onLoops (strings : StringPool) (strict : Prop) (f : Graph) : Terms where
  strings
  watch := ⟨f.addressTaken, strict, fun _ => True⟩
  soft e := e.Mild ∨ e = .fault ∧ ¬f.Declared
  free := True

/-- Some edits into a pass on the loops of `f`. -/
structure Underway (strings : StringPool) (strict : Prop) (f g : Graph) : Prop where
  linked : g.Linked
  alike : f.Alike g
  bodies : ∀ q ∈ g.bodies, q ∈ f.bodies
  tails : ∀ b ∈ g.layout, ∀ v ∈ (g.tail b).uses, ∃ c ∈ f.layout, v ∈ (f.tail c).uses
  tracks : Relation.ReflTransGen (fun g h => ∃ k : Track, k.Sound (.onLoops strings strict f) g h) f g

variable {v : VarId} {strings : StringPool} {strict : Prop} {m : Machine} {a : Arg}

/-- What has been read is in the table. -/
theorem Machine.declared_of_arg (read : m.arg g a = .ok x) (named : v ∈ a.var?) : v < g.vars.size := by
  cases a with
  | var u =>
    cases named
    obtain ⟨p, placed, -⟩ := varValue_eq_ok.1 read
    obtain ⟨y, declared, -⟩ := place_eq_ok.1 placed
    exact (Array.getElem?_eq_some_iff.1 declared).1
  | const | str => cases named

namespace Underway

variable {f h : Graph}

theorem start (linked : f.Linked) : Underway strings strict f f :=
  ⟨linked, .refl f, fun _ => id, fun b laid _ named => ⟨b, laid, named⟩, .refl⟩

/-- One edit more. -/
theorem edit (way : Underway strings strict f g) (linked : h.Linked) (bodies : ∀ q ∈ h.bodies, q ∈ g.bodies)
    (tails : ∀ b ∈ h.layout, ∀ v ∈ (h.tail b).uses, ∃ c ∈ g.layout, v ∈ (g.tail c).uses) {k : Track}
    (sound : k.Sound (.onLoops strings strict f) g h) : Underway strings strict f h where
  linked := linked
  alike := way.alike.trans sound.alike
  bodies q listed := way.bodies q (bodies q listed)
  tails b laid v named := by
    obtain ⟨c, laid', named'⟩ := tails b laid v named
    exact way.tails c laid' v named'
  tracks := way.tracks.tail ⟨k, sound⟩

theorem not_mem_addressTaken (way : Underway strings strict f g) (untaken : v ∉ f.addressTaken) : v ∉ g.addressTaken :=
  mt (Graph.addressTaken_mono way.bodies) untaken

/-- What does not live in memory is private, if it is in the table. -/
theorem hides (way : Underway strings strict f g) (resident : v ∉ f.memoryResident) (declared : v < g.vars.size) :
    g.Private f.addressTaken v := by
  rw [Graph.mem_memoryResident, not_or, ← way.alike.vars] at resident
  refine ⟨⟨_, Array.getElem?_eq_getElem declared, ?_⟩, way.not_mem_addressTaken resident.1, resident.1⟩
  have kind : ¬(g.vars[v].isGlobal || !g.vars[v].ty.isScalar) := fun large =>
    resident.2 ⟨_, Array.getElem?_eq_getElem declared, large⟩
  simpa using kind

theorem not_declared (way : Underway strings strict f g) {q : Quad} (listed : q ∈ g.bodies)
    (named : v ∈ q.uses ++ q.result.toList) (missing : ¬v < g.vars.size) : ¬f.Declared := by
  intro declared
  obtain ⟨b, laid, inside⟩ := List.mem_flatMap.1 (way.bodies q listed)
  exact missing (way.alike.vars ▸ (declared b laid).1 q inside v named)

theorem not_declared_tail (way : Underway strings strict f g) {b : BlockId} (laid : b ∈ g.layout)
    (named : v ∈ (g.tail b).uses) (missing : ¬v < g.vars.size) : ¬f.Declared := by
  intro declared
  obtain ⟨c, laid', named'⟩ := way.tails b laid v named
  exact missing (way.alike.vars ▸ (declared c laid').2 v named')

/-- What does not live in memory can be read, unless it is in no table. -/
theorem arg_failsOnly (way : Underway strings strict f g) (shaped : m.Shaped g)
    (resident : ∀ v ∈ a.var?, v ∉ f.memoryResident) (missing : ∀ v ∈ a.var?, ¬v < g.vars.size → ¬f.Declared) :
    FailsOnly (Terms.onLoops strings strict f).soft (m.arg g a) := by
  cases a with
  | var v =>
    by_cases declared : v < g.vars.size
    · have hides := way.hides (resident v rfl) declared
      obtain ⟨x, here⟩ := shaped.arg (a := .var v) fun u named => Option.some.inj named ▸ hides
      rw [here]
      exact .ok x
    · have failed : m.arg g (.var v) = .error .fault := by
        rw [Machine.arg, Machine.varValue, Machine.place, Array.getElem?_eq_none (Nat.le_of_not_lt declared)]
        rfl
      rw [failed]
      exact failsOnly_error.2 (.inr ⟨rfl, missing v rfl declared⟩)
  | const | str => exact .ok _

theorem stores (way : Underway strings strict f g) (stores : ∀ q ∈ f.bodies, f.StoresToMemory q) :
    ∀ q ∈ g.bodies, g.StoresToMemory q := by
  intro q listed base i x store
  rw [way.alike.vars]
  exact stores q (way.bodies q listed) base i x store

variable {program : Module} {before after : List Graph} {entry : Label} {args : List Value} {input : List Int32}

theorem endsWith (way : Underway program.strings strict f g) (listed : program.graphs = before ++ f :: after)
    {r : Except Stop Outcome}
    (ends : program.EndsWith (Terms.onLoops program.strings strict f).watch entry args input r) :
    ∃ r', Module.EndsWith { program with graphs := before ++ g :: after }
        (Terms.onLoops program.strings strict f).watch entry args input r' ∧
      (r' = r ∨ ∃ e, (Terms.onLoops program.strings strict f).soft e ∧ r' = .error e) := by
  have tracks := way.tracks
  clear way
  induction tracks with
  | refl =>
    refine ⟨r, ?_, .inl rfl⟩
    rw [← listed]
    exact ends
  | @tail g h _ step ih =>
    obtain ⟨k, sound⟩ := step
    obtain ⟨r', ends', alike⟩ := ih
    have tracked : Module.Tracked (.onLoops program.strings strict f) { program with graphs := before ++ g :: after }
      { program with graphs := before ++ h :: after } := Module.tracked_replace sound rfl rfl
    obtain ⟨r'', ends'', alike'⟩ := ends'.tracked tracked rfl
    refine ⟨r'', ends'', ?_⟩
    rcases alike' with rfl | soft
    · exact alike
    · exact .inr soft

/-- The run of a program after some edits. -/
theorem run (way : Underway program.strings strict f g) (listed : program.graphs = before ++ f :: after)
    {outcome : Outcome} (ran : program.run entry args input = .ok outcome)
    (confined : ∀ p, program.Comes entry args input p → p.Confined)
    (productive : strict → ∀ p, program.Comes entry args input p → p.Productive program) :
    Module.run { program with graphs := before ++ g :: after } entry args input = .ok outcome ∨
      ∃ e, Module.run { program with graphs := before ++ g :: after } entry args input = .error e ∧
        (e.Mild ∨ e = .fault ∧ ¬f.Declared) := by
  have ends := Module.endsWith_of_run (w := (Terms.onLoops program.strings strict f).watch) ran
    fun p comes => ⟨(confined p comes).fenced _, fun asked => productive asked p comes, trivial⟩
  obtain ⟨r', ends', alike⟩ := way.endsWith listed ends
  rcases ends'.run with cut | same
  · exact .inr ⟨_, cut, .inl .stepLimit⟩
  · rw [same]
    rcases alike with rfl | ⟨e, soft, rfl⟩
    · exact .inl rfl
    · exact .inr ⟨e, rfl, soft⟩

end Underway

namespace Work

variable {w : Work}

/-- In the middle of a pass on loops: the edits so far, and no analysis that is out of date. -/
abbrev OnLoops (strings : StringPool) (strict : Prop) (f : Graph) : Context → Work → Prop :=
  Work.Holds fun g _ => Underway strings strict f g

theorem OnLoops.start (linked : w.graph.Linked) (fresh : w.context.analyses = {}) :
    w.OnLoops strings strict w.graph w.context :=
  ⟨.start linked, fresh ▸ .empty _, rfl, fun _ => .inl⟩

/-- Part of a pass on loops goes on with the edits, unless it fails. -/
abbrev Goes {α : Type} (strings : StringPool) (strict : Prop) (f : Graph) (old : Context) (w : Work)
    (x : PassM α) : Prop :=
  w.Keeps (fun g _ => Underway strings strict f g) (fun _ _ => True) old x

end Work

end Quadcode
