import Quadcode.Proofs.Eval.Privacy
import Quadcode.Proofs.Flow.ConstantTruth

/-!
# Facts at the points of a run

A solution gives facts for every point of a function. They hold whenever a run comes there, provided
the run stores only to what is known to be addressed, and to no variable that the facts right behind
the store take to be constant or unassigned.
-/

namespace Quadcode

open List Machine Problem

namespace Constants

variable {g : Graph} {near far : BlockMap Facts} {b c : BlockId} {i : Nat} {q : Quad}

/-- What a solution says before the `i`-th quadruple of a block. -/
def factsAt (g : Graph) (near : BlockMap Facts) (b : BlockId) (i : Nat) : Facts :=
  upTo g ((g.body b).take i) (near[b]?.getD ∅)

theorem factsAt_succ (here : (g.body b)[i]? = some q) :
    factsAt g near b (i + 1) = (problem g).quad q (factsAt g near b i) := by
  obtain ⟨inside, rfl⟩ := List.getElem?_eq_some_iff.1 here
  rw [factsAt, ← take_append_getElem inside, upTo_snoc]
  rfl

theorem boundary_le (linked : g.Linked) (solved : (problem g).Solves g near far) :
    (problem g).boundary.Le (factsAt g near g.entry 0) := by
  obtain ⟨v, gathered, found, -⟩ := solved g.entry ((mem_order linked).2 linked.entry_mem)
  rw [inflow_of_gather gathered] at found
  have start : (if (problem g).atBoundary g g.entry then (problem g).boundary
      else (problem g).initial) = (problem g).boundary := by
    simp [Problem.atBoundary, problem]
  rw [factsAt, take_zero, found]
  refine inflow_holds (fun m => (problem g).boundary.Le m) ?_ ?_
  · rw [start]
    exact fun v => .refl _
  · exact fun _ _ m le v => (le v).trans (Facts.le_meet_left m _ v)

/-- The facts before a tail are taken up by the blocks that it leads to. -/
theorem factsAt_edge (linked : g.Linked) (solved : (problem g).Solves g near far) (member : b ∈ g.layout)
    (edge : c ∈ g.targets b) (ended : (g.body b)[i]? = none) : (factsAt g near b i).Le (factsAt g near c 0) := by
  have whole : (g.body b).take i = g.body b := take_of_length_le (getElem?_eq_none_iff.1 ended)
  have inside := linked.target_mem member edge
  obtain ⟨v, -, found, passed⟩ := solved b ((mem_order linked).2 member)
  obtain ⟨w, gathered, found', -⟩ := solved c ((mem_order linked).2 inside)
  rw [inflow_of_gather gathered] at found'
  have neighbour : b ∈ (problem g).neighbours g c := linked.pred_of_target member edge
  have value : (problem g).values far b = upTo g (g.body b) v := by
    rw [Problem.values, passed]
    rfl
  rw [factsAt, factsAt, whole, take_zero, found, found', Option.getD_some, ← value]
  exact inflow_of_neighbour (fun m => Facts.Le _ m) neighbour (Facts.le_meet_right · _)
    fun m n le v => (le v).trans (Facts.le_meet_left m n v)

end Constants

/-- What is about to be read, memory apart. -/
def Point.operands (p : Point) : List Arg :=
  match p.quad? with
  | some q => q.op.args
  | none => p.tail.args

/-- No operand that is about to be read is undefined. -/
def Point.OperandsDefined (p : Point) : Prop := p.machine.Defined p.graph p.operands

instance (p : Point) : Decidable p.OperandsDefined :=
  inferInstanceAs (Decidable (∀ a ∈ p.operands, p.machine.arg p.graph a ≠ .ok .undef))

/-- Whether an operation stores over the value of a variable. -/
def Machine.overwrites (m : Machine) (strings : StringPool) (g : Graph) (op : Op) (v : VarId) : Bool :=
  match m.place g v, m.effect strings g op with
  | .ok p, .ok (.write p' offset _) => p' = p ∧ offset = 0
  | _, _ => false

/-- A store in the function over one of its variables is followed by facts that let the variable
vary. -/
def Constants.Noticed (program : Module) (g : Graph) (near : BlockMap Facts) (p : Point) : Prop :=
  p.graph = g → ∀ q ∈ p.quad?, ∀ v < g.vars.size, p.machine.overwrites program.strings g q.op v →
    (factsAt g near p.block (p.index + 1)).lookup v = .notConstant

instance (program : Module) (g : Graph) (near : BlockMap Facts) (p : Point) :
    Decidable (Constants.Noticed program g near p) :=
  inferInstanceAs (Decidable (p.graph = g → ∀ q ∈ p.quad?, ∀ v < g.vars.size, _ → _))

namespace Constants

variable {program : Module} {g h : Graph} {near far : BlockMap Facts} {p r : Point} {q : Quad} {k : Machine}
  {frame : Frame}

/-- The facts of the point hold, if it is one of the function. -/
def TrueAt (g : Graph) (near : BlockMap Facts) (p : Point) : Prop :=
  p.graph = g → p.block ∈ g.layout ∧ (factsAt g near p.block p.index).Hold g p.machine

theorem trueAt_start (linked : g.Linked) (solved : (problem g).Solves g near far) {args : List Value}
    (entered : Frame.enter h args = .ok frame) (callers : List Graph) (m : Machine) :
    TrueAt g near (.start callers h m frame) := by
  rintro rfl
  exact ⟨linked.entry_mem, (hold_enter entered m).mono (boundary_le linked solved)⟩

theorem TrueAt.goto (linked : g.Linked) (solved : (problem g).Solves g near far) (holds : TrueAt g near p)
    (next : p.quad? = none) {b : BlockId} (jumped : p.machine.tick.next p.graph p.tail = .ok (.inl b)) :
    TrueAt g near (p.goto b) := by
  intro here
  obtain ⟨member, hold⟩ := holds here
  have edge : b ∈ g.targets p.block := by
    have := next_target jumped
    rw [Point.tail, show p.graph = g from here] at this
    exact this
  refine ⟨linked.target_mem member edge, ?_⟩
  have ended : (g.body p.block)[p.index]? = none := by
    rw [← show p.graph = g from here]
    exact next
  exact hold.mono (factsAt_edge linked solved member edge ended)

theorem TrueAt.advance (once : g.NamesGlobalsOnce) (holds : TrueAt g near p) (noticed : Noticed program g near p)
    (next : p.quad? = some q) (acted : p.machine.tick.act program.strings p.graph q = .ok k) :
    TrueAt g near (p.advance k) := by
  intro here
  obtain ⟨member, hold⟩ := holds here
  have stores := noticed here q next
  obtain rfl : p.graph = g := here
  refine ⟨member, ?_⟩
  change (factsAt p.graph near p.block (p.index + 1)).Hold p.graph k
  rw [factsAt_succ next]
  refine hold_act (m := p.machine.tick) once hold acted fun v place x placed stored => ?_
  have inside : v < p.graph.vars.size := by
    obtain ⟨var, found, -⟩ := place_eq_ok.1 placed
    exact (Array.getElem?_eq_some_iff.1 found).1
  have placed : p.machine.place p.graph v = .ok place := placed
  have stored : p.machine.effect program.strings p.graph q.op = .ok (.write place 0 x) := stored
  have varies := stores v inside (by simp [Machine.overwrites, placed, stored])
  rw [factsAt_succ next] at varies
  exact varies

theorem TrueAt.back (once : g.NamesGlobalsOnce) (holds : TrueAt g near p) (framed : p.Framed) (next : p.quad? = some q)
    {callee : Label} {xs : List Arg} (call : q.op = .call callee xs) {y : Option Value} {d : Option (Place × Value)}
    (first : Runs program (p.into h frame) y k)
    (contained : ∀ r, Visits program (p.into h frame) r → r.Contained ∅ program.strings)
    (delivered : k.pop.destination p.graph q.result y = .ok d) : TrueAt g near (p.advance (k.pop.deliver d)) := by
  intro here
  obtain ⟨member, hold⟩ := holds here
  obtain rfl : p.graph = g := here
  have spared := (first.spares (framed.into h frame) contained).pop framed
  refine ⟨member, ?_⟩
  change (factsAt p.graph near p.block (p.index + 1)).Hold p.graph (k.pop.deliver d)
  rw [factsAt_succ next]
  refine hold_call once hold call (fun v x unspoiled valued => ?_) delivered
  -- The variable is in the frame of the function itself, and nobody else can address it.
  obtain ⟨place, placed, slot⟩ := varValue_eq_ok.1 valued
  rw [place_congr spared.size] at placed
  refine varValue_eq_ok.2 ⟨place, placed, ?_⟩
  obtain ⟨var, found, rfl⟩ := place_eq_ok.1 placed
  simp only [mem_append, not_or, Std.ExtTreeSet.mem_toList] at unspoiled
  have notGlobal : ¬var.isGlobal := fun global =>
    unspoiled.1 (Graph.mem_globals.2 ⟨var, found, global⟩)
  rw [if_neg notGlobal] at slot ⊢
  have owner : (p.callers ++ [p.graph])[p.machine.frames.size - 1]? = some p.graph := by
    rw [framed]
    simp
  rw [Machine.slot?, spared.slots _ _ v owner unspoiled.2 (by simp)] at slot
  exact slot

/-- The facts hold wherever the run comes, if its stores are contained and noticed. -/
theorem TrueAt.visits_contained (linked : g.Linked) (once : g.NamesGlobalsOnce) (solved : (problem g).Solves g near far)
    (visits : Visits program p r) (framed : p.Framed) (holds : TrueAt g near p)
    (watched : ∀ r, Visits program p r → r.Contained ∅ program.strings ∧ Noticed program g near r) :
    TrueAt g near r := by
  induction visits with
  | here => exact holds
  | jump next live jumped _ ih =>
    exact ih (framed.goto _) (holds.goto linked solved next jumped) fun r later =>
      watched r (.jump next live jumped later)
  | act next plain live acted _ ih =>
    obtain ⟨-, noticed⟩ := watched _ .here
    have size := act_frames_size acted
    exact ih (framed.advance size) (holds.advance once noticed next acted) fun r later =>
        watched r (.act next plain live acted later)
  | into next call live evaluated found entered _ ih =>
    exact ih (framed.into _ _) (trueAt_start linked solved entered _ _) fun r later =>
      watched r (.into next call live evaluated found entered later)
  | past next call live evaluated found entered first back _ ih =>
    have contained : ∀ r, Visits program _ r → r.Contained ∅ program.strings := fun r inner =>
      (watched r (.into next call live evaluated found entered inner)).1
    have spared := ((first.spares (framed.into _ _) contained).pop framed).deliver framed back
    exact ih (framed.advance spared.size) (holds.back once framed next call first contained back) fun r later =>
        watched r (.past next call live evaluated found entered first back later)

/-- The facts hold wherever a confined run comes, if its stores are noticed. -/
theorem TrueAt.visits (linked : g.Linked) (once : g.NamesGlobalsOnce) (solved : (problem g).Solves g near far)
    (visits : Visits program p r) (framed : p.Framed) (holds : TrueAt g near p)
    (watched : ∀ r, Visits program p r → r.OperandsDefined ∧ r.Confined ∧ Noticed program g near r) :
    TrueAt g near r := by
  refine holds.visits_contained linked once solved visits framed fun r later => ?_
  obtain ⟨-, confined, noticed⟩ := watched r later
  exact ⟨(confined.fenced ∅).contained _, noticed⟩

end Constants

end Quadcode
