import Quadcode.Proofs.Allocation.Room
import Quadcode.Proofs.Lowering.Encoding
import Quadcode.Proofs.Lowering.Globals

/-!
# Listings that are written to the end

Text breaks off at an offset whose magnitude is not a word, and at the size of a global that is not one. Where the
numbers have room, none of these arise, and no stage of generating code fails without saying why.
-/

namespace Quadcode

open X86 List Quadcode.Graph Liveness Inst Allocation Text.Draft

variable {code : List Inst}

namespace X86

variable {i : Inst}

/-- The offset, if there is one, has a magnitude. -/
@[simp]
def Operand.Written : Operand → Prop
  | .mem _ _ offset => -2 ^ 31 < offset.toInt
  | _ => True

theorem Operand.Written.complete {o : Operand} (written : o.Written) : o.draft.complete := by
  cases o with
  | mem b i k =>
    have offset : (offsetDraft k).complete := by
      unfold offsetDraft
      split
      · rfl
      · rw [if_neg fun least => absurd (least ▸ written) (by simp)]
        split <;> rfl
    simp [draft, offset, whole]
  | _ => rfl

/-- The text of an instruction breaks off at an operand only. -/
theorem Inst.complete (written : ∀ o ∈ i.operands, o.Written) : i.draft.complete := by
  have operands (o : Operand) (member : o ∈ i.operands) := (written o member).complete
  cases i <;> simp_all [draft, line, Inst.operands, Text.Draft.whole]

theorem Inst.Serves.written (serves : i.Serves Operand.Written Operand.Written) : ∀ o ∈ i.operands, o.Written := by
  cases i with
  | int op d x | neg d | cmp d x => cases d <;> simp_all [operands]
  | _ => simp_all [operands]

theorem Inst.written_of_not_isPlain (turns : i.isPlain = false) : ∀ o ∈ i.operands, o.Written := by
  cases i <;> first | exact forall_mem_nil _ | cases turns

theorem Peephole.written_optimize (every : Every (∀ o ∈ ·.operands, o.Written) code) :
    Every (∀ o ∈ ·.operands, o.Written) (optimize code).1 := by
  refine every_optimize (fun _ => written_of_not_isPlain) (fun i j bank x d first _ source _ direct => ?_) every
  have parts : (bank.mov d x).operands = [d, x] := by cases bank <;> rfl
  simp only [parts, forall_mem_cons]
  refine ⟨?_, first x source, forall_mem_nil _⟩
  cases d <;> trivial

end X86

variable {g : Graph} {v : VarId} {b : BlockId} {live : Solution VarSet} {depth : VarId → Nat}

/-- Along a path there is a use, and that mentions the variable. -/
theorem Graph.LiveFrom.mentioned {s : Spot} (linked : g.Linked) (member : s.block ∈ g.layout) (live : g.LiveFrom v s) :
    v ∈ mentioned g := by
  obtain ⟨t, path, used⟩ := live
  have there : t.block ∈ g.layout := by
    clear used
    induction path with
    | refl => exact member
    | tail _ last ih => exact last.1.mem_layout linked ih
  cases used with
  | quad here read => exact reads_mentioned there (mem_of_getElem? here) read
  | tail read =>
    simp only [Liveness.mentioned, mem_append, mem_flatMap]
    exact .inr ⟨_, there, .inr read⟩
  | returned _ global => simp [Liveness.mentioned, global]

theorem Graph.Declared.mentioned (declared : g.Declared) (mentioned : v ∈ Liveness.mentioned g) : v < g.vars.size := by
  simp only [Liveness.mentioned, mem_append, mem_flatMap, Std.ExtTreeSet.mem_toList, mem_addressTaken] at mentioned
  obtain (global | ⟨q, member, op⟩) | ⟨b, laid, ⟨q, member, named⟩ | named⟩ := mentioned
  · simp [Graph.globals] at global
    exact global.1
  · obtain ⟨b, laid, member⟩ := mem_flatMap.1 member
    exact (declared b laid).1 q member v (by simp [Quad.uses, op, Op.base?])
  · exact (declared b laid).1 q member v (mem_append_left _ named)
  · exact (declared b laid).2 v named

/-- Blocks are linked, and every variable that code or parameters name is in the table. -/
structure Graph.InRange (g : Graph) : Prop extends g.Linked where
  declared : g.Declared
  params : ∀ v ∈ g.params, v < g.vars.size

theorem Graph.InRange.declared_of_live (ranged : g.InRange) (solved : g.liveness = .ok live) (member : b ∈ g.layout)
    {points : List VarSet} (pointed : g.livePoints live b = .ok points) :
    ∀ after ∈ points, ∀ v ∈ after, v < g.vars.size := by
  intro after listed v there
  obtain ⟨i, here⟩ := mem_iff_getElem?.1 listed
  obtain ⟨inside, rfl⟩ := points_atSpot pointed here
  have live := liveFrom_of_mem_atSpot ranged.toLinked solved member inside there
  exact ranged.declared.mentioned (live.mentioned ranged.toLinked member)

/-- Variables on the stack are within reach. -/
theorem Allocation.Placed.stack_toInt {a : Allocation} {p : Progress} {o : Int32} (placed : Placed g a p depth)
    (here : a.locations[v]? = some (.stack o)) :
    -mostFrame g ≤ o.toInt ∧ -2 ^ 31 < o.toInt := by
  rcases placed.sound.stack v o (placed.placed v _ here) with argument | ⟨-, lies⟩
  · obtain ⟨k, -, offset⟩ := placed.incoming_toInt argument
    omega
  · have offset := placed.lies_toInt lies
    have within := lies.within
    have most := placed.frame_most
    have bound := placed.sound.frame_lt
    simp only [frameLimit] at bound
    omega

namespace Lowering

variable {s : Site} {p : Allocation.Progress} {q : Quad}

theorem homes_written (placed : Allocation.Placed s.graph s.allocation p depth) :
    Homes s Operand.Written Operand.Written where
  temporary _ _ := trivial
  float _ _ := trivial
  memory _ _ := id
  place v o found := by
    obtain ⟨l, here, rfl⟩ := place_eq_ok.1 found
    rw [and_self]
    cases l with
    | stack o =>
      simpa only [ofLocation, Operand.stack, Operand.Written] using (placed.stack_toInt here).2
    | _ => trivial
  plain o direct := by
    cases o with
    | mem b i k => exact absurd rfl (direct b i k)
    | _ => trivial
  near b i := by simp
  argument k inside := by
    have reachable := placed.reachable
    simp only [argumentBase, slotBytes, frameLimit] at reachable
    have offset := Int32.toInt_ofNat_of_lt (n := argumentBase + slotBytes * k)
      (by simp [argumentBase, slotBytes]; omega)
    simp only [incoming, ofLocation, Operand.stack, Operand.Written, offset]
    omega

/-- An element lies behind the start of what it belongs to, or not too far before it. -/
theorem knowsElements_written (placed : Allocation.Placed s.graph s.allocation p depth) (compact : s.graph.Compact)
    (member : q ∈ s.graph.bodies) : KnowsElements s Operand.Written q := by
  intro base index is w out w' given
  simp only [element, gives_bind, gives_ofExcept, Site.var, orFault_eq_ok] at given
  obtain ⟨x, _, ⟨declared, rfl⟩, m, _, ⟨found, rfl⟩, given⟩ := given
  obtain ⟨l, here, rfl⟩ := place_eq_ok.1 found
  -- Where the index is known, so is how far the element is from the start.
  have room (c : Int32) (known : knownOffset? index = some c) : 0 ≤ c.toInt ∨ x.isGlobal ∧ ¬x.ty.isPointer ∨
      (if x.ty.isPointer then 0 else mostFrame s.graph) < 2 ^ 31 + c.toInt := by
    unfold knownOffset? at known
    split at known <;> cases known
    next i =>
      have here : (base, i) ∈ q.element? := by rcases is with op | ⟨y, op⟩ <;> simp [Quad.element?, op]
      have near := compact.indices q member _ here x declared
      simp only [toInt_saturate, slotBytes, frameLimit] at *
      rcases near with after | outside | before
      · exact .inl (by omega)
      · exact .inr (.inl outside)
      · by_cases after : 0 ≤ i.toInt
        · exact .inl (by omega)
        · exact .inr (.inr (by omega))
  have behind (near : ∀ c, knownOffset? index = some c → x.isGlobal → x.ty.isPointer) {w out w'}
      (given : Gives (elementBehind s index) w out w') : out.2.Written := by
    unfold elementBehind at given
    split at given
    next c known =>
      obtain ⟨rfl, -⟩ := gives_pure.1 given
      rcases room c known with after | ⟨isGlobal, aggregate⟩ | before
      · simp only [Operand.Written]
        omega
      · exact absurd (near c known isGlobal) aggregate
      · simp only [Operand.Written]
        split at before <;> omega
    · simp only [gives_bind, gives_pure] at given
      obtain ⟨_, _, -, rfl, -⟩ := given
      simp
  split at given
  next pointer =>
    simp only [gives_bind, gives_pure] at given
    obtain ⟨e, _, inner, rfl, -⟩ := given
    exact (behind (fun _ _ _ => pointer) inner : e.2.Written)
  next direct =>
    split at given
    next e some_e =>
      obtain ⟨rfl, -⟩ := gives_pure.1 given
      obtain ⟨c, known, moved⟩ := Option.bind_eq_some_iff.1 some_e
      cases l with
      | stack o =>
        cases moved
        have start := placed.stack_toInt here
        have own : ¬x.isGlobal := fun isGlobal => by cases here.symm.trans (placed.owned declared isGlobal)
        have near := (room c known).imp_right (Or.resolve_left · fun far => own far.1)
        rw [if_neg direct] at near
        simp only [Operand.Written, toInt_saturate]
        omega
      | global => cases moved; trivial
      | reg | xmm => cases moved
    next unknown =>
      simp only [gives_bind, gives_pure] at given
      obtain ⟨e, _, inner, rfl, -⟩ := given
      refine (behind (fun c known isGlobal => ?_) inner : e.2.Written)
      cases here.symm.trans (placed.owned declared isGlobal)
      simp [known, ofLocation, offsetBy?] at unknown

variable {w w' : Literals}

theorem written_code (placed : Allocation.Placed s.graph s.allocation p depth) (compact : s.graph.Compact)
    (given : Gives (Lowering.code s live) w code w') : Every (∀ o ∈ ·.operands, o.Written) code :=
  every_code (fun _ => written_of_not_isPlain) (fun _ => Inst.Serves.written) (homes_written placed)
    ⟨trivial, trivial⟩ (fun _ _ => trivial)
    (fun b laid _ inside => knowsElements_written placed compact (mem_flatMap.2 ⟨b, laid, inside⟩)) given

/-! ## The code of a function -/

theorem tame_code (ranged : s.graph.InRange) (sized : s.allocation.locations.size = s.graph.vars.size)
    (solved : s.graph.liveness = .ok live) : Tame (Lowering.code s live) w := by
  have each (bs : List BlockId) (laid : ∀ b ∈ bs, b ∈ s.graph.layout) (w : Literals) :
      Tame (blocks s (problem s.graph) live bs) w := by
    induction bs generalizing w with
    | nil => exact tame_pure _
    | cons b rest ih =>
      obtain ⟨here, later⟩ := forall_mem_cons.1 laid
      obtain ⟨points, pointed⟩ := livePoints_ok ranged.toLinked solved here
      have within := ranged.declared_of_live solved here pointed
      rw [Graph.livePoints] at pointed
      simp [blocks, block, pointed, tame_body sized (ranged.declared b here).1 within,
        tame_tail sized (ranged.declared b here).2,
        ih later]
  simp [Lowering.code, calm_prologue sized ranged.params, each _ fun _ => id]

end Lowering

open Lowering

section Compile

variable (ranged : g.InRange) (compact : g.Compact) (optimize : Bool) {w w' : Literals}
include ranged compact

theorem Graph.calm_place : Calm g.place := by
  simp only [Graph.place, failsOnly_bind, FailsOnly.pure, implies_true, and_true]
  exact ⟨calm_liveness ranged.toLinked, fun live solved => ⟨calm_dominators ranged.toLinked, fun _ _ =>
    calm_allocate ranged.toLinked solved compact⟩⟩

theorem Graph.tame_compile : Tame (g.compile optimize) w := by
  simp only [Graph.compile, tame_bind, tame_ofExcept, gives_ofExcept, g.calm_place ranged compact, true_and]
  rintro ⟨live, a⟩ _ ⟨placed, -⟩
  obtain ⟨d, solved, -, allocated⟩ := place_eq_ok.1 placed
  obtain ⟨p, depth, placed⟩ := allocate_placed allocated
  have tame (w : Literals) := tame_code (s := ⟨g, a⟩) (w := w) ranged placed.size solved
  simp [Quadcode.lower, tame]

omit ranged in
theorem Graph.compile_complete {out : Routine × Statistics} (given : Gives (g.compile optimize) w out w') :
    out.1.draft.complete := by
  obtain ⟨live, a, code, placed, made, same⟩ := compile_parts given
  obtain ⟨d, -, -, allocated⟩ := place_eq_ok.1 placed
  obtain ⟨p, depth, placed⟩ := allocate_placed allocated
  have written := written_code (s := ⟨g, a⟩) placed compact made
  have kept : Every (∀ o ∈ ·.operands, o.Written) (if optimize then (Peephole.optimize code).1 else code) := by
    split
    · exact Peephole.written_optimize written
    · exact written
  rw [same]
  simpa [Routine.draft, complete_lines, whole] using fun i member => complete (kept i member)

end Compile

/-- The text of a module. -/
def Module.write (m : Module) (optimize : Bool) (w : Literals) : Except Failure String := do
  let (listing, _) ← (outcome (m.compile optimize) w).1
  orFault listing.text?

/-- Generating code and writing its listing fails only with a report of the cause: no number is too large for a word.
This takes a module whose variables are in range and whose numbers have room. -/
theorem Module.write_reports {m : Module} (optimize : Bool) (w : Literals) (ranged : ∀ g ∈ m.graphs, g.InRange)
    (compact : ∀ g ∈ m.graphs, g.Compact) (storage : ∀ x ∈ m.globals, (Datum.ofGlobal? x).isSome) :
    Calm (m.write optimize w) := by
  have each (graphs : List Graph) (all : ∀ g ∈ graphs, g ∈ m.graphs) (w : Literals) :
      Tame (compileGraphs optimize graphs) w ∧
        ∀ out w', Gives (compileGraphs optimize graphs) w out w' → ∀ r ∈ out.1, r.draft.complete := by
    induction graphs generalizing w with
    | nil => simp [compileGraphs]
    | cons g rest ih =>
      obtain ⟨here, later⟩ := forall_mem_cons.1 all
      refine ⟨by simp [compileGraphs, g.tame_compile (ranged g here) (compact g here), (ih later _).1], ?_⟩
      intro out w' given
      simp only [compileGraphs, gives_bind, gives_pure] at given
      obtain ⟨first, _, made, others, _, more, rfl, rfl⟩ := given
      exact forall_mem_cons.2 ⟨compile_complete (compact g here) optimize made, (ih later _).2 _ _ more⟩
  simp only [write, failsOnly_bind, calm_orFault, Listing.text?_isSome]
  refine ⟨?_, fun out made => ?_⟩
  · change Tame (m.compile optimize) w
    simp only [compile, tame_bind, tame_pure, implies_true, and_true, (each _ (fun _ => id) w).1, true_and]
    exact fun _ _ _ => FailsOnly.pure _
  · have given := gives_of_ok made
    simp only [compile, gives_bind, gives_pure] at given
    obtain ⟨routines, _, compiled, literals, _, -, rfl, -⟩ := given
    exact ⟨storage, (each _ (fun _ => id) w).2 _ _ compiled⟩

/-- Takes an element behind a pointer and puts it into an aggregate of its own, which is all that it has memory for. The
variables `p`, `a` and `x` are 0 to 2. -/
def picking (ty : Ty) (i : Int32) : Function where
  name := "picking"
  vars := #[.declare "p" (.pointer .int) .param, .declare "a" ty .local, .declare "x" .int .local]
  params := [0]
  quads := [
    ⟨some 2, .load 0 (.const (.int i))⟩,
    .effect (.store 1 (.const (.int 0)) (.var 2)),
    .effect (.ret (some (.var 2)))]

def pickings (ty : Ty) (i : Int32) (cells : Nat) : Module :=
  ⟨[⟨"cells", .array .int cells, none⟩], .ofList [], [(picking ty i).graph]⟩

theorem pickings_inRange (ty : Ty) (i : Int32) (cells : Nat) : ∀ g ∈ (pickings ty i cells).graphs, g.InRange := by
  simp only [pickings, forall_mem_singleton]
  refine ⟨(picking ty i).graph_linked rfl, of_decide_eq_true ?_, of_decide_eq_true ?_⟩
  · cbv
  · cbv

theorem pickings_reports : Calm ((pickings (.array .int 4) (-1) 3).write true {}) ∧
    ((pickings (.array .int 4) (-1) 3).write true {}).toOption.isSome := by
  refine ⟨Module.write_reports true {} (pickings_inRange _ _ _) ?_ (by decide), by decide +kernel⟩
  simp only [pickings, forall_mem_singleton]
  refine ⟨by decide, ?_, ?_, ?_⟩
  · decide +kernel
  · decide +kernel
  · decide +kernel

/-- An offset without a magnitude, storage whose size is not a word, a frame without room for saved registers, and an
aggregate whose size is not a word. -/
theorem pickings_fault : (∀ ty i cells, ∀ g ∈ (pickings ty i cells).graphs, g.InRange) ∧
    (pickings (.array .int 4) (-268435456) 3).write true {} = .error .fault ∧
    (pickings (.array .int 4) 0 2305843009213693952).write true {} = .error .fault ∧
    (pickings (.array .int 268435455) 0 3).write true {} = .error .fault ∧
    (pickings (.array (.array .int 4294967296) 4294967296) 0 3).write true {} = .error .fault := by
  refine ⟨pickings_inRange, ?_, ?_, ?_, ?_⟩ <;> decide +kernel

end Quadcode
