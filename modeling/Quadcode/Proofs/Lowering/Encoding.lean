import Quadcode.Proofs.Allocation.Assignment
import Quadcode.Proofs.Graph.Built
import Quadcode.Proofs.X86.Windows

/-!
# Instructions that can be encoded

No instruction has two operands in memory, writes to an immediate, or divides by one. The code of a function writes
to a few registers only besides those that its variables are in, and optimization keeps it so.
-/

namespace Quadcode

open X86 List Operand

variable {p : Inst → Prop}

namespace X86

/-- The operands of an instruction, as they are written. -/
def Inst.operands : Inst → List Operand
  | .mov d x | .movsd d x | .int _ d x | .cmp d x => [d, x]
  | .lea r x | .cvttsd2si r x => [.reg r, x]
  | .float _ r x | .ucomisd r x | .cvtsi2sd r x => [.xmm r, x]
  | .neg x | .idiv x | .push x | .pop x => [x]
  | .movsxd r | .set _ r => [.reg r]
  | .label _ | .cqo | .jmp _ | .jcc .. | .call _ | .ret => []

/-- What an instruction writes to, named or not. -/
def Inst.targets : Inst → List Operand
  | .mov d _ | .movsd d _ | .int _ d _ | .neg d => [d]
  | .lea r _ | .movsxd r | .set _ r | .cvttsd2si r _ => [.reg r]
  | .float _ r _ | .cvtsi2sd r _ => [.xmm r]
  | .cqo => [.reg .rdx]
  | .idiv _ => [.reg .rax, .reg .rdx]
  | .pop d => [d, .reg .rsp]
  | .push _ | .call _ | .ret => [.reg .rsp]
  | .label _ | .cmp .. | .ucomisd .. | .jmp _ | .jcc .. => []

/-- Memory or one of some registers. -/
def Operand.Writable (registers : Operand → Prop) (o : Operand) : Prop :=
  o.isImm = false ∧ (o.isMemory = false → registers o)

/-- The operands are of kinds that an instruction can have. -/
structure Inst.Encodable (registers : Operand → Prop) (i : Inst) : Prop where
  memory : i.operands.countP isMemory ≤ 1
  value : ∀ x, (i = .idiv x ∨ ∃ r, i = .cvtsi2sd r x) → x.isImm = false
  writes : ∀ o ∈ i.targets, o.Writable registers

variable {registers known : Operand → Prop} {i j : Inst} {code code' rest window : List Inst}

theorem countP_isMemory {x y : Operand} (apart : (x.isMemory && y.isMemory) = false) : [x, y].countP isMemory ≤ 1 := by
  cases memory : x.isMemory
  · simpa [countP_cons, memory] using countP_le_length (p := isMemory) (l := [y])
  · simp_all

theorem Inst.Serves.encodable (stack : registers (.reg .rsp)) (serves : i.Serves (Operand.Writable registers) known) :
    i.Encodable registers := by
  have top : Operand.Writable registers (.reg .rsp) := ⟨rfl, fun _ => stack⟩
  constructor
  · cases i with
    | mov d x | movsd d x => exact countP_isMemory serves.2.2
    | lea | float | ucomisd | cvtsi2sd | cvttsd2si => exact countP_isMemory rfl
    | int op d x | cmp d x => cases d <;> first | exact countP_isMemory rfl | cases serves
    | _ => exact Nat.le_trans countP_le_length (by simp [operands])
  · rintro x (rfl | ⟨r, rfl⟩)
    · exact serves.2.2.2
    · exact serves.2.2
  · cases i with
    | int op d x | neg d => cases d <;> simp_all [targets]
    | _ => simp_all [targets]

/-- Labels and jumps have no operands. -/
theorem Inst.encodable_of_not_isPlain (turns : i.isPlain = false) : i.Encodable registers := by
  cases i with
  | label | jmp | jcc => exact ⟨by simp [operands], by simp, by simp [targets]⟩
  | _ => cases turns

namespace Peephole

/-! ## Optimization -/

section Every

variable (turns : ∀ i, i.isPlain = false → p i)
  (moves : ∀ i j bank x d, p i → p j → x ∈ i.operands → d ∈ j.targets → d.isMemory = false → p (Bank.mov bank d x))
include moves

theorem every_moves? (bank : Bank) {d x d' x' : Operand} (moved : moves? bank.mov bank.file d x d' x' = some window)
    (first : p (bank.mov d x)) (second : p (bank.mov d' x')) : Every p window := by
  have parts (d x : Operand) : x ∈ (bank.mov d x).operands ∧ d ∈ (bank.mov d x).targets := by
    cases bank <;> simp [Bank.mov, Inst.operands, Inst.targets]
  unfold moves? at moved
  split at moved
  next stored =>
    simp only [Bool.and_eq_true, decide_eq_true_eq] at stored
    have loaded := moves _ _ bank x d' first second (parts d x).1 (parts d' x').2 (Bank.not_memory stored.1.2)
    split at moved <;> cases moved <;> simp [first, loaded]
  next =>
    split at moved
    · cases moved
      simp [first]
    · split at moved <;> cases moved
      simp [second]

include turns

theorem every_pair? (paired : pair? i j rest = some window) (first : p i) (second : p j) : Every p window := by
  have moves {d : Reg} {x : Operand} (source : x ∈ i.operands) (target : .reg d ∈ j.targets) : p (.mov (.reg d) x) :=
    moves i j .int x _ first second source target rfl
  unfold pair? at paired
  split at paired
  · split at paired <;> cases paired
    simp [second]
  · split at paired
    · split at paired <;> cases paired
      exact every_cons.2 ⟨turns _ rfl, every_nil⟩
    · cases paired
  · exact every_moves? ‹_› .int paired first second
  · exact every_moves? ‹_› .float paired first second
  · cases paired
    split
    · exact every_nil
    · exact every_cons.2 ⟨moves mem_cons_self mem_cons_self, every_nil⟩
  · cases paired
    exact every_cons.2 ⟨moves mem_cons_self mem_cons_self, every_nil⟩
  · split at paired <;> cases paired
    exact every_cons.2 ⟨moves (by simp [Inst.operands]) mem_cons_self, every_nil⟩
  · cases paired

theorem every_reduce? (reduced : reduce? code = some code') (every : Every p code) : Every p code' := by
  obtain ⟨i, rfl, -⟩ | ⟨i, j, rest, window, rfl, rfl, paired⟩ := reduce?_cases reduced
  · exact (every_cons.1 every).2
  · simp only [every_cons] at every
    exact every_append.2 ⟨every_pair? turns moves paired every.1 every.2.1, every.2.2⟩

/-- What all labels and jumps are like, and moves that are made of instructions like it, optimized code is like. -/
theorem every_optimize (every : Every p code) : Every p (optimize code).1 := by
  refine optimize_chain (R := fun a b => Every p a → Every p b) (fun _ every => every)
    (fun first second every => second (first every)) (fun i a b later every => ?_) (every_reduce? turns moves) code every
  simp only [every_cons] at every ⊢
  exact ⟨every.1, later every.2⟩

end Every

theorem encodable_optimize (every : Every (Inst.Encodable registers) code) :
    Every (Inst.Encodable registers) (optimize code).1 := by
  refine every_optimize (fun i => Inst.encodable_of_not_isPlain) (fun i j bank x d _ second _ target direct => ?_) every
  have parts : (bank.mov d x).operands = [d, x] ∧ (bank.mov d x).targets = [d] := by cases bank <;> exact ⟨rfl, rfl⟩
  refine ⟨?_, by cases bank <;> simp [Bank.mov], ?_⟩
  · simpa [parts] using countP_isMemory (y := x) (by simp [direct])
  · simpa [parts] using second.writes d target

end Peephole

end X86

/-- The registers for the code of a function: temporary ones, those of the stack, and those that variables are in. -/
def Allocation.Uses (a : Allocation) : Operand → Prop
  | .reg r => r ∈ [.rax, .rdx, .r10, .r11, .rbp, .rsp] ∨ .reg r ∈ a.locations
  | .xmm x => x ∈ [floatResult, floatScratch, floatScratch2] ∨ .xmm x ∈ a.locations
  | _ => False

namespace Lowering

variable {s : Site} {w w' : Literals} {code : List Inst} {live : Solution VarSet}

/-! ## The code of a function -/

section Every

variable {home known : Operand → Prop} (turns : ∀ i, i.isPlain = false → p i) (serves : ∀ i, i.Serves home known → p i)
  (homes : Homes s home known) (pointers : home (.reg .rsp) ∧ home (.reg .rbp))
  (saved : ∀ r ∈ s.allocation.calleeSaved, home (.reg r))
include turns serves homes pointers saved

theorem every_tail {t : Tail} (given : Gives (tail s t) w code w') : Every p code := by
  obtain ⟨first, last, rfl, computing, ending⟩ := tail_cases homes given
  refine every_append.2 ⟨computing.serving.mono serves, ?_⟩
  rcases ending with rfl | ⟨branches, b, rfl, -⟩
  · exact (serving_epilogue homes pointers.1 pointers.2 saved).mono serves
  · exact every_append.2 ⟨every_map fun c _ => turns _ rfl, every_cons.2 ⟨turns _ rfl, every_nil⟩⟩

theorem every_blocks {problem : Problem VarSet} {bs : List BlockId}
    (reach : ∀ b ∈ bs, ∀ q ∈ s.graph.body b, KnowsElements s known q)
    (given : Gives (blocks s problem live bs) w code w') : Every p code := by
  induction bs generalizing w code with
  | nil =>
    rw [(gives_pure.1 given).1]
    exact every_nil
  | cons b rest ih =>
    simp only [blocks, block, gives_bind, gives_pure] at given
    obtain ⟨_, _, ⟨points, _, -, inner, _, here, last, _, ends, rfl, rfl⟩, others, _, later, rfl, rfl⟩ := given
    rw [forall_mem_cons] at reach
    exact every_append.2 ⟨every_append.2 ⟨every_cons.2 ⟨turns _ rfl,
      (serving_body homes pointers.1 reach.1 here).mono serves⟩, every_tail turns serves homes pointers saved ends⟩,
      ih reach.2 later⟩

/-- What labels, jumps and all that serves are like, the code of a function is like. -/
theorem every_code (reach : ∀ b ∈ s.graph.layout, ∀ q ∈ s.graph.body b, KnowsElements s known q)
    (given : Gives (Lowering.code s live) w code w') : Every p code := by
  simp only [Lowering.code, gives_bind, gives_ofExcept, gives_pure] at given
  obtain ⟨start, _, ⟨started, rfl⟩, rest, _, here, rfl, rfl⟩ := given
  obtain ⟨more, rfl, serving⟩ := serving_prologue homes pointers.1 pointers.2 started
  refine every_append.2 ⟨every_append.2 ⟨every_cons.2 ⟨turns _ rfl, serving.mono serves⟩, ?_⟩,
    every_blocks turns serves homes pointers saved reach here⟩
  split
  · exact every_nil
  · exact every_cons.2 ⟨turns _ rfl, every_nil⟩

end Every

theorem homes_writable (s : Site) : Homes s (Operand.Writable s.allocation.Uses) fun _ => True where
  temporary r member := by
    have listed : ∀ r ∈ temporaries, r ∈ [Reg.rax, .rdx, .r10, .r11, .rbp, .rsp] := by decide
    exact ⟨rfl, fun _ => .inl (listed r member)⟩
  float x member := ⟨rfl, fun _ => .inl member⟩
  memory o memory _ := by
    cases o with
    | mem | global => exact ⟨rfl, by simp [isMemory]⟩
    | _ => cases memory
  place v o placed := by
    obtain ⟨l, here, rfl⟩ := place_eq_ok.1 placed
    have member := Array.mem_of_getElem? here
    refine ⟨?_, trivial⟩
    cases l with
    | reg r | xmm x => exact ⟨rfl, fun _ => .inr member⟩
    | stack o | global name => exact ⟨rfl, by simp [ofLocation, stack, isMemory]⟩
  plain _ _ := trivial
  near _ _ := trivial
  argument _ _ := trivial

/-- Code can be encoded and writes to registers of the function alone. -/
theorem encodable_code (saved : ∀ r ∈ s.allocation.calleeSaved, .reg r ∈ s.allocation.locations)
    (given : Gives (Lowering.code s live) w code w') : Every (Inst.Encodable s.allocation.Uses) code :=
  every_code (fun _ => Inst.encodable_of_not_isPlain) (fun _ => Inst.Serves.encodable (.inl (by decide)))
    (homes_writable s) ⟨⟨rfl, fun _ => .inl (by decide)⟩, rfl, fun _ => .inl (by decide)⟩
    (fun r member => ⟨rfl, fun _ => .inr (saved r member)⟩) (fun _ _ q _ => knowsElements_all q) given

end Lowering

open Lowering

/-- All code that is generated for a function can be encoded and writes to no other registers than `Uses` says, before
optimization and after it. -/
theorem lower_encodable {g : Graph} {live : Solution VarSet} {loops : Loops} {a : Allocation} {w w' : Literals}
    {routine : Routine} (allocated : allocate g live loops = .ok a) (given : Gives (lower g a live) w routine w') :
    (∀ i ∈ routine.code, i.Encodable a.Uses) ∧ ∀ i ∈ (Peephole.optimize routine.code).1, i.Encodable a.Uses := by
  simp only [lower, gives_bind, gives_pure] at given
  obtain ⟨code, _, made, rfl, -⟩ := given
  obtain ⟨p, depth, placed⟩ := allocate_placed allocated
  have encodable := encodable_code (s := ⟨g, a⟩) (fun r member => ((placed.mem_saved r).1 member).2) made
  exact ⟨encodable, Peephole.encodable_optimize encodable⟩

/-- Divides by a constant and converts one. The variables `n`, `q` and `x` are 0 to 2. -/
def halving : Function where
  name := "halving"
  vars := #[.declare "n" .int .param, .declare "q" .int .local, .declare "x" .float .local]
  params := [0]
  quads := [
    ⟨some 1, .binOp .div (.var 0) (.const (.int 2))⟩,
    ⟨some 2, .unOp .intToFloat (.const (.int 2))⟩,
    .effect (.print (.var 2)),
    .effect (.ret (some (.var 1)))]

theorem halving_encodable : ∃ live a routine w, halving.graph.place = .ok (live, a) ∧
    Gives (lower halving.graph a live) {} routine w ∧ .idiv (.reg .r10) ∈ routine.code ∧
    (∀ i ∈ routine.code, i.Encodable a.Uses) ∧ ∀ i ∈ (Peephole.optimize routine.code).1, i.Encodable a.Uses := by
  have succeeds : (outcome halving.graph.lower {}).1.toOption.map (·.code.contains (.idiv (.reg .r10))) = some true := by
    decide +kernel
  obtain ⟨live, loops, a, routine, w, -, allocated, placed, -, lowered, shown⟩ := Graph.lower_parts succeeds
  exact ⟨live, a, routine, w, placed, lowered, by simpa using shown, lower_encodable allocated lowered⟩

end Quadcode
