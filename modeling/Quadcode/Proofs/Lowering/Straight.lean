import Quadcode.Compile
import Quadcode.Proofs.Lowering.Quads

/-!
# The code of a quadruple runs straight on

Only the code that ends a block jumps, and only blocks and functions begin with labels. All other code
is plain. But for calls it also leaves the stack alone: it computes, and each of its instructions writes to one of
a few registers, to memory, or to the place of a variable.
-/

namespace Quadcode

open X86 List Tail Operand

variable {code : List Inst}

/-- Neither a label nor a jump. -/
def X86.Inst.isPlain : Inst → Bool
  | .label _ | .jmp _ | .jcc .. => false
  | _ => true

/-- Every instruction has a property. -/
def Every (p : Inst → Prop) (code : List Inst) : Prop := ∀ i ∈ code, p i

abbrev Plain (code : List Inst) : Prop := Every (·.isPlain) code

section Every

variable {p q : Inst → Prop} {rest : List Inst} {i : Inst} {α : Type} {items : List α}

@[simp]
theorem every_nil : Every p [] := forall_mem_nil _

@[simp]
theorem every_cons : Every p (i :: code) ↔ p i ∧ Every p code := forall_mem_cons

@[simp]
theorem every_append : Every p (code ++ rest) ↔ Every p code ∧ Every p rest := forall_mem_append

theorem Every.mono (every : Every p code) (weaker : ∀ i, p i → q i) : Every q code :=
  fun i member => weaker i (every i member)

theorem every_if {c : Prop} [Decidable c] (here : p i) : Every p (if c then [i] else []) := by
  split <;> simp [here]

theorem every_map {f : α → Inst} (each : ∀ a ∈ items, p (f a)) : Every p (items.map f) := forall_mem_map.2 each

theorem every_flatMap {f : α → List Inst} (each : ∀ a ∈ items, Every p (f a)) : Every p (items.flatMap f) := by
  intro i member
  obtain ⟨a, inside, member⟩ := mem_flatMap.1 member
  exact each a inside i member

end Every

def X86.Operand.isImm : Operand → Bool
  | .imm _ => true
  | _ => false

/-- Computes something from operands that are known and puts it where `home` allows. -/
@[simp]
def X86.Inst.Computes (home known : Operand → Prop) : Inst → Prop
  | .mov d x | .movsd d x => home d ∧ known x ∧ (d.isMemory && x.isMemory) = false
  | .lea r x | .int _ (.reg r) x | .cvttsd2si r x => home (.reg r) ∧ known x
  | .neg (.reg r) | .movsxd r | .set _ r => home (.reg r)
  | .float _ r x => home (.xmm r) ∧ known x
  | .cvtsi2sd r x => home (.xmm r) ∧ known x ∧ x.isImm = false
  | .cqo => home (.reg .rdx)
  | .idiv x => home (.reg .rax) ∧ home (.reg .rdx) ∧ known x ∧ x.isImm = false
  | .cmp (.reg _) x | .ucomisd _ x => known x
  | _ => False

abbrev Computing (home known : Operand → Prop) (code : List Inst) : Prop := Every (Inst.Computes home known) code

/-- Computes, or has to do with a call. -/
@[simp]
def X86.Inst.Serves (home known : Operand → Prop) : Inst → Prop
  | .push x => known x
  | .pop d => home d
  | .call _ | .ret => True
  | i => i.Computes home known

abbrev Serving (home known : Operand → Prop) (code : List Inst) : Prop := Every (Inst.Serves home known) code

section Computing

variable {home known : Operand → Prop}

theorem Computing.serving (computing : Computing home known code) : Serving home known code := by
  refine computing.mono fun i computes => ?_
  cases i <;> first | exact computes | cases computes

theorem Serving.plain (serving : Serving home known code) : Plain code := by
  refine serving.mono fun i serves => ?_
  cases i <;> first | rfl | cases serves

theorem Computing.plain (computing : Computing home known code) : Plain code := computing.serving.plain

end Computing

namespace Lowering

/-- The places that the code of a function writes to, and the operands it reads. -/
structure Homes (s : Site) (home known : Operand → Prop) : Prop where
  temporary : ∀ r ∈ temporaries, home (.reg r)
  float : ∀ x ∈ [floatResult, floatScratch, floatScratch2], home (.xmm x)
  memory : ∀ o : Operand, o.isMemory → known o → home o
  place : ∀ v o, place s v = .ok o → home o ∧ known o
  plain : ∀ o, (∀ b i k, o ≠ .mem b i k) → known o
  near : ∀ b i, known (.mem b i 0)
  argument : ∀ k < s.graph.params.length, known (ofLocation (Allocation.incoming k))

theorem homes_all (s : Site) : Homes s (fun _ => True) fun _ => True := by constructor <;> simp

variable {s : Site} {w w' : Literals} {dst src : Operand} {home known : Operand → Prop}

theorem Homes.regs (homes : Homes s home known) : home (.reg scratch) ∧ home (.reg scratch2) ∧
    home (.reg X86.result) ∧ home (.reg .rdx) := by
  refine ⟨?_, ?_, ?_, ?_⟩ <;> exact homes.temporary _ (by decide)

theorem Homes.xmms (homes : Homes s home known) : home (.xmm floatScratch) ∧ home (.xmm floatScratch2) ∧
    home (.xmm floatResult) := by
  refine ⟨?_, ?_, ?_⟩ <;> exact homes.float _ (by decide)

theorem isMemory_of_offsetBy? {c : Int32} {m e : Operand} (moved : offsetBy? c m = some e) : e.isMemory := by
  unfold offsetBy? at moved
  split at moved <;> cases moved <;> rfl

variable {after : VarSet} {start : List Inst} {r : Option VarId} {q : Quad} {a : Arg} {afters : List VarSet}
  {qs : List Quad}

section Computing

variable (homes : Homes s home known) {out : List Inst × Operand}
include homes

/-! ## Operands and moves -/

section Moves

variable (target : home dst)
include target

section

variable (source : known src) (float : Bool)
include source

theorem computing_mov : Computing home known (mov dst src) := by
  unfold mov
  split <;> simp_all [isMemory, homes.regs, homes.plain]

theorem computing_movsd : Computing home known (movsd dst src) := by
  unfold movsd
  split <;> simp_all [isMemory, homes.xmms, homes.plain]

theorem computing_assign : Computing home known (assign float dst src) := by
  unfold assign
  split
  · exact computing_movsd homes target source
  · exact computing_mov homes target source

end

theorem computing_deliver (r : Reg) : Computing home known (deliver dst r) := by
  unfold deliver
  split
  · exact every_nil
  · exact computing_mov homes target (homes.plain _ (by simp))

theorem computing_deliverXmm (r : Xmm) : Computing home known (deliverXmm dst r) := by
  unfold deliverXmm
  split
  · exact every_nil
  · exact computing_movsd homes target (homes.plain _ (by simp))

theorem home_workReg (early : Reg → Bool) : home (.reg (workReg dst early)) := by
  unfold workReg
  split
  · split
    · exact target
    · exact homes.regs.1
  · exact homes.regs.1

theorem home_workXmm (early : Xmm → Bool) : home (.xmm (workXmm dst early)) := by
  unfold workXmm
  split
  · split
    · exact target
    · exact homes.xmms.1
  · exact homes.xmms.1

end Moves

theorem computing_unImmediate {x : Operand} (source : known x) :
    Computing home known (unImmediate x).1 ∧ known (unImmediate x).2 ∧ (unImmediate x).2.isImm = false := by
  cases x <;> simp [unImmediate, isMemory, isImm, homes.regs, homes.plain, source]

theorem computing_operand (given : Gives (operand s a) w out w') : Computing home known out.1 ∧ known out.2 := by
  unfold operand at given
  split at given
  · simp only [gives_bind, gives_ofExcept, gives_pure] at given
    obtain ⟨o, _, ⟨placed, -⟩, rfl, -⟩ := given
    exact ⟨every_nil, (homes.place _ _ placed).2⟩
  · rw [(gives_pure.1 given).1]
    exact ⟨every_nil, homes.plain _ (by simp)⟩
  · simp only [gives_bind, gives_pure] at given
    obtain ⟨_, _, -, rfl, -⟩ := given
    exact ⟨every_nil, homes.plain _ (by simp)⟩
  · rw [(gives_pure.1 given).1]
    simp [homes.regs, homes.plain]

/-! ## Computing and comparing -/

variable {x y index value : Arg} {base p : VarId} {float : Bool} {c : Comparison}

section

variable (target : home dst) {op : BinOp}
include target

theorem computing_division {remainder : Bool} (given : Gives (division s remainder dst x y) w code w') :
    Computing home known code := by
  simp only [division, gives_bind, gives_pure] at given
  obtain ⟨⟨loadX, X⟩, _, operandX, ⟨loadY, Y⟩, _, operandY, rfl, -⟩ := given
  have divisor := computing_unImmediate homes (computing_operand homes operandY).2
  simp only [every_append, every_cons]
  cases remainder <;> simp [computing_operand homes operandX, computing_operand homes operandY,
    computing_mov homes, divisor, homes.regs, homes.temporary .rax (by decide), homes.plain, target]

theorem computing_wrapping {op : IntOp} (given : Gives (wrapping s op dst x y) w code w') :
    Computing home known code := by
  simp only [wrapping, gives_bind, gives_pure] at given
  obtain ⟨⟨loadY, Y⟩, _, operandY, ⟨loadX, X⟩, _, operandX, rfl, -⟩ := given
  simp [computing_operand homes operandX, computing_operand homes operandY, computing_mov homes,
    computing_deliver homes, home_workReg homes, target]

theorem computing_intBinOp (given : Gives (intBinOp s op dst x y) w code w') : Computing home known code := by
  cases op with
  | add | sub | mul => exact computing_wrapping homes target given
  | div | mod => exact computing_division homes target given

theorem computing_floatBinOp (given : Gives (floatBinOp s op dst x y) w code w') : Computing home known code := by
  unfold floatBinOp at given
  split at given
  · cases given
  · simp only [gives_bind, gives_pure] at given
    obtain ⟨⟨loadY, Y⟩, _, operandY, ⟨loadX, X⟩, _, operandX, rfl, -⟩ := given
    simp [computing_operand homes operandX, computing_operand homes operandY, computing_movsd homes,
      computing_deliverXmm homes, home_workXmm homes, target]

theorem computing_negate (given : Gives (negate s dst x) w code w') : Computing home known code := by
  simp only [negate, gives_bind] at given
  obtain ⟨float, _, -, given⟩ := given
  cases float with
  | true =>
    simp only [gives_bind, gives_pure, if_true] at given
    obtain ⟨_, _, -, ⟨load, X⟩, _, operandX, rfl, -⟩ := given
    simp [computing_operand homes operandX, computing_movsd homes, isMemory, homes.xmms, homes.plain, target]
  | false =>
    simp only [Bool.false_eq_true, if_false, gives_bind, gives_pure] at given
    obtain ⟨⟨load, X⟩, _, operandX, rfl, -⟩ := given
    simp [computing_operand homes operandX, computing_mov homes, computing_deliver homes, home_workReg homes, target]

theorem computing_unOp {op : UnOp} (given : Gives (unOp s op dst x) w code w') : Computing home known code := by
  cases op with
  | neg => exact computing_negate homes target given
  | not | intToFloat | floatToInt =>
    simp only [unOp, gives_bind, gives_pure] at given
    obtain ⟨⟨load, X⟩, _, operandX, rfl, -⟩ := given
    simp [computing_operand homes operandX, computing_mov homes, computing_unImmediate homes,
      computing_deliver homes, computing_deliverXmm homes, home_workReg homes, home_workXmm homes,
      homes.regs, homes.plain, target]

end

theorem computing_compare {out : List Inst × Flags} (given : Gives (compare s c x y) w out w') :
    Computing home known out.1 := by
  simp only [compare, gives_bind] at given
  obtain ⟨floatX, _, -, given⟩ := given
  split at given <;> (
    obtain ⟨float, _, -, given⟩ := gives_bind.1 given
    cases float <;> (
      simp only [Bool.false_eq_true, if_true, if_false, gives_bind, gives_pure] at given
      obtain ⟨⟨loadX, X⟩, _, operandX, ⟨loadY, Y⟩, _, operandY, rfl, -⟩ := given
      simp [computing_operand homes operandX, computing_operand homes operandY, computing_mov homes,
        computing_movsd homes, homes.regs, homes.xmms]))

theorem computing_cmp (target : home dst) (given : Gives (cmp s c dst x y) w code w') : Computing home known code := by
  simp only [cmp, gives_bind, gives_pure] at given
  obtain ⟨⟨first, flags⟩, _, compared, rfl, -⟩ := given
  have settled : Computing home known (settle flags.unordered) := by
    unfold settle
    split <;> simp [homes.regs, homes.plain]
  simp [computing_compare homes compared, settled, computing_mov homes, homes.regs, homes.plain, target]

/-! ## Memory -/

theorem computing_elementBehind (given : Gives (elementBehind s index) w out w') :
    Computing home known out.1 ∧ out.2.isMemory := by
  unfold elementBehind at given
  split at given
  · rw [(gives_pure.1 given).1]
    exact ⟨every_nil, rfl⟩
  · simp only [gives_bind, gives_pure] at given
    obtain ⟨⟨load, i⟩, _, operand, rfl, -⟩ := given
    simp [computing_operand homes operand, computing_mov homes, homes.regs, isMemory]

theorem computing_element (given : Gives (element s base index) w out w') :
    Computing home known out.1 ∧ out.2.isMemory := by
  simp only [element, gives_bind, gives_ofExcept] at given
  obtain ⟨_, _, -, m, _, ⟨placed, -⟩, given⟩ := given
  split at given
  · simp only [gives_bind, gives_pure] at given
    obtain ⟨⟨load, e⟩, _, behind, rfl, -⟩ := given
    simp [computing_elementBehind homes behind, computing_mov homes, homes.regs, homes.place _ _ placed]
  · split at given
    next e known =>
      rw [(gives_pure.1 given).1]
      obtain ⟨c, -, moved⟩ := Option.bind_eq_some_iff.1 known
      exact ⟨every_nil, isMemory_of_offsetBy? moved⟩
    · simp only [gives_bind, gives_pure] at given
      obtain ⟨⟨load, e⟩, _, behind, rfl, -⟩ := given
      simp [computing_elementBehind homes behind, homes.regs, homes.place _ _ placed]

theorem computing_stage {out : List Inst × Bool × Operand} (given : Gives (stage s x) w out w') :
    Computing home known out.1 ∧ known out.2.2 := by
  simp only [stage, gives_bind] at given
  obtain ⟨float, _, -, ⟨load, src⟩, _, operand, given⟩ := given
  cases float <;> (
    rw [(gives_pure.1 given).1]
    simp [computing_operand homes operand, computing_mov homes, computing_movsd homes, homes.regs, homes.xmms,
      homes.plain])

theorem computing_load (target : home dst) (reach : ∀ {w out w'}, Gives (element s base index) w out w' → known out.2)
    (given : Gives (load s float dst base index) w code w') : Computing home known code := by
  simp only [load, gives_bind, gives_pure] at given
  obtain ⟨⟨code, e⟩, _, element, rfl, -⟩ := given
  simp [computing_element homes element, computing_assign homes, target, reach element]

theorem computing_store (reach : ∀ {w out w'}, Gives (element s base index) w out w' → known out.2)
    (given : Gives (store s base index value) w code w') : Computing home known code := by
  simp only [store, gives_bind, gives_pure] at given
  obtain ⟨⟨staged, float, value⟩, _, stage, ⟨code, e⟩, _, element, rfl, -⟩ := given
  obtain ⟨first, source⟩ := computing_stage homes stage
  obtain ⟨second, memory⟩ := computing_element homes element
  simp [first, second, computing_assign homes (homes.memory e memory (reach element)) source]

theorem computing_address {v : VarId} (target : home dst) (given : Gives (address s dst v) w code w') :
    Computing home known code := by
  simp only [address, gives_bind, gives_ofExcept] at given
  obtain ⟨m, _, ⟨placed, -⟩, given⟩ := given
  split at given
  · split at given <;> (
      rw [(gives_pure.1 given).1]
      simp [computing_mov homes, homes.regs, homes.plain, homes.place _ _ placed, target])
  · cases given

theorem computing_deref (target : home dst) (given : Gives (deref s float dst p) w code w') :
    Computing home known code := by
  simp only [deref, gives_bind, gives_ofExcept, gives_pure] at given
  obtain ⟨_, _, ⟨placed, -⟩, rfl, -⟩ := given
  simp [computing_mov homes, computing_assign homes, homes.regs, homes.near, homes.place _ _ placed, target]

theorem computing_derefStore (given : Gives (derefStore s p value) w code w') : Computing home known code := by
  simp only [derefStore, gives_bind, gives_ofExcept, gives_pure] at given
  obtain ⟨⟨staged, float, value⟩, _, stage, _, _, ⟨placed, -⟩, rfl, -⟩ := given
  obtain ⟨first, source⟩ := computing_stage homes stage
  simp [first, source, computing_mov homes, computing_assign homes, homes.regs, homes.place _ _ placed,
    homes.memory _ rfl (homes.near _ _)]

theorem computing_receive (given : receive s r = .ok code) : Computing home known code := by
  unfold receive at given
  split at given
  · cases given
    exact every_nil
  · simp only [bind_eq_ok] at given
    obtain ⟨dst, placed, x, -, given⟩ := given
    have target := (homes.place _ _ placed).1
    split at given <;> cases given
    · exact computing_movsd homes target (homes.plain _ (by simp))
    · exact computing_mov homes target (homes.plain _ (by simp))

/-- The elements that a quadruple reads or writes are known. -/
def KnowsElements (s : Site) (known : Operand → Prop) (q : Quad) : Prop :=
  ∀ base index, (q.op = .load base index ∨ ∃ x, q.op = .store base index x) →
    ∀ {w out w'}, Gives (element s base index) w out w' → known out.2

omit homes in
theorem knowsElements_all (q : Quad) : KnowsElements s (fun _ => True) q := fun _ _ _ _ _ _ _ => trivial

theorem computing_valueCode (reach : KnowsElements s known q) (target : home dst)
    (given : Gives (valueCode s q dst float) w code w') : Computing home known code := by
  unfold valueCode at given
  split at given
  · simp only [gives_bind, gives_pure] at given
    obtain ⟨⟨load, src⟩, _, operand, rfl, -⟩ := given
    simp [computing_operand homes operand, computing_assign homes, target]
  · split at given
    · exact computing_floatBinOp homes target given
    · exact computing_intBinOp homes target given
  · exact computing_unOp homes target given
  · exact computing_cmp homes target given
  next op => exact computing_load homes target (reach _ _ (.inl op)) given
  · exact computing_address homes target given
  · exact computing_deref homes target given
  · cases given

/-! ## Quadruples -/

/-- A quadruple computes, or it becomes a call. -/
theorem quad_cases (reach : KnowsElements s known q) (given : Gives (quad s q after) w code w') :
    Computing home known code ∨ ∃ name r w₁, Gives (call s name q.op.args r after) w₁ code w' := by
  simp only [quad] at given
  split at given
  · simp [Site.malformed] at given
  simp only [gives_bind] at given
  obtain ⟨target, _, found, given⟩ := given
  split at given
  · rw [(gives_pure.1 given).1]
    exact .inl every_nil
  next op => exact .inl (computing_store homes (reach _ _ (.inr ⟨_, op⟩)) given)
  · exact .inl (computing_derefStore homes given)
  next op => exact .inr ⟨_, _, _, by rw [op]; exact given⟩
  next op =>
    obtain ⟨name, _, -, given⟩ := gives_bind.1 given
    exact .inr ⟨_, _, _, by rw [op]; exact given⟩
  next op => exact .inr ⟨_, _, _, by rw [op]; exact given⟩
  next op => exact .inr ⟨_, _, _, by rw [op]; exact given⟩
  · split at given
    next dst float =>
      have placed : ∃ r, place s r = .ok dst := by
        cases result : q.result with
        | none => simp [result] at found
        | some r =>
          simp only [result, Option.mapM_some, gives_ofExcept, bind_eq_ok, pure_eq_ok, map_eq_ok] at found
          obtain ⟨⟨pair, ⟨o, placed, x, -, rfl⟩, same⟩, -⟩ := found
          cases same
          exact ⟨r, placed⟩
      obtain ⟨r, placed⟩ := placed
      exact .inl (computing_valueCode homes reach (homes.place r dst placed).1 given)
    · simp [Site.malformed] at given

/-! ## Calls -/

end Computing

/-- What is pushed for an argument. -/
theorem pushArg_cases (given : Gives (pushArg s a) w code w') : ∃ float load x last,
    isFloat s a = .ok float ∧ Gives (operand s a) w (load, x) w' ∧ code = load ++ last ∧
      (float = false ∧ last = [.push x] ∨ float = true ∧ ((∃ r, x = .xmm r ∧ last = pushXmm r) ∨
        last = .movsd (.xmm floatScratch) x :: pushXmm floatScratch)) := by
  simp only [pushArg, gives_bind, gives_ofExcept] at given
  obtain ⟨float, _, ⟨kind, rfl⟩, given⟩ := given
  cases float with
  | false =>
    simp only [Bool.false_eq_true, if_false, gives_bind, gives_pure] at given
    obtain ⟨⟨load, x⟩, _, loaded, rfl, rfl⟩ := given
    exact ⟨false, load, x, _, kind, loaded, rfl, .inl ⟨rfl, rfl⟩⟩
  | true =>
    simp only [if_true, gives_bind] at given
    obtain ⟨⟨load, x⟩, _, loaded, given⟩ := given
    split at given <;> obtain ⟨rfl, rfl⟩ := gives_pure.1 given
    next r same => exact ⟨true, load, x, _, kind, loaded, rfl, .inr ⟨rfl, .inl ⟨r, same, rfl⟩⟩⟩
    · exact ⟨true, load, _, _, kind, loaded, append_assoc .., .inr ⟨rfl, .inr rfl⟩⟩

section Calls

variable (homes : Homes s home known)
include homes

/-- What is saved belongs to variables. -/
theorem home_of_saved {places : List Location} (given : saved s after r = .ok places) :
    ∀ l ∈ places, home (ofLocation l) ∧ known (ofLocation l) := by
  simp only [saved, bind_eq_ok, pure_eq_ok] at given
  obtain ⟨live, found, rfl⟩ := given
  intro l member
  obtain ⟨v, -, here⟩ := mem_of_mapM found (mem_filter.1 member).1
  exact homes.place v _ (by simp [place, here])

variable (stack : home (.reg .rsp)) {args : List Arg} {l : Location}
include stack

theorem serving_pushXmm (x : Xmm) : Serving home known (pushXmm x) := by
  simp [pushXmm, grow, top, isMemory, stack, homes.memory _ rfl (homes.near _ _), homes.plain]

theorem serving_save (source : known (ofLocation l)) : Serving home known (save l) := by
  cases l with
  | xmm x => exact serving_pushXmm homes stack x
  | _ => simpa [save] using source

theorem serving_restore (target : home (ofLocation l)) : Serving home known (restore l) := by
  cases l with
  | xmm x => simp_all [restore, popXmm, shrink, ofLocation, top, isMemory, homes.near, homes.plain]
  | _ => simpa [restore] using target

theorem serving_pushArg (given : Gives (pushArg s a) w code w') : Serving home known code := by
  obtain ⟨float, load, x, last, -, operand, rfl, kind⟩ := pushArg_cases given
  obtain ⟨loaded, source⟩ := computing_operand homes operand
  refine every_append.2 ⟨loaded.serving, ?_⟩
  obtain ⟨-, rfl⟩ | ⟨-, ⟨r, -, rfl⟩ | rfl⟩ := kind
  · simp [source]
  · exact serving_pushXmm homes stack r
  · simp [source, homes.xmms, isMemory, serving_pushXmm homes stack]

theorem serving_pushArgs (given : Gives (pushArgs s args) w code w') : Serving home known code := by
  induction args generalizing w code with
  | nil =>
    rw [(gives_pure.1 given).1]
    exact every_nil
  | cons a rest ih =>
    simp only [pushArgs, gives_bind, gives_pure] at given
    obtain ⟨first, _, here, others, _, later, rfl, rfl⟩ := given
    exact every_append.2 ⟨serving_pushArg homes stack here, ih later⟩

theorem serving_call {name : Label} (given : Gives (call s name args r after) w code w') : Serving home known code := by
  simp only [call, gives_bind, gives_ofExcept, gives_pure] at given
  obtain ⟨places, _, ⟨live, -⟩, pushed, _, args, received, _, ⟨result, rfl⟩, rfl, -⟩ := given
  have held := home_of_saved homes live
  have moves : (∀ n, (grow n).Serves home known) ∧ ∀ n, (shrink n).Serves home known := by
    simp [grow, shrink, stack, homes.plain]
  simp only [every_append]
  exact ⟨⟨⟨⟨⟨⟨every_flatMap fun l inside => serving_save homes stack (held l inside).2, every_if (moves.1 _)⟩,
    serving_pushArgs homes stack args⟩, by simp⟩, every_if (moves.2 _)⟩,
    every_flatMap fun l inside => serving_restore homes stack (held l (mem_reverse.1 inside)).1⟩,
    (computing_receive homes result).serving⟩

theorem serving_quad (reach : KnowsElements s known q) (given : Gives (quad s q after) w code w') :
    Serving home known code := by
  rcases quad_cases homes reach given with computing | ⟨_, _, _, called⟩
  · exact computing.serving
  · exact serving_call homes stack called

theorem serving_body (reach : ∀ q ∈ qs, KnowsElements s known q) (given : Gives (body s qs afters) w code w') :
    Serving home known code := by
  induction qs generalizing afters code w with
  | nil =>
    rw [(gives_pure.1 given).1]
    exact every_nil
  | cons q rest ih =>
    cases afters with
    | nil =>
      rw [(gives_pure.1 given).1]
      exact every_nil
    | cons after more =>
      simp only [body, gives_bind, gives_pure] at given
      obtain ⟨first, _, here, others, _, later, rfl, rfl⟩ := given
      obtain ⟨one, all⟩ := forall_mem_cons.1 reach
      exact every_append.2 ⟨serving_quad homes stack one here, ih all later⟩

end Calls

theorem plain_body (given : Gives (body s qs afters) w code w') : Plain code :=
  (serving_body (homes_all s) trivial (fun q _ => knowsElements_all q) given).plain

/-! ## Entering and leaving -/

/-- Sets up the frame and saves registers. -/
def opening (s : Site) : List Inst := [.label s.graph.name, .push (.reg .rbp), .mov (.reg .rbp) (.reg .rsp)] ++
    (if s.allocation.frameSize > 0 then
      [.int .sub (.reg .rsp) (.imm (Int64.ofNat s.allocation.frameSize))]
    else []) ++
    s.allocation.calleeSaved.map fun r => .push (.reg r)

/-- Behind the opening, the prologue moves parameters. -/
theorem prologue_eq (homes : Homes s home known) (given : prologue s = .ok start) :
    ∃ params, start = opening s ++ params ∧ Computing home known params := by
  simp only [prologue, bind_eq_ok, pure_eq_ok] at given
  obtain ⟨params, taken, rfl⟩ := given
  refine ⟨params.flatten, rfl, fun i member => ?_⟩
  obtain ⟨c, inside, member⟩ := mem_flatten.1 member
  obtain ⟨⟨p, k⟩, listed, got⟩ := mem_of_mapM taken inside
  simp only [param, bind_eq_ok] at got
  obtain ⟨dst, placed, got⟩ := got
  split at got
  · simp only [bind_eq_ok, pure_eq_ok] at got
    obtain ⟨x, -, rfl⟩ := got
    have inside : k < s.graph.params.length := by simpa using (mem_zipIdx listed).2.1
    exact computing_assign homes (homes.place _ _ placed).1 (homes.argument k inside) _ i member
  · cases got
    cases member

section Ends

variable (homes : Homes s home known) (stack : home (.reg .rsp)) (frame : home (.reg .rbp))
include homes stack frame

theorem serving_prologue (given : prologue s = .ok start) :
    ∃ rest, start = .label s.graph.name :: rest ∧ Serving home known rest := by
  obtain ⟨params, rfl, computing⟩ := prologue_eq homes given
  refine ⟨_, rfl, every_append.2 ⟨every_append.2 ⟨every_append.2 ⟨?_, every_if ?_⟩, every_map ?_⟩,
    computing.serving⟩⟩ <;> simp [frame, stack, homes.plain, isMemory]

theorem serving_epilogue (saved : ∀ r ∈ s.allocation.calleeSaved, home (.reg r)) : Serving home known (epilogue s) := by
  refine every_append.2 ⟨every_map fun r member => ?_, ?_⟩
  · exact saved r (mem_reverse.1 member)
  · simp [frame, stack, homes.plain, isMemory]

end Ends

theorem plain_prologue (given : prologue s = .ok start) : ∃ rest, start = .label s.graph.name :: rest ∧ Plain rest := by
  obtain ⟨rest, same, serving⟩ := serving_prologue (homes_all s) trivial trivial given
  exact ⟨rest, same, serving.plain⟩

theorem plain_epilogue : Plain (epilogue s) := (serving_epilogue (homes_all s) trivial trivial fun _ _ => trivial).plain

/-- Jumps to blocks, the last of which is taken in any case. -/
def leaps (s : Site) (branches : List (Cond × BlockId)) (b : BlockId) : List Inst :=
  branches.map (fun c => .jcc c.1 (s.blockLabel c.2)) ++ [.jmp (s.blockLabel b)]

/-- The code that ends a block computes, and then it jumps to others or returns. -/
theorem tail_cases (homes : Homes s home known) {t : Tail} (given : Gives (tail s t) w code w') :
    ∃ first last, code = first ++ last ∧ Computing home known first ∧ (last = epilogue s ∨
      ∃ branches b, last = leaps s branches b ∧ ∀ c ∈ b :: branches.map Prod.snd, c ∈ t.targets) := by
  cases t with
  | jump b | fall b =>
    exact ⟨[], _, (gives_pure.1 given).1, every_nil, .inr ⟨[], b, rfl, by simp [targets, successors]⟩⟩
  | branch c x y onTrue onFalse =>
    simp only [tail, gives_bind, gives_pure] at given
    obtain ⟨⟨first, cond, unordered⟩, _, compared, rfl, -⟩ := given
    refine ⟨first, _, append_assoc .., computing_compare homes compared, .inr ?_⟩
    rcases unordered with _ | holds
    · exact ⟨[(cond, onTrue)], onFalse, rfl, by simp [targets, successors]⟩
    · refine ⟨[(.p, if holds then onTrue else onFalse), (cond, onTrue)], onFalse, rfl, ?_⟩
      cases holds <;> simp [targets, successors]
  | ret value =>
    cases value with
    | none => exact ⟨[], _, (gives_pure.1 given).1, every_nil, .inl rfl⟩
    | some x =>
      simp only [tail, gives_bind, gives_pure] at given
      obtain ⟨float, _, -, ⟨load, src⟩, _, operand, rfl, -⟩ := given
      obtain ⟨loaded, source⟩ := computing_operand homes operand
      refine ⟨_, _, rfl, every_append.2 ⟨loaded, ?_⟩, .inl rfl⟩
      split
      · exact computing_movsd homes homes.xmms.2.2 source
      · exact computing_mov homes homes.regs.2.2.1 source

end Lowering

variable {g : Graph} {live : Solution VarSet} {a : Allocation}

theorem Graph.place_eq_ok : g.place = .ok (live, a) ↔
    ∃ d, g.liveness = .ok live ∧ g.dominators = .ok d ∧ allocate g live (Loops.detect g d) = .ok a := by
  simp only [Graph.place, bind_eq_ok, pure_eq_ok, Prod.mk.injEq]
  constructor
  · rintro ⟨_, solved, d, dominated, _, allocated, rfl, rfl⟩
    exact ⟨d, solved, dominated, allocated⟩
  · rintro ⟨d, solved, dominated, allocated⟩
    exact ⟨live, solved, d, dominated, a, allocated, rfl, rfl⟩

/-- What the routine of a function is made of. -/
theorem Graph.compile_parts {optimize : Bool} {w w' : Literals} {out : Routine × Statistics}
    (given : Gives (g.compile optimize) w out w') : ∃ live a code, g.place = .ok (live, a) ∧
      Gives (Lowering.code ⟨g, a⟩ live) w code w' ∧
      out.1 = ⟨g.name, if optimize then (Peephole.optimize code).1 else code, a.frameSize, a.calleeSaved⟩ := by
  simp only [Graph.compile, gives_bind, Lowering.gives_ofExcept] at given
  obtain ⟨⟨live, a⟩, _, ⟨placed, rfl⟩, routine, _, lowered, given⟩ := given
  simp only [Quadcode.lower, gives_bind, gives_pure] at lowered
  obtain ⟨code, _, made, rfl, rfl⟩ := lowered
  refine ⟨live, a, code, placed, ?_⟩
  cases optimize <;> obtain ⟨rfl, rfl⟩ := gives_pure.1 given <;> exact ⟨made, rfl⟩

/-- Generating code for a function on its own, as far as something is known of the result. -/
theorem Graph.lower_parts {β : Type} {f : X86.Routine → β} {y : β}
    (shows : (outcome g.lower {}).1.toOption.map f = some y) :
    ∃ live loops a routine w, g.liveness = .ok live ∧ allocate g live loops = .ok a ∧ g.place = .ok (live, a) ∧
      Gives g.lower {} routine w ∧ Gives (Quadcode.lower g a live) {} routine w ∧ f routine = y := by
  obtain ⟨routine, given, shown⟩ := toOption_map_eq_some.1 shows
  have given := gives_of_ok given
  have parts := given
  simp only [Graph.lower, gives_bind, Lowering.gives_ofExcept] at parts
  obtain ⟨⟨live, a⟩, _, ⟨placed, rfl⟩, lowered⟩ := parts
  obtain ⟨d, solved, -, allocated⟩ := Graph.place_eq_ok.1 placed
  exact ⟨_, _, _, routine, _, solved, allocated, placed, given, lowered, shown⟩

end Quadcode
