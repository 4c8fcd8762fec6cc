import Quadcode.Proofs.Allocation.Safety
import Quadcode.Proofs.Allocation.Storage
import Quadcode.Proofs.Lowering.StackDiscipline
import Quadcode.Proofs.X86.Stack

/-!
# What a call leaves alone

The code of a call finds every argument at its place on the stack, and every variable that is still needed afterwards
where it was, as long as the callee keeps to the convention.
-/

namespace Quadcode

open List Std.ExtTreeSet

namespace Lowering

open X86 Platform

variable {P : Platform} {s : Site} {c d e t : Core} {n : Nat} {w w' : Literals} {code : List Inst} {v : VarId}
  {l : Location} {o : Int32} {bank : Bank} {ws : List (Option Word)} {p : Allocation.Progress} {depth : VarId → Nat}
  {args : List Arg} {y : Operand} {b : Word} {x : Arg}

/-- The callee comes back with the stack above its arguments and the registers that it has to keep as they were. -/
structure Honours (P : Platform) (args : Nat) (d t : Core) : Prop where
  reg : ∀ r ∈ preserved, t.reg r = d.reg r
  memory : ∀ a, P.onStack a → d.sp + slotBytes * args ≤ a.toNat → t.memory a = d.memory a

/-- A function runs in its frame, with room for some words below it. Globals are not on the stack. -/
structure Active (P : Platform) (s : Site) (c : Core) (n : Nat) : Prop where
  frame : c.sp + (s.allocation.frameSize + slotBytes * s.allocation.calleeSaved.length) = (c.reg .rbp).toNat
  high : (c.reg .rbp).toNat + (argumentBase + slotBytes * s.graph.params.length) ≤ P.stackHigh.toNat
  room : P.Room c n
  symbols : ∀ label, (P.symbol label).toNat + slotBytes ≤ 2 ^ 64 ∧
    ((P.symbol label).toNat + slotBytes ≤ P.stackLow.toNat ∨ P.stackHigh.toNat ≤ (P.symbol label).toNat)

/-- The literals of a pool are in memory. -/
def Stored (P : Platform) (c : Core) (pool : FloatPool) : Prop :=
  ∀ x label, (x, label) ∈ pool.entries → c.memory.load (P.symbol label) = some x.bits.toBitVec

/-- The word that an argument stands for. -/
def Means (P : Platform) (s : Site) (c : Core) : Arg → Word → Prop
  | .var v, w => ∃ l bank, s.allocation.locations[v]? = some l ∧ P.read c bank (ofLocation l) = .ok w
  | .const (.int i), w => w = extended i
  | .const (.float x), w => w = x.bits.toBitVec
  | .str label, w => w = P.symbol label

/-- The code of a call, before it and behind it, passes the arguments and keeps what is needed afterwards. -/
def Crosses (P : Platform) (s : Site) (after : VarSet) (result : Option VarId) (before behind : List Inst) (c : Core)
    (values : List Word) : Prop :=
  ∃ d, P.Leads before c d ∧
    (∀ k w, values[k]? = some w → d.memory.load (d.reg .rsp + .ofNat 64 (slotBytes * k)) = some w) ∧
    ∀ t, Honours P values.length d t → ∃ e, P.Leads behind (P.trim t) e ∧ e.reg .rsp = c.reg .rsp ∧
      ∀ v ∈ after, v ∉ s.graph.memoryResident → result ≠ some v → ∃ l, s.allocation.locations[v]? = some l ∧
        ∀ bank, P.read e bank (ofLocation l) = P.read c bank (ofLocation l)

/-! ## Places -/

theorem read_stack (c : Core) (o : Int32) : P.read c bank (.stack o) = c.load (c.reg .rbp + extended o) := by
  simp [Platform.read, Platform.address, Operand.stack]
  rfl

theorem read_symbol (c : Core) (label : Label) : P.read c bank (.global label 0) = c.load (P.symbol label) := by
  simp [Platform.read, Platform.address, extended]
  rfl

theorem load_congr {a : Word} (fits : a.toNat + 8 ≤ 2 ^ 64)
    (same : ∀ b : Word, a.toNat ≤ b.toNat → b.toNat < a.toNat + 8 → d.memory b = c.memory b) : d.load a = c.load a := by
  have word := Memory.word_congr fits same
  simp only [Memory.word, BitVec.ofNat_toNat, BitVec.setWidth_eq] at word
  rw [Core.load, Core.load, word]

section Places

variable (active : Active P s c n) (placed : Allocation.Placed s.graph s.allocation p depth)
include active placed

/-- A variable on the stack lies above the stack pointer. -/
theorem Active.word (here : s.allocation.locations[v]? = some (.stack o)) :
    ((c.reg .rbp + extended o).toNat : Int) = (c.reg .rbp).toNat + o.toInt ∧
      c.sp ≤ (c.reg .rbp + extended o).toNat ∧ (c.reg .rbp + extended o).toNat + 8 ≤ P.stackHigh.toNat := by
  have frame := active.frame
  have high := active.high
  have bound := P.stackHigh.isLt
  have signed := toInt_extended o
  rw [BitVec.toInt_eq_toNat_cond] at signed
  have range : -(s.allocation.frameSize : Int) ≤ o.toInt ∧
      o.toInt + 8 ≤ argumentBase + slotBytes * s.graph.params.length := by
    rcases placed.stack_cases here with ⟨k, there, low⟩ | ⟨-, lies, low⟩
    · have inside := (List.getElem?_eq_some_iff.1 there).1
      simp only [slotBytes, argumentBase] at *
      omega
    · have within := Nat.le_trans lies.within placed.frame_le
      simp only [slotBytes, argumentBase] at *
      omega
  simp only [slotBytes, argumentBase, BitVec.toNat_add] at *
  split at signed <;> omega

/-- A state with the same frame and the same bytes holds the same on the stack. -/
theorem Active.read_stack (here : s.allocation.locations[v]? = some (.stack o)) (frame : d.reg .rbp = c.reg .rbp)
    (memory : ∀ a, P.onStack a → c.sp ≤ a.toNat → (c.reg .rbp + extended o).toNat ≤ a.toNat →
      a.toNat < (c.reg .rbp + extended o).toNat + 8 → d.memory a = c.memory a) :
    P.read d bank (.stack o) = P.read c bank (.stack o) := by
  obtain ⟨-, low, high⟩ := active.word placed here
  have lowest := active.room.1
  have bound := P.stackHigh.isLt
  rw [Lowering.read_stack, Lowering.read_stack, frame]
  exact load_congr (by omega) fun a first last => memory a (onStack_iff.2 (by omega)) (by omega) first last

omit active in
/-- What is not in memory anyway is no global. -/
theorem not_global (free : v ∉ s.graph.memoryResident) (name : Label) :
    s.allocation.locations[v]? ≠ some (.global name) := by
  intro here
  obtain ⟨x, declared, isGlobal⟩ := placed.named here
  exact free (Graph.mem_memoryResident.2 (.inr ⟨x, declared, by simp [isGlobal]⟩))

omit placed in
theorem Active.load_symbol (pushed : P.Pushed c d ws) (label : Label) :
    d.load (P.symbol label) = c.load (P.symbol label) := by
  obtain ⟨fits, apart⟩ := active.symbols label
  refine load_congr fits fun a first last => pushed.memory a fun on => ?_
  have inside := onStack_iff.1 on
  simp only [slotBytes] at apart
  omega

theorem Active.read_pushed (pushed : P.Pushed c d ws) (here : s.allocation.locations[v]? = some l) :
    P.read d bank (ofLocation l) = P.read c bank (ofLocation l) := by
  cases l with
  | reg r =>
    obtain ⟨notStack, -, notScratch⟩ := allocatable_apart r (placed.general here).1
    simp only [ofLocation, Platform.read, pushed.reg r notStack notScratch]
  | xmm x =>
    simp only [ofLocation, Platform.read, pushed.xmm x (allocatableFloats_apart x (placed.float here).1)]
  | stack o =>
    exact active.read_stack placed here (pushed.reg _ (by decide) (by decide)) fun a _ above _ _ =>
      pushed.memory a fun _ => above
  | global name => rw [ofLocation, read_symbol, read_symbol, active.load_symbol pushed]

end Places

/-! ## Arguments -/

theorem gives_intern {x : Double} {label : Label} (given : Gives (LowerM.intern x) w label w') :
    (x, label) ∈ w'.floats.entries ∧ w.floats.entries ⊆ w'.floats.entries := by
  have same : Gives (LowerM.intern x) w (w.floats.intern x w.supply).1
      ⟨(w.floats.intern x w.supply).2.1, (w.floats.intern x w.supply).2.2⟩ := rfl
  obtain ⟨rfl, rfl⟩ := given.unique same
  unfold FloatPool.intern
  split
  next found =>
    obtain ⟨front, back, split, -⟩ := lookup_eq_some_iff.1 found
    exact ⟨by simp [split], fun _ => id⟩
  · exact ⟨by simp, subset_append_left ..⟩

/-- The address of a global is taken to a temporary. -/
theorem leads_lea (P : Platform) (c : Core) (label : Label) :
    ∃ d, P.Leads [.lea scratch2 (.global label 0)] c d ∧ P.Pushed c d [] ∧ d.reg scratch2 = P.symbol label := by
  refine ⟨P.trim (c.setReg scratch2 (P.symbol label)), ?_, ⟨rfl, by simp, fun _ _ other =>
    Core.reg_setReg_of_ne other .., fun _ _ => rfl, fun _ above => trim_above above⟩, rfl⟩
  simp [leads_single, act, Platform.address, extended, bind, Except.bind, Platform.write]

/-- The bank of a value. -/
def bankOf (float : Bool) : Bank := if float then .float else .int

/-- What comes before an operand makes it the argument, and literals are only added to the pool. -/
theorem leads_operand {load : List Inst} {float : Bool} (placed : Allocation.Placed s.graph s.allocation p depth)
    (kind : isFloat s x = .ok float) (given : Gives (operand s x) w (load, y) w') :
    w.floats.entries ⊆ w'.floats.entries ∧
      ∀ {P c d ws n v}, Active P s c n → Stored P c w'.floats → P.Pushed c d ws → Means P s c x v →
        ∃ e, P.Leads load d e ∧ P.Pushed d e [] ∧ P.read e (bankOf float) y = .ok v := by
  cases x with
  | var u =>
    simp only [operand, place, Site.location, gives_bind, gives_ofExcept, gives_pure, bind_eq_ok, pure_eq_ok,
      orFault_eq_ok, Prod.mk.injEq] at given
    obtain ⟨_, _, ⟨⟨l, here, rfl⟩, rfl⟩, ⟨rfl, rfl⟩, rfl⟩ := given
    simp only [isFloat, Site.var, bind_eq_ok, pure_eq_ok, orFault_eq_ok] at kind
    obtain ⟨x, declared, rfl⟩ := kind
    refine ⟨fun _ => id, fun {P c d ws n v} active _ pushed means => ⟨d, rfl, .refl P d, ?_⟩⟩
    obtain ⟨l', bank, here', read⟩ := means
    cases here.symm.trans here'
    rw [active.read_pushed placed pushed here, ← read]
    cases l with
    | reg r =>
      obtain ⟨-, y, declared', notFloat⟩ := placed.general here
      cases declared.symm.trans declared'
      cases bank with
      | int => rw [notFloat]; rfl
      | float => cases read
    | xmm z =>
      obtain ⟨-, y, declared', isFloat⟩ := placed.float here
      cases declared.symm.trans declared'
      cases bank with
      | int => cases read
      | float => rw [isFloat]; rfl
    | stack | global => rfl
  | const k =>
    cases k with
    | int i =>
      cases kind
      cases given
      refine ⟨fun _ => id, fun {P c d ws n v} _ _ _ means => ⟨d, rfl, .refl P d, ?_⟩⟩
      cases means
      exact congrArg Except.ok (Int32.toBitVec_toInt64 i)
    | float x =>
      cases kind
      obtain ⟨label, _, interned, made⟩ := gives_bind.1 given
      cases made
      obtain ⟨listed, kept⟩ := gives_intern interned
      refine ⟨kept, fun {P c d ws n v} active stored pushed means => ⟨d, rfl, .refl P d, ?_⟩⟩
      cases means
      rw [read_symbol, active.load_symbol pushed, Core.load_eq_ok, stored x label listed]
  | str label =>
    cases kind
    cases given
    refine ⟨fun _ => id, fun {P c d ws n v} _ _ _ means => ?_⟩
    obtain ⟨e, led, pushed, same⟩ := leads_lea P d label
    cases means
    exact ⟨e, led, pushed, congrArg Except.ok same⟩

/-- A float that is not in a register is pushed by way of one. -/
theorem leads_pushFloat (room : P.Room c 1) (read : P.read c .float y = .ok b) :
    ∃ d, P.Leads ([.movsd (.xmm floatScratch) y] ++ pushXmm floatScratch) c d ∧ P.Pushed c d [some b] := by
  let d := c.setXmm floatScratch b
  have moved : P.Leads [.movsd (.xmm floatScratch) y] c d := by
    rw [leads_single, act, move, read]
    rfl
  have same : d.xmm floatScratch = b := by simp [d, Core.setXmm]
  have aside : P.Pushed c d [] := ⟨rfl, by simp, fun _ _ _ => rfl, fun _ other => if_neg other, fun _ _ => rfl⟩
  obtain ⟨e, led, pushed⟩ := leads_pushXmm (P := P) (c := d) room floatScratch
  exact ⟨e, moved.append led, aside.append (same ▸ pushed)⟩

/-- An argument is pushed after other words. -/
theorem leads_pushArg (placed : Allocation.Placed s.graph s.allocation p depth)
    (given : Gives (pushArg s x) w code w') : w.floats.entries ⊆ w'.floats.entries ∧
      ∀ {P c d ws n v}, Active P s c n → Stored P c w'.floats → P.Pushed c d ws → P.Room d 1 → Means P s c x v →
        ∃ e, P.Leads code d e ∧ P.Pushed d e [some v] := by
  obtain ⟨float, load, y, last, kind, loaded, rfl, shape⟩ := pushArg_cases given
  have pushes {P : Platform} {d b} (room : P.Room d 1) (read : P.read d (bankOf float) y = .ok b) :
      ∃ e, P.Leads last d e ∧ P.Pushed d e [some b] := by
    obtain ⟨rfl, rfl⟩ | ⟨rfl, ⟨r, rfl, rfl⟩ | rfl⟩ := shape
    · exact leads_push room read
    · cases read
      exact leads_pushXmm room r
    · exact leads_pushFloat room read
  obtain ⟨grown, leads⟩ := leads_operand placed kind loaded
  refine ⟨grown, fun {P c d ws n v} active stored pushed room means => ?_⟩
  obtain ⟨d', led, aside, read⟩ := leads active stored pushed means
  obtain ⟨e, led', more⟩ := pushes (room.pushed aside (Nat.le_refl _)) read
  exact ⟨e, led.append led', aside.append more⟩

theorem leads_pushArgs (placed : Allocation.Placed s.graph s.allocation p depth)
    (given : Gives (pushArgs s args) w code w') : w.floats.entries ⊆ w'.floats.entries ∧
      ∀ {P c d ws n values}, Active P s c n → Stored P c w'.floats → P.Pushed c d ws → ws.length + args.length ≤ n →
        List.Forall₂ (Means P s c) args values → ∃ e, P.Leads code d e ∧ P.Pushed c e (ws ++ values.map some) := by
  induction args generalizing w code with
  | nil =>
    cases given
    refine ⟨fun _ => id, fun {P c d ws n values} _ _ pushed _ means => ?_⟩
    cases means
    exact ⟨d, rfl, pushed.append (.refl P d)⟩
  | cons x rest ih =>
    simp only [pushArgs, gives_bind, gives_pure] at given
    obtain ⟨first, _, here, others, _, later, rfl, rfl⟩ := given
    obtain ⟨grown, leads⟩ := leads_pushArg placed here
    obtain ⟨grown', leads'⟩ := ih later
    refine ⟨fun _ member => grown' (grown member), fun {P c d ws n values} active stored pushed room means => ?_⟩
    cases means with
    | cons means more =>
      rw [length_cons] at room
      obtain ⟨e, led, pushed'⟩ := leads active (fun x label member => stored x label (grown' member)) pushed
        (active.room.pushed pushed (by omega)) means
      obtain ⟨e', led', all⟩ := leads' active stored (pushed.append pushed') (by simp; omega) more
      exact ⟨e', led.append led', by simpa using all⟩

/-! ## Results -/

variable {result : Option VarId} {places : List Location} {after : VarSet}

section Results

variable {u : VarId} {k : Location} (active : Active P s c n) (placed : Allocation.Placed s.graph s.allocation p depth)
include active placed

/-- Assigning to a variable changes its register or, on the stack, its word. -/
theorem Active.write_frame (here : s.allocation.locations[u]? = some k)
    (written : P.write c bank b (ofLocation k) = .ok d) :
    (∀ r, k ≠ .reg r → d.reg r = c.reg r) ∧ (∀ x, k ≠ .xmm x → d.xmm x = c.xmm x) ∧
      ∀ a, P.onStack a → c.sp ≤ a.toNat → (∀ o, k = .stack o → ¬(a - (c.reg .rbp + extended o)).toNat < 8) →
        d.memory a = c.memory a := by
  cases k with
  | reg q =>
    cases bank with
    | float => cases written
    | int =>
      cases written
      have sp : (c.setReg q b).sp = c.sp :=
        congrArg BitVec.toNat (Core.reg_setReg_of_ne (Ne.symm (allocatable_apart q (placed.general here).1).1) ..)
      exact ⟨fun r other => Core.reg_setReg_of_ne (fun same => other (congrArg Location.reg same.symm)) ..,
        fun _ _ => rfl, fun a _ low _ => trim_above fun _ => sp ▸ low⟩
  | xmm z =>
    cases bank with
    | int => cases written
    | float =>
      cases written
      exact ⟨fun _ _ => rfl, fun x other => if_neg fun same => other (congrArg Location.xmm same.symm),
        fun _ _ _ _ => rfl⟩
  | stack o =>
    have address : P.address c (.stack o) = .ok (c.reg .rbp + extended o) := by
      simp [Platform.address, Operand.stack]
    cases (write_of_memory rfl address).symm.trans written
    exact ⟨fun _ _ => rfl, fun _ _ => rfl, fun a _ low apart => (store_above fun _ => low).trans (if_neg (apart o rfl))⟩
  | global name =>
    have address : P.address c (.global name 0) = .ok (P.symbol name) := by simp [Platform.address, extended]
    cases (write_of_memory rfl address).symm.trans written
    refine ⟨fun _ _ => rfl, fun _ _ => rfl, fun a on low _ => (store_above fun _ => low).trans (if_neg fun inside => ?_)⟩
    obtain ⟨fits, apart⟩ := active.symbols name
    have between := onStack_iff.1 on
    rw [BitVec.toNat_sub] at inside
    simp only [slotBytes] at *
    omega

/-- Assigning to a variable leaves others alone that are not in its register. -/
theorem Active.write_apart (here : s.allocation.locations[u]? = some k)
    (written : P.write c bank b (ofLocation k) = .ok d) : d.reg .rsp = c.reg .rsp ∧
    ∀ v l, s.allocation.locations[v]? = some l → v ∉ s.graph.memoryResident → u ≠ v → ¬s.allocation.Share u v →
      ∀ bank, P.read d bank (ofLocation l) = P.read c bank (ofLocation l) := by
  obtain ⟨regs, xmms, bytes⟩ := active.write_frame placed here written
  have stays : ∀ r ∉ allocatable, d.reg r = c.reg r := by
    intro r outside
    refine regs r ?_
    rintro rfl
    exact outside (placed.general here).1
  refine ⟨stays _ (by decide), fun v l there free different apart bank => ?_⟩
  have other : l.isRegister → k ≠ l := by
    rintro register rfl
    exact apart ⟨_, register, here, there⟩
  cases l with
  | reg r => simp only [ofLocation, Platform.read, regs r (other rfl)]
  | xmm x => simp only [ofLocation, Platform.read, xmms x (other rfl)]
  | stack o =>
    refine active.read_stack placed there (stays _ (by decide)) fun a on low first last => bytes a on low ?_
    rintro o' rfl
    obtain ⟨spot, -, high⟩ := active.word placed there
    obtain ⟨spot', -, high'⟩ := active.word placed here
    have bound := P.stackHigh.isLt
    have distance := placed.word_apart different free here there
    rw [BitVec.toNat_sub]
    simp only [slotBytes] at *
    omega
  | global name => exact absurd there (not_global placed free name)

/-- The result comes to its variable and changes nothing else that is needed. -/
theorem Active.leads_receive (given : receive s result = .ok code) : ∃ d, P.Leads code c d ∧ d.reg .rsp = c.reg .rsp ∧
      ∀ v l, s.allocation.locations[v]? = some l → v ∉ s.graph.memoryResident → result ≠ some v →
        (∀ u, result = some u → ¬s.allocation.Share u v) →
        ∀ bank, P.read d bank (ofLocation l) = P.read c bank (ofLocation l) := by
  cases result with
  | none =>
    cases given
    exact ⟨c, rfl, rfl, fun _ _ _ _ _ _ _ => rfl⟩
  | some u =>
    simp only [receive, place, Site.location, Site.var, bind_eq_ok, pure_eq_ok, orFault_eq_ok] at given
    obtain ⟨_, ⟨k, here, rfl⟩, x, declared, given⟩ := given
    obtain ⟨bank, b, d, led, written⟩ : ∃ bank b d, P.Leads code c d ∧ P.write c bank b (ofLocation k) = .ok d := by
      cases k with
      | reg q =>
        obtain ⟨-, y, declared', notFloat⟩ := placed.general here
        cases declared.symm.trans declared'
        rw [notFloat] at given
        cases given
        exact ⟨.int, _, _, leads_single.2 rfl, rfl⟩
      | xmm z =>
        obtain ⟨-, y, declared', float⟩ := placed.float here
        cases declared.symm.trans declared'
        rw [float] at given
        cases given
        exact ⟨.float, _, _, leads_single.2 rfl, rfl⟩
      | stack | global =>
        cases float : x.ty.isFloat <;> rw [float] at given <;> cases given
        · exact ⟨.int, _, _, leads_single.2 rfl, rfl⟩
        · exact ⟨.float, _, _, leads_single.2 rfl, rfl⟩
    obtain ⟨rsp, others⟩ := active.write_apart placed here written
    exact ⟨d, led, rsp, fun v l there free other apart =>
      others v l there free (fun same => other (congrArg some same)) (apart u rfl)⟩

end Results

/-! ## Calls -/

/-- The places that are saved: all that a callee may change and that are still needed. -/
theorem saved_spec
    (placed : Allocation.Placed s.graph s.allocation p depth) (given : saved s after result = .ok places) :
    places.length ≤ after.size ∧ (∀ l ∈ places, Volatile l) ∧
      ∀ v ∈ after, result ≠ some v → ∃ l, s.allocation.locations[v]? = some l ∧ (isVolatile l → l ∈ places) := by
  simp only [saved, bind_eq_ok, pure_eq_ok] at given
  obtain ⟨live, found, rfl⟩ := given
  have length := (mapM_eq_ok.1 found).length_eq
  refine ⟨?_, fun l member => ?_, fun v needed other => ?_⟩
  · rw [← length_toList]
    exact Nat.le_trans (length_filter_le ..) (length ▸ length_filter_le ..)
  · obtain ⟨inside, volatile⟩ := mem_filter.1 member
    obtain ⟨v, -, here⟩ := mem_of_mapM found inside
    rw [Site.location, orFault_eq_ok] at here
    cases l with
    | reg r => exact ⟨(placed.general here).1, by simpa [isVolatile, Reg.isCalleeSaved] using volatile⟩
    | xmm x => exact (placed.float here).1
    | stack | global => cases volatile
  · have listed : v ∈ after.toList.filter (some · ≠ result) := by simp [needed, Ne.symm other]
    obtain ⟨l, member, here⟩ := exists_of_forall₂ (mapM_eq_ok.1 found) listed
    exact ⟨l, orFault_eq_ok.1 here, fun volatile => mem_filter.2 ⟨member, volatile⟩⟩

/-- What is found once the callee has come back and the registers are restored. -/
theorem Active.comes_back {pad vs : List (Option Word)} (active : Active P s c n) (volatile : ∀ l ∈ places, Volatile l)
    (pushed : P.Pushed c d (places.map (fun l => some (kept c l)) ++ pad ++ vs))
    (enough : places.length + pad.length + vs.length ≤ n) (honours : Honours P vs.length d t) :
    ∃ e, P.Leads ((if slotBytes * (vs.length + pad.length) > 0 then
        [shrink (slotBytes * (vs.length + pad.length))] else []) ++ places.reverse.flatMap restore) (P.trim t) e ∧
      (∀ r ∈ preserved, e.reg r = c.reg r) ∧ (∀ l ∈ places, kept e l = kept c l) ∧
      ∀ a, P.onStack a → c.sp ≤ a.toNat → e.memory a = c.memory a := by
  have sp := pushed.sp
  have bound : c.sp < 2 ^ 64 := (c.reg .rsp).isLt
  obtain ⟨low, high⟩ := active.room
  simp only [length_append, length_map] at sp
  have rsp : (P.trim t).sp = d.sp := congrArg BitVec.toNat (honours.reg .rsp (by decide))
  have same : ∀ a, P.onStack a → d.sp + 8 * vs.length ≤ a.toNat → (P.trim t).memory a = d.memory a :=
    fun a on above => (trim_above fun _ => rsp ▸ (by omega)).trans (honours.memory a on above)
  have back : P.Back c (P.trim t) (P.trim t) (vs.length + pad.length + places.length) := by
    refine ⟨by omega, fun r member other => ?_, fun _ _ _ => rfl⟩
    refine (honours.reg r member).trans (pushed.reg r other ?_)
    rintro rfl
    revert member
    decide
  obtain ⟨u, cleaned, back⟩ : ∃ u, P.Leads (if slotBytes * (vs.length + pad.length) > 0 then
      [shrink (slotBytes * (vs.length + pad.length))] else []) (P.trim t) u ∧
      P.Back c (P.trim t) u places.length := by
    split
    · exact ⟨_, leads_single.2 rfl, back.drop _⟩
    next none =>
      refine ⟨_, rfl, ?_⟩
      rwa [(by simp only [slotBytes] at none; omega : vs.length + pad.length = 0), Nat.zero_add] at back
  obtain ⟨e, restored, done, all⟩ := back.restores volatile (active.room.pushed (.refl P c) (by simp; omega)) (by
    intro j l found
    obtain ⟨inside, rfl⟩ := List.getElem?_eq_some_iff.1 found
    rw [← pushed.words j _ (by simp [getElem?_append, inside])]
    exact Memory.word_congr (by omega) fun a first last => same a (onStack_iff.2 (by omega)) (by omega))
  have home : e.sp = c.sp := done.sp
  refine ⟨e, cleaned.append restored, fun r member => ?_, fun l member => all l (volatile l member) (.inl member),
    fun a on above => ?_⟩
  · by_cases stack : r = .rsp
    · exact stack ▸ BitVec.eq_of_toNat_eq home
    · exact done.reg r member stack
  · rw [done.memory a on (home ▸ above), same a on (by omega), pushed.memory a fun _ => above]

theorem crosses_call {name : Label} (placed : Allocation.Placed s.graph s.allocation p depth)
    (given : Gives (call s name args result after) w code w')
    (alone : ∀ u, result = some u → ∀ v ∈ after, v ∉ s.graph.memoryResident → u ≠ v → ¬s.allocation.Share u v) :
    ∃ before behind, code = before ++ .call name :: behind ∧ ∀ {P c values},
      Active P s c (after.size + args.length + 1) → Stored P c w'.floats →
        List.Forall₂ (Means P s c) args values → Crosses P s after result before behind c values := by
  simp only [call, gives_bind, gives_ofExcept, gives_pure] at given
  obtain ⟨places, _, ⟨live, -⟩, pushes, _, passed, received, _, ⟨gets, rfl⟩, rfl, rfl⟩ := given
  obtain ⟨few, volatile, covered⟩ := saved_spec placed live
  obtain ⟨count, counted⟩ : ∃ count, count = (places.length + args.length) % 2 := ⟨_, rfl⟩
  rw [← counted]
  refine ⟨places.flatMap save ++ (if count = 1 then [grow slotBytes] else []) ++ pushes, _, by simp; rfl,
    fun {P c values} active stored means => ?_⟩
  have length := means.length_eq
  obtain ⟨d₁, saves, pushed₁⟩ := leads_saves volatile (active.room.pushed (.refl P c) (by simp; omega))
  obtain ⟨pad, d₂, padded, pushed₂, rfl⟩ : ∃ pad d₂, P.Leads (if count = 1 then [grow slotBytes] else []) d₁ d₂ ∧
      P.Pushed d₁ d₂ pad ∧ pad.length = count := by
    split
    next odd =>
      obtain ⟨d₂, grown, -, sunk⟩ := leads_grow (active.room.pushed pushed₁ (by simp; omega))
      exact ⟨_, d₂, grown, sunk, odd.symm⟩
    · exact ⟨[], d₁, rfl, .refl P d₁, by simp; omega⟩
  have pushed₂ := pushed₁.append pushed₂
  obtain ⟨d, led, pushed⟩ := (leads_pushArgs placed passed).2 active stored pushed₂ (by simp; omega)
    (forall₂_reverse_iff.2 means)
  have sp := pushed.sp
  simp only [length_append, length_map, length_reverse] at sp
  refine ⟨d, (saves.append padded).append led, fun k w found => ?_, fun t honours => ?_⟩
  · obtain ⟨inside, rfl⟩ := List.getElem?_eq_some_iff.1 found
    have spot : d.reg .rsp + .ofNat 64 (slotBytes * k) = .ofNat 64 (d.sp + 8 * k) := by
      simp [Core.sp, BitVec.ofNat_add, slotBytes]
    rw [spot, ← pushed.words (places.length + pad.length + (values.length - 1 - k)) values[k]]
    · exact congrArg (Memory.word _) (by omega)
    · rw [getElem?_append_right (by simp)]
      simp [(by omega : values.length - 1 - (values.length - 1 - k) = k),
        (by omega : values.length - 1 - k < values.length)]
  · obtain ⟨e₁, led₁, regs, saved, memory⟩ :=
      active.comes_back volatile pushed (by simp; omega) (by simpa using honours)
    have rsp := regs .rsp (by decide)
    have rbp := regs .rbp (by decide)
    have sp₁ : e₁.sp = c.sp := congrArg BitVec.toNat rsp
    have active₁ : Active P s e₁ (after.size + args.length + 1) :=
      ⟨by rw [sp₁, rbp]; exact active.frame, rbp ▸ active.high, by rw [Room, sp₁]; exact active.room, active.symbols⟩
    obtain ⟨e, led₂, home, others⟩ := active₁.leads_receive placed gets
    refine ⟨e, ?_, home.trans rsp, fun v needed free other => ?_⟩
    · simpa [length] using led₁.append led₂
    · obtain ⟨l, here, listed⟩ := covered v needed other
      refine ⟨l, here, fun bank => (others v l here free other (fun u same => ?_) bank).trans ?_⟩
      · exact alone u same v needed free fun equal => other (equal ▸ same)
      · cases l with
        | reg r =>
          have back : e₁.reg r = c.reg r := by
            by_cases keeps : r ∈ calleeSaved
            · exact regs r (.tail _ (.tail _ keeps))
            · exact saved (.reg r) (listed (by simpa [isVolatile, Reg.isCalleeSaved] using keeps))
          simp only [ofLocation, Platform.read, back]
        | xmm x =>
          have back : e₁.xmm x = c.xmm x := saved (.xmm x) (listed rfl)
          simp only [ofLocation, Platform.read, back]
        | stack o => exact active.read_stack placed here rbp fun a on low _ _ => memory a on low
        | global name => exact absurd here (not_global placed free name)

end Lowering

open Lowering X86

/-- Values survive calls: the arguments are on the stack when the callee starts, and whatever it does to other
registers and to memory, all that is needed afterwards is where it was. -/
theorem values_survive_calls {g : Graph} {live : Solution VarSet} {loops : Loops} {a : Allocation} {b : BlockId}
    {k : Nat} {q : Quad} {after : VarSet} {points : List VarSet} {w w' : Literals} {code : List Inst}
    (linked : g.Linked) (solved : g.liveness = .ok live) (allocated : allocate g live loops = .ok a)
    (member : b ∈ g.layout) (here : (g.body b)[k]? = some q) (pointed : g.livePoints live b = .ok points)
    (at_k : points[k]? = some after)
    (calls : (∃ f xs, q.op = .call f xs) ∨ (∃ x, q.op = .print x) ∨ q.op = .printLine ∨ q.op = .read)
    (given : Gives (quad ⟨g, a⟩ q after) w code w') :
    ∃ before name behind, code = before ++ .call name :: behind ∧ ∀ P c values,
      Active P ⟨g, a⟩ c (after.size + q.op.args.length + 1) → Stored P c w'.floats →
        List.Forall₂ (Means P ⟨g, a⟩ c) q.op.args values → Crosses P ⟨g, a⟩ after q.result before behind c values := by
  obtain ⟨p, depth, result⟩ := allocate_result linked solved allocated
  have alone : ∀ u, q.result = some u → ∀ v ∈ after, v ∉ g.memoryResident → u ≠ v → ¬a.Share u v := by
    intro u assigned v needed _ different
    cases at_k.symm.trans (Liveness.points_getElem? pointed here)
    exact result.not_share (fun fit fit' =>
      result.complete.assigned b member k q u v here assigned fit needed fit' different) different
  obtain ⟨name, r, w₁, called, either⟩ : ∃ name r w₁, Gives (call ⟨g, a⟩ name q.op.args r after) w₁ code w' ∧
      (r = none ∨ r = q.result) := by
    simp only [quad] at given
    split at given
    · simp [Site.malformed] at given
    obtain ⟨_, w₁, -, given⟩ := gives_bind.1 given
    rcases calls with ⟨f, xs, op⟩ | ⟨x, op⟩ | op | op <;> simp only [op] at given ⊢
    · exact ⟨_, _, _, given, .inr rfl⟩
    · obtain ⟨name, _, -, given⟩ := gives_bind.1 given
      exact ⟨_, _, _, given, .inl rfl⟩
    · exact ⟨_, _, _, given, .inl rfl⟩
    · exact ⟨_, _, _, given, .inr rfl⟩
  obtain ⟨before, behind, split, crosses⟩ := crosses_call (s := ⟨g, a⟩) result.toPlaced called fun u same => by
    rcases either with rfl | rfl
    · cases same
    · exact alone u same
  refine ⟨before, name, behind, split, fun P c values active stored means => ?_⟩
  obtain ⟨d, led, passed, back⟩ := crosses active stored means
  refine ⟨d, led, passed, fun t honours => ?_⟩
  obtain ⟨e, led', home, kept⟩ := back t honours
  refine ⟨e, led', home, fun v needed free other => kept v needed free ?_⟩
  rcases either with rfl | rfl
  · simp
  · exact other

/-- A machine with a stack of one page, on which no call comes back by itself. -/
def X86.Platform.vacant : Platform where
  stackLow := 0x1000
  stackHigh := 0x2000
  symbol _ := 0x4000
  floatOp _ x _ := x
  compareFloats := .ofSub
  floatOfInt := id
  intOfFloat := id
  callee _ _ := none
  callee_mono _ answered := by cases answered

/-- A state in the middle of the stack, with two words between the stack and the frame pointer. -/
def X86.Core.resting : Core :=
  ⟨⟨fun r => if r = .rsp then 0x1800 else if r = .rbp then 0x1810 else 5, fun _ => 7, fun _ => none⟩, none⟩

/-- An integer and a float survive a call with padding. -/
theorem weighing_survives : ∃ live a after code w before name behind, weighing.graph.place = .ok (live, a) ∧
    Gives (quad ⟨weighing.graph, a⟩ ⟨some 3, .call "weighing" [.var 1]⟩ after) {} code w ∧ after.toList = [1, 2, 3] ∧
    code = before ++ .call name :: behind ∧
    Crosses .vacant ⟨weighing.graph, a⟩ after (some 3) before behind .resting [5] := by
  let q : Quad := ⟨some 3, .call "weighing" [.var 1]⟩
  let run : Except Failure (Option Location × List Nat) := do
    let placed ← weighing.graph.place
    let points ← weighing.graph.livePoints placed.1 1
    let after ← orFault points[0]?
    let _ ← (outcome (quad ⟨weighing.graph, placed.2⟩ q after) {}).1
    pure (placed.2.locations[1]?, placed.2.frameSize :: placed.2.calleeSaved.length ::
      (outcome (quad ⟨weighing.graph, placed.2⟩ q after) {}).2.floats.size :: after.toList)
  have succeeds : run.toOption = some (some (.reg .rcx), [8, 1, 0, 1, 2, 3]) := by decide +kernel
  rcases ran : run with e | r <;> rw [ran] at succeeds <;> cases succeeds
  simp only [run, bind_eq_ok, pure_eq_ok, orFault_eq_ok, Prod.mk.injEq, List.cons.injEq] at ran
  obtain ⟨⟨live, a⟩, placed, points, pointed, after, at_k, code, given, here, frame, saved, floats, needed⟩ := ran
  have given := gives_of_ok given
  obtain ⟨d, solved, -, allocated⟩ := Graph.place_eq_ok.1 placed
  have size : after.size = 3 := by rw [← length_toList, needed]; rfl
  obtain ⟨before, name, behind, split, crosses⟩ := values_survive_calls (q := q) (weighing.graph_linked rfl)
    solved allocated (b := 1) (by decide +kernel) (by decide +kernel) pointed at_k (.inl ⟨_, _, rfl⟩) given
  refine ⟨live, a, after, code, _, before, name, behind, placed, given, needed, split, crosses _ _ _ ?_ ?_ ?_⟩
  · refine ⟨?_, ?_, ?_, ?_⟩
    · change Core.resting.sp + (a.frameSize + slotBytes * a.calleeSaved.length) = _
      rw [frame, saved]
      decide
    · change _ + (argumentBase + slotBytes * weighing.params.length) ≤ _
      decide
    · rw [size]
      exact ⟨by decide, by decide⟩
    · intro label
      change (0x4000#64).toNat + _ ≤ _ ∧ ((0x4000#64).toNat + _ ≤ _ ∨ _ ≤ (0x4000#64).toNat)
      decide
  · intro x label member
    rw [length_eq_zero_iff.1 floats] at member
    cases member
  · exact .cons ⟨_, .int, here, rfl⟩ .nil

end Quadcode
