import Quadcode.Proofs.Lowering.Layout
import Quadcode.Proofs.X86.Machine

/-!
# Code that does the same

A machine with more bytes defined, and with other flags where none are looked at, does the same as long
as nothing undefined is needed. From this follows what it takes to replace a piece of a routine by
another: only that the two pieces do the same by themselves, and that they leave to the same place.
-/

namespace Quadcode.X86

open Platform Inst

/-! ## Memory -/

namespace Memory

variable {m m' : Memory} {a w : Word}

theorem load_eq_some : m.load a = some w ↔ ∀ i < 8, m (a + .ofNat 64 i) = some (byteOf w i) := by
  unfold load
  constructor
  · intro loaded i inside
    split at loaded
    next defined =>
      cases loaded
      obtain ⟨b, found⟩ := Option.isSome_iff_exists.1 (defined i inside)
      rw [byteOf_wordOf _ inside, found]
      rfl
    · cases loaded
  · intro bytes
    rw [if_pos fun i inside => by simp [bytes i inside], Option.some.injEq]
    refine (wordOf_congr fun i inside => ?_).trans (wordOf_byteOf w)
    rw [bytes i inside, Option.getD_some]

theorem load_mono (atMost : ∀ a b, m a = some b → m' a = some b) (loaded : m.load a = some w) : m'.load a = some w :=
  load_eq_some.2 fun i inside => atMost _ _ (load_eq_some.1 loaded i inside)

theorem store_mono (atMost : ∀ a b, m a = some b → m' a = some b) (b : Word) (x : Byte)
    (stored : m.store a w b = some x) : m'.store a w b = some x := by
  unfold store at *
  split at stored
  next inside => rwa [if_pos inside]
  next outside => rw [if_neg outside, atMost b x stored]

theorem load_store : (m.store a w).load a = some w := by
  refine load_eq_some.2 fun i inside => ?_
  have offset : (a + .ofNat 64 i - a).toNat = i := by bv_omega
  rw [store, offset, if_pos inside]

/-- Storing what is there changes nothing. -/
theorem store_eq_self (loaded : m.load a = some w) : m.store a w = m := by
  funext b
  unfold store
  split
  next inside =>
    have byte := load_eq_some.1 loaded (b - a).toNat inside
    rwa [BitVec.ofNat_toNat, BitVec.setWidth_eq, BitVec.add_comm, BitVec.sub_add_cancel, eq_comm] at byte
  · rfl

end Memory

theorem Contents.AtMost.refl (c : Contents) : c.AtMost c := ⟨rfl, rfl, fun _ _ => id⟩

theorem Contents.AtMost.trans {c d e : Contents} (first : c.AtMost d) (second : d.AtMost e) : c.AtMost e where
  reg := second.reg.trans first.reg
  xmm := second.xmm.trans first.xmm
  memory a b found := second.memory a b (first.memory a b found)

/-! ## Results that may be undefined -/

/-- `y` is a result for `x`, which may be anything where `x` is undefined. -/
inductive Covers {α β : Type} (rel : α → β → Prop) : Except Fault α → Except Fault β → Prop where
  | undefined (y : Except Fault β) : Covers rel (.error .undefined) y
  | trap : Covers rel (.error .trap) (.error .trap)
  | ok {a : α} {b : β} (related : rel a b) : Covers rel (.ok a) (.ok b)

namespace Covers

variable {α β γ δ : Type} {rel : α → β → Prop} {x : Except Fault α} {y : Except Fault β} {rel' : γ → δ → Prop}

theorem of_eq {rel : α → α → Prop} (refl : ∀ a, rel a a) (x : Except Fault α) : Covers rel x x :=
  match x with
  | .error .undefined => .undefined _
  | .error .trap => .trap
  | .ok a => .ok (refl a)

theorem bind {f : α → Except Fault γ} {g : β → Except Fault δ} (first : Covers rel x y)
    (rest : ∀ a b, rel a b → Covers rel' (f a) (g b)) : Covers rel' (x >>= f) (y >>= g) := by
  cases first with
  | undefined y => exact .undefined _
  | trap => exact .trap
  | ok related => exact rest _ _ related

theorem map {f : α → γ} {g : β → δ} (covers : Covers rel x y) (images : ∀ a b, rel a b → rel' (f a) (g b)) :
    Covers rel' (x.map f) (y.map g) := by
  cases covers with
  | undefined y => exact .undefined _
  | trap => exact .trap
  | ok related => exact .ok (images _ _ related)

theorem mono {rel' : α → β → Prop} (covers : Covers rel x y) (weaker : ∀ a b, rel a b → rel' a b) :
    Covers rel' x y := by
  cases covers with
  | undefined y => exact .undefined _
  | trap => exact .trap
  | ok related => exact .ok (weaker _ _ related)

theorem trans {rel' : β → γ → Prop} {rel'' : α → γ → Prop} {z : Except Fault γ} (first : Covers rel x y)
    (second : Covers rel' y z) (compose : ∀ a b c, rel a b → rel' b c → rel'' a c) : Covers rel'' x z := by
  cases first with
  | undefined y => exact .undefined _
  | trap =>
    cases second
    exact .trap
  | ok related =>
    cases second with
    | ok related' => exact .ok (compose _ _ _ related related')

end Covers

/-! ## Machines that do the same -/

/-- `t` is `s`, perhaps with more bytes defined, and with the same flags where they are observed. -/
structure Core.Alike (observed : Bool) (s t : Core) : Prop where
  contents : s.AtMost t.toContents
  flags : observed → s.flags = t.flags

namespace Core.Alike

variable {b b' : Bool} {s t u : Core}

theorem refl (b : Bool) (s : Core) : s.Alike b s := ⟨.refl _, fun _ => rfl⟩

theorem weaken (alike : s.Alike b t) (less : b' → b) : s.Alike b' t :=
  ⟨alike.contents, fun observed => alike.flags (less observed)⟩

theorem trans (first : s.Alike b t) (second : t.Alike b' u) : s.Alike (b && b') u where
  contents := first.contents.trans second.contents
  flags observed := by
    rw [Bool.and_eq_true] at observed
    exact (first.flags observed.1).trans (second.flags observed.2)

variable (alike : s.Alike b t)
include alike

theorem setReg (r : Reg) (w : Word) : (s.setReg r w).Alike b (t.setReg r w) where
  contents := ⟨by simp [Core.setReg, alike.contents.reg], alike.contents.xmm, alike.contents.memory⟩
  flags := alike.flags

theorem setXmm (x : Xmm) (w : Word) : (s.setXmm x w).Alike b (t.setXmm x w) where
  contents := ⟨alike.contents.reg, by simp [Core.setXmm, alike.contents.xmm], alike.contents.memory⟩
  flags := alike.flags

/-- New flags are the same whatever the old ones were. -/
theorem setFlags (b' : Bool) (f : Option Flags) : (s.setFlags f).Alike b' (t.setFlags f) :=
  ⟨⟨alike.contents.reg, alike.contents.xmm, alike.contents.memory⟩, fun _ => rfl⟩

theorem trim (P : Platform) : (P.trim s).Alike b (P.trim t) where
  contents := by
    refine ⟨alike.contents.reg, alike.contents.xmm, fun a x found => ?_⟩
    simp only [Platform.trim, Core.setMemory, alike.contents.reg] at found ⊢
    split at found
    · cases found
    next kept =>
      rw [if_neg kept]
      exact alike.contents.memory a x found
  flags := alike.flags

theorem store (P : Platform) (a w : Word) : (P.store s a w).Alike b (P.store t a w) := by
  have stored : (s.setMemory (s.memory.store a w)).Alike b (t.setMemory (t.memory.store a w)) :=
    ⟨⟨alike.contents.reg, alike.contents.xmm, Memory.store_mono alike.contents.memory⟩, alike.flags⟩
  exact stored.trim P

end Core.Alike

/-- Forgetting bytes leaves the rest as it is. -/
theorem Platform.trim_alike (P : Platform) (b : Bool) (s : Core) : (P.trim s).Alike b s where
  contents := by
    refine ⟨rfl, rfl, fun a x found => ?_⟩
    simp only [trim, Core.setMemory] at found
    split at found
    · cases found
    · exact found
  flags _ := rfl

section Acting

variable {P : Platform} {b : Bool} {s t : Core} (alike : s.Alike b t)
include alike

theorem Core.Alike.address (o : Operand) : P.address t o = P.address s o := by
  cases o <;> simp [Platform.address, alike.contents.reg]

theorem Core.Alike.load (a : Word) : Covers Eq (s.load a) (t.load a) := by
  unfold Core.load
  cases loaded : s.memory.load a with
  | none => exact .undefined _
  | some w =>
    rw [Memory.load_mono alike.contents.memory loaded]
    exact .ok rfl

theorem Core.Alike.read (bank : Bank) (o : Operand) : Covers Eq (P.read s bank o) (P.read t bank o) := by
  cases o with
  | reg r =>
    simp only [Platform.read, alike.contents.reg]
    exact .of_eq (fun _ => rfl) _
  | xmm x =>
    simp only [Platform.read, alike.contents.xmm]
    exact .of_eq (fun _ => rfl) _
  | imm i => exact .of_eq (fun _ => rfl) _
  | mem | global =>
    simp only [Platform.read]
    rw [alike.address]
    exact (Covers.of_eq (fun _ => rfl) _).bind fun a _ same => same ▸ alike.load a

theorem Core.Alike.write (bank : Bank) (w : Word) (o : Operand) :
    Covers (Core.Alike b) (P.write s bank w o) (P.write t bank w o) := by
  cases o with
  | reg r =>
    simp only [Platform.write]
    split
    · exact .ok ((alike.setReg r w).trim P)
    · exact .undefined _
  | xmm x =>
    simp only [Platform.write]
    split
    · exact .ok (alike.setXmm x w)
    · exact .undefined _
  | imm i => exact .undefined _
  | mem | global =>
    simp only [Platform.write]
    rw [alike.address]
    exact (Covers.of_eq (fun _ => rfl) _).bind fun a _ same => same ▸ .ok (alike.store P a w)

theorem Core.Alike.move (bank : Bank) (d x : Operand) :
    Covers (Core.Alike b) (P.move s bank d x) (P.move t bank d x) := by
  unfold Platform.move
  split
  · exact .undefined _
  · exact (alike.read bank x).bind fun w _ same => same ▸ alike.write bank w d

theorem Core.Alike.divide (b' : Bool) (divisor : Word) :
    Covers (Core.Alike b') (s.divide divisor) (t.divide divisor) := by
  simp only [Core.divide, alike.contents.reg]
  split
  · exact .trap
  · exact .ok (((alike.setReg _ _).setReg _ _).setFlags b' none)

/-- An instruction does the same on both machines, and where it sets the flags they are the same
afterwards. -/
theorem Core.Alike.act {i : Inst} (reads : i.readsFlags → b) :
    Covers (Core.Alike (b || i.writesFlags)) (P.act s i) (P.act t i) := by
  have regs := alike.contents.reg
  have xmms := alike.contents.xmm
  have flags : ∀ f b', (s.setFlags f).Alike b' (t.setFlags f) := fun f b' => alike.setFlags b' f
  cases i with
  | label l => exact .ok (alike.weaken (by simp [writesFlags]))
  | mov d x => exact (alike.move .int d x).mono fun _ _ h => h.weaken (by simp [writesFlags])
  | movsd d x => exact (alike.move .float d x).mono fun _ _ h => h.weaken (by simp [writesFlags])
  | lea r x =>
    simp only [Platform.act]
    rw [alike.address]
    exact (Covers.of_eq (fun _ => rfl) _).bind fun a _ same =>
      same ▸ (alike.write .int a _).mono fun _ _ h => h.weaken (by simp [writesFlags])
  | int op d x =>
    simp only [Platform.act]
    split
    · exact .undefined _
    · refine (alike.read .int d).bind fun y _ same => same ▸ ?_
      refine (alike.read .int x).bind fun z _ same => same ▸ ?_
      exact (flags _ _).write .int _ d
  | float op d x =>
    simp only [Platform.act, xmms]
    refine (alike.read .float x).bind fun y _ same => same ▸ .ok ?_
    exact (alike.setXmm d _).weaken (by simp [writesFlags])
  | neg d =>
    refine (alike.read .int d).bind fun w _ same => same ▸ ?_
    exact (flags _ _).write .int _ d
  | movsxd | cqo =>
    simp only [Platform.act, regs]
    exact (alike.write .int _ _).mono fun _ _ h => h.weaken (by simp [writesFlags])
  | idiv x => exact (alike.read .int x).bind fun y _ same => same ▸ alike.divide _ y
  | cmp x y =>
    simp only [Platform.act]
    split
    · exact .undefined _
    · refine (alike.read .int x).bind fun y _ same => same ▸ ?_
      exact (alike.read .int _).bind fun z _ same => same ▸ .ok (flags _ _)
  | ucomisd x y =>
    simp only [Platform.act, xmms]
    exact (alike.read .float y).bind fun z _ same => same ▸ .ok (flags _ _)
  | set c r =>
    simp only [Platform.act]
    rw [← alike.flags (reads rfl)]
    cases s.flags with
    | none => exact .undefined _
    | some f => exact (alike.write .int _ _).mono fun _ _ h => h.weaken (by simp [writesFlags])
  | cvtsi2sd x y =>
    refine (alike.read .int y).bind fun z _ same => same ▸ .ok ?_
    exact (alike.setXmm x _).weaken (by simp [writesFlags])
  | cvttsd2si r x =>
    refine (alike.read .float x).bind fun z _ same => same ▸ ?_
    exact (alike.write .int _ _).mono fun _ _ h => h.weaken (by simp [writesFlags])
  | push x =>
    have room : P.hasRoom t ↔ P.hasRoom s := by rw [hasRoom, hasRoom, regs]
    simp only [Platform.act, regs, room]
    refine (alike.read .int x).bind fun w _ same => same ▸ ?_
    split
    · exact .ok (((alike.setReg _ _).store P _ w).weaken (by simp [writesFlags]))
    · exact .undefined _
  | pop d =>
    simp only [Platform.act, regs]
    refine (alike.load _).bind fun w _ same => same ▸ ?_
    exact ((alike.setReg _ _).write .int w d).mono fun _ _ h => h.weaken (by simp [writesFlags])
  | jmp | jcc | call | ret => exact .undefined _

end Acting

end Quadcode.X86
