import Quadcode.Proofs.X86.Simulation

/-!
# Memory as words and as bytes

Integer code is described on words at aligned addresses, whole routines on bytes that may be undefined. Where both
descriptions say what an instruction does they say the same, and so they do along a run.
-/

namespace Quadcode.X86

open List Option Memory

/-- Where both have a result, the results belong together. -/
def Agree {α β : Type} (rel : α → β → Prop) (x : Except Fault α) (y : Option β) : Prop :=
  ∀ a b, x = .ok a → y = some b → rel a b

namespace Agree

variable {α β γ δ : Type} {rel : α → β → Prop} {rel' : γ → δ → Prop} {x : Except Fault α} {y : Option β}

theorem pure {a : α} {b : β} (related : rel a b) : Agree rel (.ok a) (some b) := by
  rintro _ _ ⟨⟩ ⟨⟩
  exact related

theorem error {e : Fault} : Agree rel (.error e) y := nofun

theorem none : Agree rel x none := nofun

theorem bind {f : α → Except Fault γ} {g : β → Option δ} (first : Agree rel x y)
    (later : ∀ a b, rel a b → Agree rel' (f a) (g b)) : Agree rel' (x >>= f) (y.bind g) := by
  intro c d made shown
  obtain ⟨a, here, made⟩ := bind_eq_ok.1 made
  obtain ⟨b, there, shown⟩ := bind_eq_some_iff.1 shown
  exact later a b (first a b here there) c d made shown

theorem map {f : α → γ} {g : β → δ} (agree : Agree rel x y) (related : ∀ a b, rel a b → rel' (f a) (g b)) :
    Agree rel' (x.map f) (y.map g) := by
  cases x with
  | error => exact .error
  | ok a =>
    cases y with
    | none => exact .none
    | some b => exact .pure (related a b (agree a b rfl rfl))

end Agree

/-- The word machine holds what the byte machine does, as far as that is defined. -/
structure Core.Shows (c : Core) (s : State) : Prop where
  reg : c.reg = s.reg
  flags : c.flags = s.flags
  memory : ∀ a w, a.toNat % slotBytes = 0 → c.memory.load a = some w → s.memory a = w

namespace Core.Shows

variable {P : Platform} {c : Core} {s : State} (shows : c.Shows s)
include shows

theorem trim : (P.trim c).Shows s where
  reg := shows.reg
  flags := shows.flags
  memory a w aligned loaded := shows.memory a w aligned (load_mono (P.trim_alike true c).contents.memory loaded)

theorem setReg (r : Reg) (w : Word) : (c.setReg r w).Shows (s.setReg r w) :=
  ⟨by simp [Core.setReg, State.setReg, shows.reg], shows.flags, shows.memory⟩

theorem setFlags (f : Option Flags) : (c.setFlags f).Shows (s.setFlags f) := ⟨shows.reg, rfl, shows.memory⟩

/-- Words at different aligned addresses have no byte in common. -/
theorem store (a w : Word) : Agree Core.Shows (.ok (P.store c a w)) (s.store a w) := by
  unfold State.store
  split
  next aligned =>
    refine .pure (trim ⟨shows.reg, shows.flags, fun b v aligned' loaded => ?_⟩)
    have shown : (s.setMemory a w).memory b = if b = a then w else s.memory b := rfl
    rw [shown]
    split
    next same =>
      subst same
      exact Option.some.inj (Memory.load_store.symm.trans loaded)
    next other =>
      refine shows.memory b v aligned' (load_eq_some.2 fun i inside => ?_)
      have byte := load_eq_some.1 loaded i inside
      have apart : ¬(b + .ofNat 64 i - a).toNat < 8 := by
        simp only [slotBytes] at aligned aligned'
        bv_omega
      exact (if_neg apart).symm.trans byte
  · exact .none

theorem load (a : Word) : Agree Eq (c.load a) (s.load a) := by
  unfold Core.load State.load
  cases loaded : c.memory.load a with
  | none => exact .error
  | some w =>
    by_cases aligned : a.toNat % slotBytes = 0
    · rw [if_pos aligned]
      exact .pure (shows.memory a w aligned loaded).symm
    · rw [if_neg aligned]
      exact .none

theorem address (base : Reg) (index : Option Reg) (offset : Int32) :
    P.address c (.mem base index offset) = .ok (s.address base index offset) := by
  rw [Platform.address, State.address, shows.reg]

theorem read (o : Operand) : Agree Eq (P.read c .int o) (s.read o) := by
  cases o with
  | reg r => exact .pure (congrFun shows.reg r)
  | imm i =>
    simp only [State.read]
    split
    · exact .pure rfl
    · exact .none
  | mem base index offset =>
    simp only [Platform.read, shows.address]
    exact shows.load _
  | xmm | global => exact .none

theorem write (w : Word) (o : Operand) : Agree Core.Shows (P.write c .int w o) (s.write w o) := by
  cases o with
  | reg r => exact .pure (shows.setReg r w).trim
  | mem base index offset =>
    simp only [Platform.write, shows.address]
    exact shows.store _ w
  | imm | xmm | global => exact .none

theorem divide (divisor : Word) : Agree Core.Shows (c.divide divisor) (s.divide divisor) := by
  simp only [Core.divide, State.divide, shows.reg]
  split
  · exact .error
  · exact .pure (((shows.setReg ..).setReg ..).setFlags none)

/-- Both machines do the same with an instruction. -/
theorem act (i : Inst) : Agree Core.Shows (P.act c i) (i.perform s) := by
  cases i with
  | label => exact .pure shows
  | mov d x =>
    simp only [Platform.act, Platform.move, Inst.perform]
    split
    · exact .error
    · exact (shows.read x).bind fun w _ same => same ▸ shows.write w d
  | int op d x =>
    simp only [Platform.act, Inst.perform]
    split
    · exact .error
    · refine (shows.read d).bind fun y _ same => same ▸ (shows.read x).bind fun z _ same => same ▸ ?_
      exact (shows.setFlags _).write _ d
  | neg d => exact (shows.read d).bind fun w _ same => same ▸ (shows.setFlags _).write _ d
  | movsxd r =>
    simp only [Platform.act, Inst.perform, shows.reg]
    exact shows.write _ (.reg r)
  | cqo =>
    simp only [Platform.act, Inst.perform, shows.reg]
    exact shows.write _ (.reg .rdx)
  | idiv x => exact (shows.read x).bind fun w _ same => same ▸ shows.divide w
  | cmp x y =>
    simp only [Platform.act, Inst.perform]
    split
    · exact .error
    · refine (shows.read x).bind fun v _ same => same ▸ (shows.read y).bind fun w _ same => same ▸ ?_
      exact .pure (shows.setFlags _)
  | set k r =>
    simp only [Platform.act, Inst.perform, shows.flags]
    cases s.flags with
    | none => exact .error
    | some f => exact shows.write _ (.reg r)
  | push x =>
    refine (shows.read x).bind fun w _ same => same ▸ ?_
    simp only [shows.reg]
    split
    · exact (shows.setReg ..).store _ w
    · exact .error
  | pop d =>
    simp only [Platform.act, Inst.perform, shows.reg]
    exact (shows.load _).bind fun w _ same => same ▸ (shows.setReg ..).write w d
  | movsd | lea | float | ucomisd | cvtsi2sd | cvttsd2si | jmp | jcc | call | ret => exact .none

end Core.Shows

/-! ## Runs -/

/-- Both machines are at the same place in a routine. -/
structure Configuration.Shows (routine : List Inst) (c : Configuration) (k : Snapshot) : Prop where
  code : c.code = routine.drop k.pc
  core : c.core.Shows k.state

theorem codeFrom_agree (l : Label) (routine : List Inst) :
    Agree (fun code n => code = routine.drop n) (codeFrom l routine) (target? routine l) := by
  unfold target?
  induction routine with
  | nil => exact .error
  | cons i rest ih =>
    rw [codeFrom, findIdx?_cons]
    by_cases here : i = .label l
    · simpa [here] using .pure rfl
    · rw [if_neg here, if_neg (by simpa using here)]
      intro code n found place
      obtain ⟨m, later, rfl⟩ := map_eq_some_iff.1 place
      exact ih code m found later

variable {P : Platform} {routine : List Inst} {c : Configuration} {k k' : Snapshot}

/-- Both machines take the same step. -/
theorem Configuration.Shows.step (shows : c.Shows routine k) :
    Agree (Shows routine) (P.advance routine c) (X86.step routine k) := by
  obtain ⟨code, core⟩ := c
  obtain ⟨pc, state⟩ := k
  obtain ⟨rfl, held⟩ : code = routine.drop pc ∧ core.Shows state := ⟨shows.code, shows.core⟩
  unfold X86.step
  cases here : routine[pc]? with
  | none =>
    rw [drop_eq_nil_of_le (getElem?_eq_none_iff.1 here)]
    exact .error
  | some i =>
    obtain ⟨bound, rfl⟩ := List.getElem?_eq_some_iff.1 here
    rw [drop_eq_getElem_cons bound]
    have jump (l : Label) : Agree (Shows routine) ((codeFrom l routine).map (⟨·, core⟩))
        ((target? routine l).map (⟨·, state⟩)) := (codeFrom_agree l routine).map fun _ _ place => ⟨place, held⟩
    have next (i : Inst) : Agree (Shows routine) ((P.act core i).map (⟨routine.drop (pc + 1), ·⟩))
        ((i.perform state).map (⟨pc + 1, ·⟩)) := (held.act i).map fun _ _ shown => ⟨rfl, shown⟩
    cases routine[pc] with
    | jmp l => exact jump l
    | jcc k l =>
      simp only [Platform.advance, held.flags]
      cases state.flags with
      | none => exact .error
      | some f =>
        simp only [bind_some]
        split
        · exact jump l
        · exact .pure ⟨rfl, held⟩
    | call | ret => exact .none
    | label l => exact next (.label l)
    | movsxd r => exact next (.movsxd r)
    | cqo => exact next .cqo
    | _ => exact next _

/-- Along a run of the word machine the byte machine shows the same, unless it needs something undefined or traps. -/
theorem Configuration.Shows.reaches (shows : c.Shows routine k) (path : Reaches routine k k') :
    ∃ d, Relation.ReflTransGen (fun c d => P.advance routine c = .ok d) c d ∧
      (d.Shows routine k' ∨ ∃ e, P.advance routine d = .error e) := by
  induction path with
  | refl => exact ⟨c, .refl, .inl shows⟩
  | tail _ stepped ih =>
    obtain ⟨d, ran, here | ⟨e, stuck⟩⟩ := ih
    · cases next : P.advance routine d with
      | error e => exact ⟨d, ran, .inr ⟨e, next⟩⟩
      | ok d' => exact ⟨d', ran.tail next, .inl (here.step _ _ next stepped)⟩
    · exact ⟨d, ran, .inr ⟨e, stuck⟩⟩

end Quadcode.X86
