import Quadcode.Proofs.X86.Windows

/-!
# Words on the stack

Pushing puts words below the stack pointer and leaves alone what lies above it and what is not on the
stack. Popping gives them back, whatever has become of most registers and of the words below.
-/

namespace Quadcode.X86

open Lowering List X86.Core Memory

/-- The word at an address that is given as a number. -/
def Memory.word (m : Memory) (n : Nat) : Option Word := m.load (.ofNat 64 n)

theorem Memory.word_congr {m m' : Memory} {n : Nat} (fits : n + 8 ≤ 2 ^ 64)
    (same : ∀ a : Word, n ≤ a.toNat → a.toNat < n + 8 → m' a = m a) : m'.word n = m.word n := by
  have bytes : ∀ i < 8, m' (.ofNat 64 n + .ofNat 64 i) = m (.ofNat 64 n + .ofNat 64 i) := by
    intro i small
    refine same _ ?_ ?_ <;> simp only [BitVec.toNat_add, BitVec.toNat_ofNat] <;> omega
  have defined : (∀ i < 8, (m' (.ofNat 64 n + .ofNat 64 i)).isSome) ↔ ∀ i < 8, (m (.ofNat 64 n + .ofNat 64 i)).isSome :=
    forall₂_congr fun i inside => by rw [bytes i inside]
  unfold word load
  simp only [defined]
  rw [wordOf_congr fun i inside => by rw [bytes i inside]]

/-- The stack pointer as a number. -/
def Core.sp (c : Core) : Nat := (c.reg .rsp).toNat

namespace Platform

variable {P : Platform} {c d e u : Core} {a b w : Word} {m n : Nat} {ws vs : List (Option Word)} {l : Location}
  {places : List Location}

/-- The stack pointer is on the stack, with room for some words below. -/
def Room (P : Platform) (c : Core) (n : Nat) : Prop := P.stackLow.toNat + 8 * n ≤ c.sp ∧ c.sp ≤ P.stackHigh.toNat

theorem onStack_iff : P.onStack a ↔ P.stackLow.toNat ≤ a.toNat ∧ a.toNat < P.stackHigh.toNat := by
  simp [onStack, BitVec.le_def, BitVec.lt_def]

theorem trim_above (above : P.onStack a → c.sp ≤ a.toNat) : (P.trim c).memory a = c.memory a := by
  refine if_neg ?_
  rw [Bool.and_eq_true, decide_eq_true_eq, BitVec.lt_def]
  exact fun below => absurd (above below.1) (Nat.not_le.2 below.2)

theorem store_above (above : P.onStack b → c.sp ≤ b.toNat) : (P.store c a w).memory b = c.memory.store a w b :=
  trim_above (c := c.setMemory _) above

/-- Some code leads from one state to the other. -/
def Leads (P : Platform) (code : List Inst) (c d : Core) : Prop := code.foldlM P.act c = .ok d

theorem Leads.append {code rest : List Inst} (first : P.Leads code c d) (second : P.Leads rest d e) :
    P.Leads (code ++ rest) c e := by
  rw [Leads, foldlM_append, first]
  exact second

theorem leads_single {i : Inst} : P.Leads [i] c d ↔ P.act c i = .ok d := by simp [Leads]

theorem load_top (c : Core) : P.address c .top = .ok (c.reg .rsp) ∧ c.memory.load (c.reg .rsp) = c.memory.word c.sp :=
  ⟨by simp [address, Operand.top, extended], by simp [Memory.word, sp]⟩

/-! ## Pushing -/

/-- Words have been pushed, of which some are known, in this order. Of the registers only temporaries may have
changed. -/
structure Pushed (P : Platform) (c d : Core) (ws : List (Option Word)) : Prop where
  sp : d.sp + 8 * ws.length = c.sp
  words : ∀ (j : Nat) w, ws[j]? = some (some w) → d.memory.word (c.sp - 8 * (j + 1)) = some w
  reg : ∀ r, r ≠ .rsp → r ≠ scratch2 → d.reg r = c.reg r
  xmm : ∀ x, x ≠ floatScratch → d.xmm x = c.xmm x
  memory : ∀ a, (P.onStack a → c.sp ≤ a.toNat) → d.memory a = c.memory a

theorem Pushed.refl (P : Platform) (c : Core) : P.Pushed c c [] :=
  ⟨rfl, by simp, fun _ _ _ => rfl, fun _ _ => rfl, fun _ _ => rfl⟩

theorem Room.pushed (room : P.Room c n) (pushed : P.Pushed c d ws) (enough : ws.length + m ≤ n) : P.Room d m := by
  have sp := pushed.sp
  simp only [Room] at *
  omega

/-- What is pushed later leaves the words alone that were pushed before. -/
theorem Pushed.append (first : P.Pushed c d ws) (second : P.Pushed d e vs) : P.Pushed c e (ws ++ vs) := by
  have high := first.sp
  have low := second.sp
  have bound : c.sp < 2 ^ 64 := (c.reg .rsp).isLt
  refine ⟨by rw [length_append]; omega, fun j w found => ?_, fun r other other' =>
    (second.reg r other other').trans (first.reg r other other'), fun x other =>
    (second.xmm x other).trans (first.xmm x other), fun a above =>
    (second.memory a fun on => Nat.le_trans (by omega) (above on)).trans (first.memory a above)⟩
  rcases Nat.lt_or_ge j ws.length with inside | outside
  · rw [getElem?_append_left inside] at found
    rw [← first.words j w found]
    exact word_congr (by omega) fun a _ _ => second.memory a fun _ => by omega
  · rw [getElem?_append_right outside] at found
    rw [← second.words _ w found]
    congr 1
    omega

section

variable (room : P.Room c 1)
include room

/-- The stack pointer goes down by a word. -/
theorem pushed_sunk (f : Option Flags) : P.Pushed c ((c.setFlags f).setReg .rsp (c.reg .rsp - 8)) [none] where
  sp := by
    have low := room.1
    simp only [Core.sp, Core.reg_setReg, List.length_singleton] at *
    bv_omega
  words j w found := by cases j <;> simp at found
  reg r other _ := Core.reg_setReg_of_ne other ..
  xmm _ _ := rfl
  memory _ _ := rfl

/-- A word is stored where the stack pointer has gone. -/
theorem Pushed.store (pushed : P.Pushed c d [none]) (w : Word) : P.Pushed c (P.store d (d.reg .rsp) w) [some w] := by
  obtain ⟨low, high⟩ := room
  have sp : d.sp + 8 = c.sp := pushed.sp
  have bound : c.sp < 2 ^ 64 := (c.reg .rsp).isLt
  refine ⟨pushed.sp, fun j v found => ?_, pushed.reg, pushed.xmm, fun b above => ?_⟩
  · obtain ⟨rfl, rfl⟩ : j = 0 ∧ w = v := by cases j <;> simp_all
    have here : (d.memory.store (d.reg .rsp) w).word d.sp = some w := by
      simpa [Memory.word, Core.sp] using Memory.load_store (m := d.memory) (a := d.reg .rsp) (w := w)
    rw [← here, (by omega : c.sp - 8 * (0 + 1) = d.sp)]
    exact word_congr (by omega) fun b above _ => store_above fun _ => above
  · rw [store_above fun on => Nat.le_trans (by omega) (above on), ← pushed.memory b above]
    refine if_neg fun inside => ?_
    have near : d.sp ≤ b.toNat ∧ b.toNat < c.sp := by
      simp only [Core.sp] at *
      bv_omega
    exact absurd (above (onStack_iff.2 (by omega))) (by omega)

theorem leads_push {o : Operand} (read : P.read c .int o = .ok w) :
    ∃ d, P.Leads [.push o] c d ∧ P.Pushed c d [some w] := by
  have free : P.hasRoom c := room
  refine ⟨_, leads_single.2 ?_, (pushed_sunk room c.flags).store room w⟩
  rw [act, read, Core.reg_setReg]
  exact if_pos free

theorem leads_grow : ∃ d, P.Leads [grow slotBytes] c d ∧ d.xmm = c.xmm ∧ P.Pushed c d [none] := by
  let f := some (Flags.ofSub (c.reg .rsp) 8)
  have sunk := pushed_sunk room f
  refine ⟨P.trim ((c.setFlags f).setReg .rsp (c.reg .rsp - 8)), leads_single.2 rfl, rfl, sunk.sp,
    fun j w found => by cases j <;> simp at found, sunk.reg, sunk.xmm,
    fun a above => (trim_above fun on => Nat.le_trans ?_ (above on)).trans (sunk.memory a above)⟩
  have sp := sunk.sp
  omega

theorem leads_pushXmm (x : Xmm) : ∃ d, P.Leads (pushXmm x) c d ∧ P.Pushed c d [some (c.xmm x)] := by
  obtain ⟨d, grown, xmm, pushed⟩ := leads_grow room
  have moved : P.Leads [.movsd .top (.xmm x)] d (P.store d (d.reg .rsp) (c.xmm x)) := by
    rw [leads_single, ← xmm]
    exact @write_of_memory P .float .top d _ _ rfl (load_top d).1
  exact ⟨_, grown.append moved, pushed.store room _⟩

end

/-! ## Saving registers -/

/-- A register that holds a variable and that callees may change. -/
def Volatile : Location → Prop
  | .reg r => r ∈ allocatable ∧ r ∉ calleeSaved
  | .xmm x => x ∈ allocatableFloats
  | _ => False

/-- What a register holds. -/
def kept (c : Core) : Location → Word
  | .reg r => c.reg r
  | .xmm x => c.xmm x
  | _ => 0

theorem allocatable_apart : ∀ r ∈ allocatable, r ≠ .rsp ∧ r ≠ .rbp ∧ r ≠ scratch2 := by decide

theorem allocatableFloats_apart : ∀ x ∈ allocatableFloats, x ≠ floatScratch := by decide

theorem Pushed.kept (pushed : P.Pushed c d ws) (volatile : Volatile l) : kept d l = kept c l := by
  cases l with
  | reg r => exact pushed.reg r (allocatable_apart r volatile.1).1 (allocatable_apart r volatile.1).2.2
  | xmm x => exact pushed.xmm x (allocatableFloats_apart x volatile)
  | stack | global => exact volatile.elim

theorem leads_saves (volatile : ∀ l ∈ places, Volatile l) (room : P.Room c places.length) :
    ∃ d, P.Leads (places.flatMap save) c d ∧ P.Pushed c d (places.map fun l => some (kept c l)) := by
  induction places generalizing c with
  | nil => exact ⟨c, rfl, .refl P c⟩
  | cons l rest ih =>
    obtain ⟨here, others⟩ := forall_mem_cons.1 volatile
    rw [length_cons] at room
    have one : P.Room c 1 := room.pushed (.refl P c) (by simp)
    obtain ⟨d, saved, pushed⟩ : ∃ d, P.Leads (save l) c d ∧ P.Pushed c d [some (kept c l)] := by
      cases l with
      | reg r => exact leads_push one rfl
      | xmm x => exact leads_pushXmm one x
      | stack | global => exact here.elim
    obtain ⟨e, saves, pushes⟩ := ih others (room.pushed pushed (by simp; omega))
    have same : rest.map (fun l => some (kept d l)) = rest.map fun l => some (kept c l) :=
      map_congr_left fun l member => congrArg some (pushed.kept (others l member))
    exact ⟨e, saved.append saves, pushed.append (same ▸ pushes)⟩

/-! ## Restoring registers -/

/-- Registers that a callee leaves as they were. -/
def preserved : List Reg := .rsp :: .rbp :: calleeSaved

/-- So many words are still to be popped from what the stack held in `d`. What a callee has to keep is as it was
in `c`, before they were pushed. -/
structure Back (P : Platform) (c d u : Core) (n : Nat) : Prop where
  sp : u.sp + 8 * n = c.sp
  reg : ∀ r ∈ preserved, r ≠ .rsp → u.reg r = c.reg r
  memory : ∀ a, P.onStack a → u.sp ≤ a.toNat → u.memory a = d.memory a

theorem Back.drop (back : P.Back c d u (m + n)) (f : Option Flags) :
    P.Back c d (P.trim ((u.setFlags f).setReg .rsp (u.reg .rsp + .ofNat 64 (8 * m)))) n := by
  have sp := back.sp
  have bound : c.sp < 2 ^ 64 := (c.reg .rsp).isLt
  have raised : (u.reg .rsp + .ofNat 64 (8 * m)).toNat = u.sp + 8 * m := by
    simp only [Core.sp, BitVec.toNat_add, BitVec.toNat_ofNat] at *
    omega
  refine ⟨(congrArg (· + 8 * n) raised).trans (by omega),
    fun r member other => (reg_setReg_of_ne other ..).trans (back.reg r member other), fun a on above => ?_⟩
  have low : u.sp + 8 * m ≤ a.toNat := raised ▸ above
  exact (trim_above (c := (u.setFlags f).setReg ..) fun _ => above).trans (back.memory a on (by omega))

def put (c : Core) (w : Word) : Location → Core
  | .reg r => c.setReg r w
  | .xmm x => c.setXmm x w
  | _ => c

theorem Back.put (volatile : Volatile l) (back : P.Back c d u n) : P.Back c d (put u w l) n := by
  cases l with
  | reg r =>
    have same : ∀ q ∈ preserved, (u.setReg r w).reg q = u.reg q := by
      intro q member
      refine reg_setReg_of_ne ?_ ..
      rintro rfl
      have apart : ∀ r ∈ allocatable, r ∈ preserved → r ∈ calleeSaved := by decide
      exact volatile.2 (apart q volatile.1 member)
    have sp : (u.setReg r w).sp = u.sp := congrArg BitVec.toNat (same .rsp (by decide))
    exact ⟨sp ▸ back.sp, fun q member other => (same q member).trans (back.reg q member other), sp ▸ back.memory⟩
  | xmm x => exact ⟨back.sp, back.reg, back.memory⟩
  | stack | global => exact volatile.elim

/-- A register gets back the word on top of the stack. -/
theorem Back.restore (volatile : Volatile l) (room : P.Room c (n + 1)) (back : P.Back c d u (n + 1))
    (there : d.memory.word u.sp = some w) : ∃ e, P.Leads (Lowering.restore l) u e ∧ P.Back c d e n ∧
      ∀ k, Volatile k → kept e k = if k = l then w else kept u k := by
  have sp := back.sp
  have bound : c.sp < 2 ^ 64 := (c.reg .rsp).isLt
  obtain ⟨low, high⟩ := room
  have top : u.load (u.reg .rsp) = .ok w := by
    rw [load_eq_ok, (load_top (P := P) u).2, ← there]
    exact word_congr (by omega) fun a first last => back.memory a (onStack_iff.2 (by omega)) first
  obtain ⟨f, led⟩ : ∃ f, P.Leads (Lowering.restore l) u
      (Platform.put (P.trim ((u.setFlags f).setReg .rsp (u.reg .rsp + 8))) w l) := by
    cases l with
    | reg r =>
      refine ⟨u.flags, leads_single.2 ?_⟩
      rw [ofLocation, act, top]
      change Except.ok (P.trim _) = _
      unfold trim
      rw [reg_setReg_of_ne (Ne.symm (allocatable_apart r volatile.1).1)]
      rfl
    | xmm x =>
      have moved : P.Leads [.movsd (.xmm x) .top] u (u.setXmm x w) := by
        have read : P.read u .float .top = .ok w := (read_of_memory rfl (load_top u).1).trans top
        rw [leads_single, act, move, read]
        rfl
      exact ⟨some (.ofAdd (u.reg .rsp) 8), moved.append (leads_single.2 rfl)⟩
    | stack | global => exact volatile.elim
  rw [Nat.add_comm] at back
  refine ⟨_, led, (back.drop f).put volatile, fun k other => ?_⟩
  cases l with
  | stack | global => exact volatile.elim
  | reg | xmm =>
    cases k with
    | reg q => simp [kept, Platform.put, setReg, setXmm, trim, setMemory, setFlags, (allocatable_apart q other.1).1]
    | xmm => simp [kept, Platform.put, setReg, setXmm, trim, setMemory, setFlags]
    | stack | global => exact other.elim

theorem Back.restores (volatile : ∀ l ∈ places, Volatile l) (room : P.Room c places.length)
    (there : ∀ (j : Nat) l, places[j]? = some l → d.memory.word (c.sp - 8 * (j + 1)) = some (kept c l))
    (back : P.Back c d u places.length) : ∃ e, P.Leads (places.reverse.flatMap Lowering.restore) u e ∧ P.Back c d e 0 ∧
      ∀ k, Volatile k → k ∈ places ∨ kept u k = kept c k → kept e k = kept c k := by
  induction places using List.reverseRecOn generalizing u with
  | nil => exact ⟨u, rfl, back, by simp⟩
  | append_singleton front l ih =>
    rw [length_append, length_singleton] at room back
    obtain ⟨others, here⟩ := forall_mem_append.1 volatile
    have sp := back.sp
    have word : d.memory.word u.sp = some (kept c l) := by
      rw [← there front.length l (by simp), ← sp]
      congr 1
      omega
    obtain ⟨e, restored, rest, held⟩ := back.restore (here l mem_cons_self) room word
    obtain ⟨e', restores, done, all⟩ := ih others (room.pushed (.refl P c) (by simp)) (fun j k found =>
      there j k (by rw [List.getElem?_append_left (List.getElem?_eq_some_iff.1 found).1, found])) rest
    refine ⟨e', ?_, done, fun k other old => all k other ?_⟩
    · rw [reverse_append, flatMap_append, reverse_singleton, flatMap_singleton]
      exact restored.append restores
    · rw [held k other]
      by_cases same : k = l
      · exact .inr (by simp [same])
      · simpa [same] using old

end Platform

end Quadcode.X86
