import Quadcode.Proofs.X86.Windows

/-!
# Peephole optimization keeps what code does

Every rule replaces a piece of code by one that does the same, so the optimized code makes the same
calls and returns with the same contents, as long as nothing undefined is needed. Where a byte is
undefined before, it may hold anything afterwards.

Two kinds of instructions are excluded: a conversion from a float scratch register, because the rule
for conversions lets that register keep what it held, and popping into the stack pointer, because the
word that was pushed for it may stay in reach.
-/

namespace Quadcode.X86

open List Platform Inst Peephole

variable {P : Platform} {i : Inst}

/-! ## Pieces that only move words -/

/-- Whether an instruction moves a word and does nothing else. -/
def Inst.isMove : Inst → Bool
  | .mov .. | .movsd .. | .push _ | .pop _ => true
  | _ => false

section Moving

variable {window window' rest : List Inst} {s : Core}

theorem Inst.isStraight_of_isMove (moves : i.isMove) : i.isStraight := by
  cases i <;> first | rfl | cases moves

theorem Inst.staysInside_of_isMove (moves : i.isMove) : i.staysInside := by
  cases i <;> first | rfl | cases moves

theorem labels_moves (moves : ∀ i ∈ window, i.isMove) : labels window = [] := by
  refine filterMap_eq_nil_iff.2 fun i member => ?_
  have moves := moves i member
  cases i <;> first | rfl | cases moves

theorem flagsObserved_moves (moves : ∀ i ∈ window, i.isMove) : flagsObserved (window ++ rest) = flagsObserved rest := by
  induction window with
  | nil => rfl
  | cons i window ih =>
    rw [← ih fun i member => moves i (.tail _ member)]
    have moves := moves i mem_cons_self
    cases i <;> first | rfl | cases moves

theorem piece_moves (moves : ∀ i ∈ window, i.isMove) (s : Core) :
    P.piece window s = (window.foldlM P.act s).map (none, ·) := by
  induction window generalizing s with
  | nil => rfl
  | cons i window ih =>
    rw [piece_act (isStraight_of_isMove (moves i mem_cons_self)), foldlM_cons]
    cases P.act s i with
    | error e => rfl
    | ok t => exact ih (fun i member => moves i (.tail _ member)) t

/-- Pieces that only move words replace each other if they do the same. -/
theorem Replaces.of_moves (nonempty : window ≠ []) (moves : ∀ i ∈ window, i.isMove) (moves' : ∀ i ∈ window', i.isMove)
    (acts : ∀ s, Covers (Core.Alike true) (window.foldlM P.act s) (window'.foldlM P.act s)) :
    Replaces P window window' rest where
  nonempty := nonempty
  inside i member := staysInside_of_isMove (moves i member)
  inside' i member := staysInside_of_isMove (moves' i member)
  unlabelled := labels_moves moves
  unlabelled' := labels_moves moves'
  observed := by
    rw [flagsObserved_moves moves, flagsObserved_moves moves']
    exact id
  acts s := by
    rw [piece_moves moves, piece_moves moves']
    exact (acts s).map fun _ _ alike => ⟨.inl rfl, alike.weaken fun _ => rfl⟩

theorem Bank.isMove_mov (bank : Bank) (d x : Operand) : (bank.mov d x).isMove := by
  cases bank <;> rfl

theorem act_mov (bank : Bank) (d x : Operand) : P.act s (bank.mov d x) = P.move s bank d x := by
  cases bank <;> rfl

end Moving

/-! ## Rules -/

section Rules

variable {bank : Bank} {d x d' x' : Operand} {window rest : List Inst} {r : Reg}

theorem act_two (s : Core) (i j : Inst) : [i, j].foldlM P.act s = (P.act s i >>= fun t => P.act t j) := by
  simp

theorem act_one (s : Core) (i : Inst) : [i].foldlM P.act s = P.act s i := by
  simp

theorem Covers.next {α β : Type} {rel : β → β → Prop} {x : Except Fault α} {f g : α → Except Fault β}
    (later : ∀ a, x = .ok a → Covers rel (f a) (g a)) : Covers rel (x >>= f) (x >>= g) :=
  match x with
  | .error .undefined => .undefined _
  | .error .trap => .trap
  | .ok a => later a rfl

/-- A step that does not trap may be left out if what follows makes up for it. -/
theorem Covers.skip {α β : Type} {rel : β → β → Prop} {x : Except Fault α} {y : Except Fault β} {f : α → Except Fault β}
    (quiet : x ≠ .error .trap) (later : ∀ a, x = .ok a → Covers rel (f a) y) :
    Covers rel (x >>= f) y :=
  match x with
  | .error .undefined => .undefined _
  | .error .trap => absurd rfl quiet
  | .ok a => later a rfl

theorem move_ne_trap (s : Core) : P.move s bank d x ≠ .error .trap := by
  unfold move
  split
  · exact nofun
  rcases read_cases P s bank x with failed | ⟨w, read⟩
  · rw [failed]
    exact nofun
  rw [read]
  cases memory : d.isMemory with
  | true =>
    obtain ⟨a, addressed⟩ := address_of_memory (P := P) (s := s) memory
    exact fun trapped => nomatch (write_of_memory memory addressed).symm.trans trapped
  | false =>
    cases d with
    | mem | global => cases memory
    | imm i => exact nofun
    | reg | xmm => cases bank <;> exact nofun

theorem push_ne_trap (s : Core) : P.act s (.push x) ≠ .error .trap := by
  simp only [act]
  rcases read_cases P s .int x with failed | ⟨w, read⟩
  · rw [failed]
    intro trapped
    cases trapped
  · rw [read]
    change (if _ then _ else _) ≠ _
    split <;>
    · intro trapped
      cases trapped

/-- Two moves. -/
theorem moves?_replaces (bank : Bank) (reduced : moves? bank.mov bank.file d x d' x' = some window) :
    Replaces P [bank.mov d x, bank.mov d' x'] window rest := by
  have moves : ∀ d x d' x', ∀ i ∈ [bank.mov d x, bank.mov d' x'], i.isMove := by
    simp [Bank.isMove_mov]
  have move : ∀ d x, ∀ i ∈ [bank.mov d x], i.isMove := by
    simp [Bank.isMove_mov]
  unfold moves? at reduced
  split at reduced
  next stored =>
    simp only [Bool.and_eq_true, decide_eq_true_eq] at stored
    obtain ⟨⟨⟨memory, file⟩, file'⟩, rfl⟩ := stored
    split at reduced
    next same =>
      subst same
      cases reduced
      refine .of_moves nofun (moves _ _ _ _) (move _ _) fun s => ?_
      rw [act_two, act_one, act_mov]
      refine .skip (move_ne_trap s) fun t moved => ?_
      rw [moved, act_mov]
      exact move_reload_self memory file moved
    · cases reduced
      refine .of_moves nofun (moves _ _ _ _) (moves _ _ _ _) fun s => ?_
      rw [act_two, act_two]
      refine .next fun t moved => ?_
      rw [act_mov] at moved ⊢
      rw [act_mov]
      exact move_reload memory file file' moved
  · split at reduced
    next back =>
      simp only [Bool.and_eq_true, decide_eq_true_eq] at back
      obtain ⟨⟨⟨rfl, rfl⟩, -⟩, independent⟩ := back
      cases reduced
      refine .of_moves nofun (moves _ _ _ _) (move _ _) fun s => ?_
      rw [act_two, act_one, act_mov]
      refine .skip (move_ne_trap s) fun t moved => ?_
      rw [moved, act_mov]
      exact move_back independent moved
    · split at reduced
      next overwritten =>
        simp only [Bool.and_eq_true, decide_eq_true_eq] at overwritten
        obtain ⟨⟨file, rfl⟩, independent⟩ := overwritten
        cases reduced
        refine .of_moves nofun (moves _ _ _ _) (move _ _) fun s => ?_
        rw [act_two, act_one, act_mov, act_mov]
        refine .skip (move_ne_trap s) fun t moved => ?_
        rw [act_mov]
        exact move_overwritten file independent moved
      · cases reduced

/-- A move to where the word is. -/
theorem move_self_replaces (bank : Bank) : Replaces P [bank.mov d d] [] rest := by
  refine .of_moves nofun (by simp [Bank.isMove_mov]) (by simp) fun s => ?_
  rw [act_one, act_mov]
  exact move_self

/-- An operation that changes only flags nobody looks at. -/
theorem int_replaces {op : IntOp} {i : Int64} (neutral : ∀ w, (op.apply w i.toBitVec).1 = w)
    (unobserved : flagsObserved rest = false) : Replaces P [.int op d (.imm i)] [] rest where
  nonempty := nofun
  inside := by simp [staysInside]
  inside' := by simp
  unlabelled := rfl
  unlabelled' := rfl
  observed observed := absurd (unobserved.symm.trans observed) Bool.false_ne_true
  acts s := by
    rw [piece_act rfl]
    refine (int_neutral neutral).bind (y := .ok s) fun t u alike => .ok ⟨.inl rfl, ?_⟩
    exact alike.weaken (by simp [unobserved])

theorem idle_replaces (idle : isIdle i rest) : Replaces P [i] [] rest := by
  unfold isIdle at idle
  split at idle
  · rw [of_decide_eq_true idle]
    exact move_self_replaces .int
  · rw [of_decide_eq_true idle]
    exact move_self_replaces .float
  · exact int_replaces (fun w => BitVec.add_zero w) (by simpa using idle)
  · exact int_replaces (fun w => BitVec.sub_zero w) (by simpa using idle)
  · exact int_replaces (fun w => BitVec.mul_one w) (by simpa using idle)
  · cases idle

/-- A word that is popped into a register is moved there. -/
theorem push_pop_replaces (other : r ≠ .rsp) : Replaces P [.push x, .pop (.reg r)] [.mov (.reg r) x] rest := by
  refine .of_moves nofun (by simp [isMove]) (by simp [isMove]) fun s => ?_
  rw [act_two, act_one]
  rcases read_cases P s .int x with failed | ⟨w, read⟩
  · simp only [act, failed]
    exact .undefined _
  have moved : P.act s (.mov (.reg r) x) = P.write s .int w (.reg r) := by
    change P.move s .int (.reg r) x = _
    rw [move_of_file (.inl rfl), read]
    rfl
  rw [moved]
  exact .skip (push_ne_trap s) fun t pushed => push_pop other read pushed

theorem push_pop_self_replaces (other : r ≠ .rsp) : Replaces P [.push (.reg r), .pop (.reg r)] [] rest := by
  refine .of_moves nofun (by simp [isMove]) (by simp) fun s => ?_
  rw [act_two]
  refine .skip (push_ne_trap s) fun t pushed => ?_
  have read : P.read s .int (.reg r) = .ok (s.reg r) := rfl
  refine (push_pop other read pushed).trans (write_same read) fun _ _ _ first second => ?_
  exact first.trans second

/-- A jump to the next instruction. -/
theorem jump_replaces {l : Label} : Replaces P [.jmp l] [] (.label l :: rest) where
  nonempty := nofun
  inside := by simp [staysInside]
  inside' := by simp
  unlabelled := rfl
  unlabelled' := rfl
  observed _ := rfl
  acts s := .ok ⟨.inr ⟨rfl, l, rest, rfl, rfl⟩, .refl _ s⟩

theorem Cond.holds_negate (c : Cond) (f : Flags) : c.negate.holds f = !c.holds f := by
  cases c <;> simp [Cond.negate, Cond.holds, bne]

/-- A jump around a jump. -/
theorem branch_replaces {c : Cond} {l t : Label} :
    Replaces P [.jcc c l, .jmp t] [.jcc c.negate t] (.label l :: rest) where
  nonempty := nofun
  inside := by simp [staysInside]
  inside' := by simp [staysInside]
  unlabelled := rfl
  unlabelled' := rfl
  observed _ := rfl
  acts s := by
    simp only [piece, Cond.holds_negate]
    cases s.flags with
    | none => exact .undefined _
    | some f =>
      cases holds : c.holds f with
      | true =>
        simp only [holds]
        exact .ok ⟨.inr ⟨rfl, l, rest, rfl, rfl⟩, .refl _ s⟩
      | false =>
        simp only [holds]
        exact .ok ⟨.inl rfl, .refl _ s⟩

end Rules

/-! ## Sweeps -/

/-- No conversion from a float scratch register, and no change of the stack pointer by popping. -/
def Inst.isRegular : Inst → Bool
  | .cvttsd2si _ (.xmm x) => x ≠ floatScratch && x ≠ floatScratch2
  | .pop (.reg r) => r ≠ .rsp
  | _ => true

namespace Peephole

variable {j : Inst} {code code' rest window : List Inst}

theorem isRegular_moves? (bank : Bank) {d x d' x' : Operand}
    (reduced : moves? bank.mov bank.file d x d' x' = some window) : ∀ i ∈ window, i.isRegular := by
  have regular : ∀ d x, (bank.mov d x).isRegular := fun d x => by cases bank <;> rfl
  unfold moves? at reduced
  repeat' split at reduced
  all_goals cases reduced <;> simp [regular]

/-- The rules for two instructions. The second one may stay behind as the place where a jump ends. -/
theorem pair?_replaces (reduced : pair? i j rest = some window) (regular : ∀ k ∈ i :: j :: rest, k.isRegular) :
    ∃ piece piece' after, i :: j :: rest = piece ++ after ∧ window ++ rest = piece' ++ after ∧
      (∀ k ∈ piece', k.isRegular) ∧ Replaces P piece piece' after := by
  unfold pair? at reduced
  split at reduced
  · split at reduced
    next same =>
      cases reduced
      subst same
      exact ⟨[.jmp _], [], _, rfl, rfl, by simp, jump_replaces⟩
    · cases reduced
  · split at reduced
    · split at reduced
      next same =>
        cases reduced
        subst same
        exact ⟨[.jcc _ _, .jmp _], [.jcc _ _], _, rfl, rfl, by simp [isRegular], branch_replaces⟩
      · cases reduced
    · cases reduced
  · exact ⟨[_, _], window, rest, rfl, rfl, isRegular_moves? .int reduced, moves?_replaces .int reduced⟩
  · exact ⟨[_, _], window, rest, rfl, rfl, isRegular_moves? .float reduced, moves?_replaces .float reduced⟩
  next r d =>
    have other : d ≠ .rsp := by simpa [isRegular] using regular (.pop (.reg d)) (by simp)
    cases reduced
    split
    next same =>
      subst same
      exact ⟨[_, _], [], rest, rfl, rfl, by simp, push_pop_self_replaces other⟩
    · exact ⟨[_, _], [_], rest, rfl, rfl, by simp [isRegular], push_pop_replaces other⟩
  next v d =>
    have other : d ≠ .rsp := by simpa [isRegular] using regular (.pop (.reg d)) (by simp)
    cases reduced
    exact ⟨[_, _], [_], rest, rfl, rfl, by simp [isRegular], push_pop_replaces other⟩
  next x o d x' =>
    -- A regular conversion reads no scratch register, so the rule for conversions does not apply.
    have kept : x' ≠ floatScratch ∧ x' ≠ floatScratch2 := by
      simpa [isRegular] using regular (.cvttsd2si d (.xmm x')) (by simp)
    split at reduced
    next scratch =>
      simp only [Bool.and_eq_true, Bool.or_eq_true, decide_eq_true_eq] at scratch
      obtain ⟨rfl, scratch⟩ := scratch
      exact (scratch.elim kept.1 kept.2).elim
    · cases reduced
  · cases reduced

theorem reduce?_replaces (reduced : reduce? code = some code') (regular : ∀ i ∈ code, i.isRegular) :
    ∃ piece piece' after, code = piece ++ after ∧ code' = piece' ++ after ∧
      (∀ i ∈ piece', i.isRegular) ∧ Replaces P piece piece' after := by
  obtain ⟨i, rfl, idle⟩ | ⟨i, j, rest, window, rfl, rfl, paired⟩ := reduce?_cases reduced
  · exact ⟨[i], [], _, rfl, rfl, by simp, idle_replaces idle⟩
  · exact pair?_replaces paired regular

/-- `code'` may stand in for `code` behind other code. -/
structure Stands (P : Platform) (before code code' : List Inst) : Prop where
  refines : P.Refines (before ++ code) (before ++ code')
  labels : labels code' = labels code
  regular : ∀ i ∈ code', i.isRegular

namespace Stands

variable {before code'' : List Inst}

theorem refl (regular : ∀ i ∈ code, i.isRegular) : Stands P before code code := ⟨.refl _, rfl, regular⟩

theorem trans (first : Stands P before code code') (second : Stands P before code' code'') :
    Stands P before code code'' :=
  ⟨first.refines.trans second.refines, second.labels.trans first.labels, second.regular⟩

theorem cons (regular : i.isRegular) (stands : Stands P (before ++ [i]) code code') :
    Stands P before (i :: code) (i :: code') where
  refines := by simpa using stands.refines
  labels := by rw [labels_cons, labels_cons, stands.labels]
  regular := forall_mem_cons.2 ⟨regular, stands.regular⟩

theorem reduce (reduced : reduce? code = some code') (distinct : (X86.labels (before ++ code)).Nodup)
    (regular : ∀ i ∈ code, i.isRegular) : Stands P before code code' := by
  obtain ⟨piece, piece', after, rfl, rfl, regular', replaces⟩ := reduce?_replaces (P := P) reduced regular
  refine ⟨replaces.refines before distinct, ?_, fun i member => ?_⟩
  · rw [labels_append, labels_append, replaces.unlabelled, replaces.unlabelled']
  · rcases mem_append.1 member with member | member
    · exact regular' i member
    · exact regular i (mem_append_right _ member)

theorem sweep (distinct : (X86.labels (before ++ code)).Nodup) (regular : ∀ i ∈ code, i.isRegular) :
    Stands P before code (sweep code).1 := by
  fun_induction Peephole.sweep code generalizing before with
  | case1 code reduced h out n eq ih =>
    have first : Stands P before code reduced := .reduce h distinct regular
    have distinct' : (X86.labels (before ++ reduced)).Nodup := by
      rwa [labels_append, first.labels, ← labels_append]
    have second := ih distinct' first.regular
    rw [eq] at second
    exact first.trans second
  | case2 => exact .refl regular
  | case3 i rest h out n eq ih =>
    have distinct' : (X86.labels (before ++ [i] ++ rest)).Nodup := by simpa using distinct
    have later := ih distinct' fun i member => regular i (.tail _ member)
    rw [eq] at later
    exact later.cons (regular i mem_cons_self)

theorem optimize (distinct : (X86.labels code).Nodup) (regular : ∀ i ∈ code, i.isRegular) :
    Stands P [] code (optimize code).1 := by
  fun_induction Peephole.optimize code with
  | case1 code swept none => exact sweep distinct regular
  | case2 code swept some out n eq ih =>
    have first : Stands P [] code swept.1 := sweep distinct regular
    have second := ih (by rwa [first.labels]) first.regular
    rw [eq] at second
    exact first.trans second

end Stands

/-- Optimized code does what the code does, as long as that needs nothing undefined. However long the
code runs, the optimized code comes to make the same calls in the same order, with the same registers
and the same memory at each of them, and if the code returns or traps, so does the optimized code, with
the same registers and memory. Nor does it make any other calls.

A byte that is undefined may hold anything, so memory is the same if all bytes agree that are defined
for the code. Below the stack pointer there are none. -/
theorem optimize_keeps_behaviour (P : Platform) {code : List Inst} (distinct : (labels code).Nodup)
    (regular : ∀ i ∈ code, i.isRegular) (s : Core) :
    (∀ n, ∃ n', (P.run code s n).Matches (P.run (optimize code).1 s n')) ∧
      ((∀ n, (P.run code s n).status ≠ .undefined) →
        ∀ n', ∃ n, List.Forall₂ Call.AtMost (P.run code s n).calls (P.run (optimize code).1 s n').calls) := by
  have stands : Stands P [] code (optimize code).1 := .optimize distinct regular
  refine ⟨fun n => ?_, fun defined => Platform.Refines.calls stands.refines defined⟩
  obtain ⟨pace, follows⟩ := stands.refines s
  obtain ⟨n', matched, -⟩ := follows n
  exact ⟨n', matched⟩

/-- Calls come back with what they were made with. -/
def echo : Platform where
  stackLow := 0x1000
  stackHigh := 0x2000
  symbol _ := 0x8000
  floatOp _ x _ := x
  compareFloats := .ofSub
  floatOfInt := id
  intOfFloat := id
  callee _ c := some (some ⟨c, none⟩)
  callee_mono := by
    rintro l c d answer atMost ⟨⟩
    exact ⟨_, rfl, .some ⟨atMost, rfl⟩⟩

/-- Passes its argument on through the stack, and jumps to the next line. -/
def relay : List Inst := [.push (.reg .rdi), .pop (.reg .rax), .call "g", .jmp "end", .label "end", .ret]

/-- In the middle of an empty stack. -/
def halfway : Core := ⟨⟨fun _ => 0x1800, fun _ => 0, fun _ => none⟩, none⟩

theorem optimize_keeps_behaviour_relay : (labels relay).Nodup ∧ (∀ i ∈ relay, i.isRegular) ∧
      (∃ c, (echo.run relay halfway 6).status = .returned c) ∧
      ∃ n, (echo.run relay halfway 6).Matches (echo.run (optimize relay).1 halfway n) :=
  ⟨by decide, by decide, ⟨_, rfl⟩, (optimize_keeps_behaviour echo (by decide) (by decide) halfway).1 6⟩

end Peephole

end Quadcode.X86
