import Quadcode.Proofs.Lowering.Layout

/-!
# Entering and leaving a routine

The prologue makes a frame, saves registers below it and takes the parameters to their registers; in
none of this does it overwrite an argument. The epilogue undoes it and leaves the result alone.
-/

namespace Quadcode

open List Option

namespace X86.State

/-- The stack pointer is where words are. -/
def Even (s : State) : Prop := (s.reg .rsp).toNat % slotBytes = 0

/-- An argument where the caller has put it, above the return address. -/
def argument (s : State) (k : Nat) : Word := s.memory (s.reg .rsp + .ofNat 64 (slotBytes * (k + 1)))

end X86.State

namespace Lowering

open X86

variable {s : Site} {t : State}

section Leaving

theorem perform_pop (even : t.Even) (r : Reg) : Inst.perform t (.pop (.reg r)) =
    some ((t.setReg .rsp (t.reg .rsp + 8)).setReg r (t.memory (t.reg .rsp))) := by
  have loaded : t.load (t.reg .rsp) = some (t.memory (t.reg .rsp)) := if_pos even
  simp [Inst.perform, loaded, State.write]

theorem perform_pops {rs : List Reg} (saved : ∀ r ∈ rs, r ∈ X86.calleeSaved) (even : t.Even) :
    ∃ t', perform t (rs.map fun r => .pop (.reg r)) = some t' ∧ t'.Even ∧
      t'.reg .rax = t.reg .rax ∧ t'.reg .rbp = t.reg .rbp := by
  induction rs generalizing t with
  | nil => exact ⟨t, rfl, even, rfl, rfl⟩
  | cons r rest ih =>
    have member := saved r mem_cons_self
    have notStack : Reg.rsp ≠ r := fun same => absurd (same ▸ member) (by decide)
    have notResult : Reg.rax ≠ r := fun same => absurd (same ▸ member) (by decide)
    have notFrame : Reg.rbp ≠ r := fun same => absurd (same ▸ member) (by decide)
    let u := (t.setReg .rsp (t.reg .rsp + 8)).setReg r (t.memory (t.reg .rsp))
    have even' : u.Even := by
      simp only [State.Even, u, reg_setReg, if_neg notStack, if_true, slotBytes, BitVec.toNat_add] at *
      have eight : BitVec.toNat (8 : Word) = 8 := rfl
      omega
    obtain ⟨t', performed, even', result, frame⟩ := ih (fun r' m => saved r' (mem_cons_of_mem _ m)) even'
    refine ⟨t', ?_, even', result.trans ?_, frame.trans ?_⟩
    · rw [map_cons, perform_cons, perform_pop even]
      exact performed
    · simp [u, notResult]
    · simp [u, notFrame]

/-- The epilogue comes to its return with the result in place. -/
theorem perform_epilogue (saved : ∀ r ∈ s.allocation.calleeSaved, r ∈ X86.calleeSaved) (even : t.Even)
    (aligned : t.Aligned) :
    ∃ code t', epilogue s = code ++ [.ret] ∧ perform t code = some t' ∧ t'.reg .rax = t.reg .rax := by
  obtain ⟨u, performed, -, result, frame⟩ := perform_pops (fun r member => saved r (mem_reverse.1 member)) even
  let v := u.setReg .rsp (t.reg .rbp)
  refine ⟨s.allocation.calleeSaved.reverse.map (fun r => .pop (.reg r)) ++
    [.mov (.reg .rsp) (.reg .rbp), .pop (.reg .rbp)],
    (v.setReg .rsp (v.reg .rsp + 8)).setReg .rbp (v.memory (v.reg .rsp)), ?_, ?_, ?_⟩
  · simp [epilogue]
  · have moved : Inst.perform u (.mov (.reg .rsp) (.reg .rbp)) = some v := by
      simp [Inst.perform, Operand.isMemory, State.read, State.write, frame, v]
    rw [perform_append, performed, bind_some, perform_cons, moved, bind_some, perform_cons,
      perform_pop (t := v) aligned]
    rfl
  · simp [v, result]

end Leaving

section Entering

variable {n : Nat}

theorem even_sub (even : t.Even) (words : n % slotBytes = 0) : (t.reg .rsp - .ofNat 64 n).toNat % slotBytes = 0 := by
  simp only [State.Even, slotBytes, BitVec.toNat_sub, BitVec.toNat_ofNat] at *
  omega

theorem perform_push (even : t.Even) (r : Reg) : Inst.perform t (.push (.reg r)) =
    some ((t.setReg .rsp (t.reg .rsp - 8)).setMemory (t.reg .rsp - 8) (t.reg r)) :=
  if_pos (even_sub even (n := 8) rfl)

/-- Saving registers changes the words below the stack pointer only. -/
theorem perform_pushes (rs : List Reg) (even : t.Even) :
    ∃ t', perform t (rs.map fun r => .push (.reg r)) = some t' ∧ t'.Even ∧ (∀ q, q ≠ .rsp → t'.reg q = t.reg q) ∧
      ∀ a, (∀ j < rs.length, a + BitVec.ofNat 64 (8 * (j + 1)) ≠ t.reg .rsp) → t'.memory a = t.memory a := by
  induction rs generalizing t with
  | nil => exact ⟨t, rfl, even, fun _ _ => rfl, fun _ _ => rfl⟩
  | cons r rest ih =>
    let u := (t.setReg .rsp (t.reg .rsp - 8)).setMemory (t.reg .rsp - 8) (t.reg r)
    have even' : u.Even := even_sub even (n := 8) rfl
    obtain ⟨t', performed, even'', same, kept⟩ := ih even'
    refine ⟨t', ?_, even'', fun q other => (same q other).trans (if_neg other), fun a apart => ?_⟩
    · rw [map_cons, perform_cons, perform_push even]
      exact performed
    · rw [kept a fun j small => ?_]
      · refine if_neg fun here => apart 0 (by simp) ?_
        rw [here]
        exact BitVec.sub_add_cancel _ _
      · intro here
        refine apart (j + 1) (by simpa using small) ?_
        have there : u.reg .rsp = t.reg .rsp - 8 := rfl
        rw [Nat.mul_add 8 (j + 1) 1, BitVec.ofNat_add, ← BitVec.add_assoc, here, there]
        exact BitVec.sub_add_cancel _ _

/-- Each parameter that has a register is taken there from its word. -/
theorem perform_params {ps : List (VarId × Nat)} {codes : List (List Inst)} (site : s.Integral) (aligned : t.Aligned)
    (reachable : ∀ p k, (p, k) ∈ ps → (Allocation.incoming k).Usable)
    (taken : ps.mapM (fun (p, k) => param s p k) = .ok codes) :
    ∃ t', perform t codes.flatten = some t' ∧ t'.memory = t.memory ∧ t'.reg .rbp = t.reg .rbp ∧
      t'.reg .rsp = t.reg .rsp ∧
      (∀ r, (∀ p k, (p, k) ∈ ps → s.allocation.locations[p]? ≠ some (.reg r)) → t'.reg r = t.reg r) ∧
      ∀ p k r, (p, k) ∈ ps → s.allocation.locations[p]? = some (.reg r) →
        (∀ p' k', (p', k') ∈ ps → s.allocation.locations[p']? = some (.reg r) → p' = p ∧ k' = k) →
        t'.reg r = t.value (ofLocation (Allocation.incoming k)) := by
  induction ps generalizing t codes with
  | nil =>
    cases taken
    exact ⟨t, rfl, rfl, rfl, rfl, fun _ _ => rfl, nofun⟩
  | cons head rest ih =>
    obtain ⟨p, k⟩ := head
    simp only [mapM_cons, bind_eq_ok, pure_eq_ok] at taken
    obtain ⟨code, here, others, later, rfl⟩ := taken
    simp only [param, bind_eq_ok, place_eq_ok] at here
    obtain ⟨_, ⟨l, placed, rfl⟩, here⟩ := here
    have usable := site.usable p l placed
    have reachable' : ∀ p k, (p, k) ∈ rest → (Allocation.incoming k).Usable := fun p k member =>
      reachable p k (mem_cons_of_mem _ member)
    cases l with
    | reg r =>
      have register : ofLocation (.reg r) = .reg r := rfl
      simp only [register, Operand.isReg, Bool.true_or, if_true, bind_eq_ok, pure_eq_ok, Site.var,
        orFault_eq_ok] at here
      obtain ⟨x, declared, rfl⟩ := here
      rw [site.unfloating p x declared]
      have here := reachable p k mem_cons_self
      let u := t.put (.reg r) (t.value (ofLocation (Allocation.incoming k)))
      have taken : perform t (assign false (.reg r) (ofLocation (Allocation.incoming k))) = some u :=
        perform_mov_reg (.place here) aligned
      have kept : Keeps (some (.reg r)) t u := keeps_put usable
      obtain ⟨t', performed, memory, frame, stack, untouched, received⟩ := ih (kept.aligned aligned) reachable' later
      refine ⟨t', ?_, memory, frame.trans kept.rbp, stack.trans kept.rsp, fun q free => ?_,
        fun p' k' q member placed' unique => ?_⟩
      · rw [flatten_cons, perform_append, taken]
        exact performed
      · have other : q ≠ r := fun same => free p k mem_cons_self (same ▸ placed)
        rw [untouched q fun p' k' member => free p' k' (mem_cons_of_mem _ member)]
        exact if_neg other
      · by_cases again : (p', k') ∈ rest
        · rw [received p' k' q again placed' fun p'' k'' m => unique p'' k'' (mem_cons_of_mem _ m)]
          exact kept.others _ (reachable' p' k' again) (by simp [Allocation.incoming])
        · -- The last one to be taken to the register is the first in the list.
          obtain ⟨rfl, rfl⟩ : p' = p ∧ k' = k := by
            rcases mem_cons.1 member with same | later
            · exact Prod.mk.inj same
            · exact absurd later again
          obtain rfl : q = r := by
            rw [placed] at placed'
            cases placed'
            rfl
          rw [untouched q fun p'' k'' m placed'' => ?_]
          · exact if_pos rfl
          · obtain ⟨rfl, rfl⟩ := unique p'' k'' (mem_cons_of_mem _ m) placed''
            exact again m
    | stack o =>
      cases here
      obtain ⟨t', performed, memory, frame, stack, untouched, received⟩ := ih aligned reachable' later
      refine ⟨t', performed, memory, frame, stack, fun q free => ?_, fun p' k' q member placed' unique => ?_⟩
      · exact untouched q fun p' k' member => free p' k' (mem_cons_of_mem _ member)
      · rcases mem_cons.1 member with same | again
        · cases same
          rw [placed] at placed'
          cases placed'
        · exact received p' k' q again placed' fun p'' k'' m => unique p'' k'' (mem_cons_of_mem _ m)
    | xmm | global => exact usable.elim

/-- The sizes that offsets and the stack pointer can reach. -/
structure Site.Bounded (s : Site) : Prop where
  frame_lt : s.allocation.frameSize < Allocation.frameLimit
  frame_aligned : s.allocation.frameSize % slotBytes = 0
  saved : s.allocation.calleeSaved.length ≤ X86.calleeSaved.length
  arguments : argumentBase + slotBytes * s.graph.params.length ≤ Allocation.frameLimit

theorem extended_ofNat (small : n < 2 ^ 31) : extended (Int32.ofNat n) = .ofNat 64 n := by
  have same : (BitVec.ofNat 64 n).toNat = n := Nat.mod_eq_of_lt (by omega)
  rw [← BitVec.toInt_inj, toInt_extended, Int32.toInt_ofNat_of_lt (by omega),
    BitVec.toInt_eq_toNat_of_lt (by omega), same]

theorem incoming_usable {k : Nat} (small : argumentBase + slotBytes * k < 2 ^ 31) : (Allocation.incoming k).Usable := by
  change (Int32.ofNat (argumentBase + slotBytes * k)).toInt % slotBytes = 0
  rw [Int32.toInt_ofNat_of_lt (by omega)]
  simp only [argumentBase, slotBytes]
  omega

/-- Making room for the frame. -/
theorem perform_reserve (small : n < 2 ^ 31) :
    ∃ t', perform t (if n > 0 then [.int .sub (.reg .rsp) (.imm (Int64.ofNat n))] else []) = some t' ∧
      t'.memory = t.memory ∧ (∀ q, q ≠ .rsp → t'.reg q = t.reg q) ∧
      t'.reg .rsp = t.reg .rsp - .ofNat 64 n := by
  split
  · have short : (Int64.ofNat n).toInt32.toInt64 = Int64.ofNat n := by
      rw [← Int64.toInt_inj, Int32.toInt_toInt64, Int64.toInt_toInt32, Int64.toInt_ofNat_of_lt (by omega)]
      exact Int.bmod_eq_of_le (by omega) (by omega)
    have read : t.read (.imm (Int64.ofNat n)) = some (.ofNat 64 n) := if_pos short
    let u := (t.setFlags (some (.ofSub (t.reg .rsp) (.ofNat 64 n)))).setReg .rsp (t.reg .rsp - .ofNat 64 n)
    refine ⟨u, ?_, rfl, fun q other => if_neg other, rfl⟩
    simp [Inst.perform, Operand.isMemory, State.read.eq_1, read, State.write, IntOp.apply, u]
  next none =>
    obtain rfl : n = 0 := by omega
    exact ⟨t, rfl, rfl, fun _ _ => rfl, (BitVec.sub_zero _).symm⟩

/-- The prologue makes a frame in which the parameters are found where their places are. -/
theorem perform_prologue {start : List Inst} (site : s.Integral) (bounded : s.Bounded) (distinct : s.graph.params.Nodup)
    (even : t.Even) (given : prologue s = .ok start) :
    ∃ t', perform t start = some t' ∧ t'.Aligned ∧ t'.Even ∧
      ∀ k p l, s.graph.params[k]? = some p → s.allocation.locations[p]? = some l →
        (l.isRegister → ∀ q ∈ s.graph.params, s.allocation.locations[q]? = some l → q = p) →
        (l.isRegister = false → l = Allocation.incoming k) →
        t'.value (ofLocation l) = t.argument k := by
  simp only [prologue, bind_eq_ok, pure_eq_ok] at given
  obtain ⟨codes, taken, rfl⟩ := given
  obtain ⟨frame_lt, frame_aligned, saved, arguments⟩ := bounded
  simp only [Allocation.frameLimit, slotBytes, argumentBase] at frame_lt frame_aligned arguments
  have few : X86.calleeSaved.length = 5 := rfl
  let t₁ := ((t.setReg .rsp (t.reg .rsp - 8)).setMemory (t.reg .rsp - 8) (t.reg .rbp)).setReg .rbp (t.reg .rsp - 8)
  have opened : perform t [.label s.graph.name, .push (.reg .rbp), .mov (.reg .rbp) (.reg .rsp)] = some t₁ := by
    rw [perform_cons, Inst.perform, bind_some, perform_cons, perform_push even]
    rfl
  obtain ⟨t₂, reserved, memory₂, same₂, stack₂⟩ := perform_reserve (t := t₁) (n := s.allocation.frameSize) frame_lt
  have even₂ : t₂.Even := by
    unfold State.Even
    rw [stack₂]
    exact even_sub (t := t₁) (even_sub even (n := 8) rfl) frame_aligned
  obtain ⟨t₃, pushed, even₃, same₃, memory₃⟩ := perform_pushes s.allocation.calleeSaved even₂
  have frame₃ : t₃.reg .rbp = t.reg .rsp - 8 := (same₃ _ (by decide)).trans (same₂ _ (by decide))
  have aligned₃ : t₃.Aligned := by
    unfold State.Aligned
    rw [frame₃]
    exact even_sub even (n := 8) rfl
  have argument₃ : ∀ k < s.graph.params.length, t₃.value (ofLocation (Allocation.incoming k)) = t.argument k := by
    intro k inside
    change t₃.memory (t₃.address .rbp none (Int32.ofNat (argumentBase + slotBytes * k))) = _
    rw [address_rbp, frame₃, extended_ofNat (by simp only [argumentBase, slotBytes]; omega)]
    have here : t.reg .rsp - 8 + BitVec.ofNat 64 (argumentBase + slotBytes * k) =
        t.reg .rsp + .ofNat 64 (slotBytes * (k + 1)) := by
      simp only [argumentBase, slotBytes]
      bv_omega
    rw [here, memory₃, memory₂]
    · refine if_neg fun same => ?_
      simp only [slotBytes] at same
      bv_omega
    · intro j small same
      have stack₁ : t₁.reg .rsp = t.reg .rsp - 8 := rfl
      rw [stack₂, stack₁] at same
      simp only [slotBytes] at same
      bv_omega
  obtain ⟨t₄, moved, memory₄, frame₄, stack₄, -, received⟩ := perform_params site aligned₃ (by
    intro p k member
    have inside := (List.getElem?_eq_some_iff.1 (List.mem_zipIdx_iff_getElem?.1 member)).1
    exact incoming_usable (by simp only [argumentBase, slotBytes]; omega)) taken
  refine ⟨t₄, ?_, ?_, ?_, fun k p l here placed alone own => ?_⟩
  · rw [perform_append, perform_append, perform_append, opened, bind_some, reserved, bind_some, pushed]
    exact moved
  · unfold State.Aligned
    rw [frame₄]
    exact aligned₃
  · unfold State.Even
    rw [stack₄]
    exact even₃
  · have inside := (List.getElem?_eq_some_iff.1 here).1
    rw [← argument₃ k inside]
    have usable := site.usable p l placed
    cases l with
    | reg r =>
      refine received p k r (mem_zipIdx_iff_getElem?.2 here) placed fun p' k' member placed' => ?_
      have there := mem_zipIdx_iff_getElem?.1 member
      obtain rfl := alone rfl p' (mem_of_getElem? there) placed'
      exact ⟨rfl, ((getElem?_inj inside distinct).1 (here.trans there.symm)).symm⟩
    | stack o =>
      rw [← own rfl]
      change t₄.memory (t₄.address .rbp none o) = t₃.memory (t₃.address .rbp none o)
      rw [address_rbp, address_rbp, memory₄, frame₄]
    | xmm | global => exact usable.elim

end Entering

end Lowering

end Quadcode
