import Quadcode.Compile
import Quadcode.Proofs.Allocation.Assignment
import Quadcode.Proofs.Graph.Built

/-!
# Words of the stack

A variable on the stack is an argument where the caller has put it, or it lies in the frame. Words of
the frame are handed out from the frame pointer downwards, first to the variables that live in memory
and then to those that are spilled, so no two variables share one.
-/

namespace Quadcode

open X86

namespace Allocation

variable {g : Graph} {a : Allocation} {p : Progress} {depth : VarId → Nat} {u v : VarId} {o o' : Int32}
  {low high low' high' : Int}

/-- The bytes of the stack that a variable takes, as offsets from the frame pointer. -/
def Spans (a : Allocation) (g : Graph) (v : VarId) (low high : Int) : Prop :=
  ∃ x slots o, g.vars[v]? = some x ∧ x.ty.slots? = some slots ∧ a.locations[v]? = some (.stack o) ∧
    low = o.toInt ∧ high = low + slotBytes * slots

/-- How the stack is divided among the variables of a function. -/
structure Storage (a : Allocation) (g : Graph) : Prop where
  /-- Whatever is on the stack has a size. -/
  sized : ∀ (v : VarId) (o : Int32), a.locations[v]? = some (.stack o) → ∃ low high, a.Spans g v low high
  apart : ∀ u v low high low' high', u ≠ v → a.Spans g u low high → a.Spans g v low' high' → high ≤ low' ∨ high' ≤ low
  inside : ∀ v low high, a.Spans g v low high →
    (∃ k : Nat, g.params[k]? = some v ∧ low = argumentBase + slotBytes * k ∧ high = low + slotBytes) ∨
      -(a.frameSize : Int) ≤ low ∧ high ≤ 0
  /-- A parameter that is spilled or lives in memory stays where the caller has put it. -/
  argument : ∀ (k : Nat) q, g.params[k]? = some q → q ∈ a.spilled ∨ q ∈ g.memoryResident →
    ∃ o, a.locations[q]? = some (.stack o) ∧ o.toInt = argumentBase + slotBytes * k
  aligned : (a.frameSize + slotBytes * a.calleeSaved.length) % stackAlignment = 0

/-- An argument is above the frame pointer, everything else is below. -/
theorem Placed.stack_cases (placed : Placed g a p depth) (here : a.locations[v]? = some (.stack o)) :
    (∃ k, g.params[k]? = some v ∧ o.toInt = (argumentBase + slotBytes * k : Nat)) ∨
      incoming? g v = none ∧ Lies g p.frame v o (depth v) ∧ o.toInt = -depth v := by
  rcases placed.sound.stack v o (placed.placed v _ here) with argument | ⟨outside, lies⟩
  · exact .inl (placed.incoming_toInt argument)
  · exact .inr ⟨outside, lies, placed.lies_toInt lies⟩

/-- The first word of a variable on the stack is not that of another one that was spilled. This holds for
variables without words too, which take none but may be written to. -/
theorem Placed.word_apart (placed : Placed g a p depth) (different : u ≠ v) (spilled : v ∉ g.memoryResident)
    (first : a.locations[u]? = some (.stack o)) (second : a.locations[v]? = some (.stack o')) :
    o.toInt + slotBytes ≤ o'.toInt ∨ o'.toInt + slotBytes ≤ o.toInt := by
  have single : ∀ {w l}, a.locations[w]? = some l → w ∉ g.memoryResident → words g w = 1 := by
    intro w l here free
    have inside := (Array.getElem?_eq_some_iff.1 here).1
    simp [words, slots_of_candidate (mem_candidates.2 ⟨placed.size ▸ inside, free⟩)]
  have one := single second spilled
  rcases placed.stack_cases first with ⟨k, here, low⟩ | ⟨outside, lies, low⟩ <;>
    rcases placed.stack_cases second with ⟨k', here', low'⟩ | ⟨outside', lies', low'⟩
  · have other : k ≠ k' := by
      rintro rfl
      exact different (Option.some.inj (here.symm.trans here'))
    simp only [slotBytes, argumentBase] at *
    omega
  · simp only [slotBytes, argumentBase] at *
    omega
  · simp only [slotBytes, argumentBase] at *
    omega
  · by_cases resident : u ∈ g.memoryResident
    · have below := placed.sound.ranked u v o o' resident spilled (placed.placed u _ first) outside
        (placed.placed v _ second) outside'
      simp only [one, slotBytes] at *
      omega
    · have apart := placed.sound.disjoint u v o o' different (placed.placed u _ first) outside
        (placed.placed v _ second) outside'
      simp only [one, single first resident, slotBytes] at *
      omega

section Parameters

variable (placed : Placed g a p depth)
  (params : ∀ q ∈ g.params, ∃ x, g.vars[q]? = some x ∧ x.isGlobal = false ∧ x.ty.isScalar)
include placed params

/-- Where the bytes of a variable are. -/
theorem Placed.spans_cases (spans : a.Spans g v low high) :
    (∃ k : Nat, g.params[k]? = some v ∧ low = argumentBase + slotBytes * k ∧ high = low + slotBytes) ∨
      ∃ o, a.locations[v]? = some (.stack o) ∧ incoming? g v = none ∧ Lies g p.frame v o (depth v) ∧
        low = -depth v ∧ high = low + slotBytes * words g v := by
  obtain ⟨x, slots, o, declared, sized, here, rfl, rfl⟩ := spans
  rcases placed.stack_cases here with ⟨k, there, low⟩ | ⟨outside, lies, low⟩
  · obtain ⟨y, declared', -, scalar⟩ := params v (List.mem_of_getElem? there)
    obtain rfl := Option.some.inj (declared.symm.trans declared')
    obtain rfl : 1 = slots := Option.some.inj ((slots?_of_isScalar scalar).symm.trans sized)
    exact .inl ⟨k, there, by simp [low], by simp⟩
  · exact .inr ⟨o, here, outside, lies, low, by simp [words, declared, sized]⟩

theorem Placed.apart (different : u ≠ v) (first : a.Spans g u low high) (second : a.Spans g v low' high') :
    high ≤ low' ∨ high' ≤ low := by
  rcases placed.spans_cases params first with ⟨k, here, low, top⟩ | ⟨o, here, outside, lies, low, top⟩ <;>
    rcases placed.spans_cases params second with
      ⟨k', here', low', top'⟩ | ⟨o', here', outside', lies', low', top'⟩
  · have other : k ≠ k' := by
      rintro rfl
      exact different (Option.some.inj (here.symm.trans here'))
    simp only [slotBytes] at *
    omega
  · have room := lies'.room
    simp only [slotBytes, argumentBase] at *
    omega
  · have room := lies.room
    simp only [slotBytes, argumentBase] at *
    omega
  · have apart := placed.sound.disjoint u v o o' different (placed.placed u _ here) outside
      (placed.placed v _ here') outside'
    simp only [slotBytes] at *
    omega

theorem Placed.argument (distinct : g.params.Nodup) {k : Nat} {q : VarId} (here : g.params[k]? = some q)
    (kept : q ∈ a.spilled ∨ q ∈ g.memoryResident) :
    ∃ o, a.locations[q]? = some (.stack o) ∧ o.toInt = argumentBase + slotBytes * k := by
  obtain ⟨x, declared, notGlobal, -⟩ := params q (List.mem_of_getElem? here)
  have own := incoming?_eq distinct here
  obtain ⟨o, there⟩ : ∃ o, a.locations[q]? = some (.stack o) := by
    rcases kept with spilled | resident
    · exact placed.spilled q spilled
    · have inside : q < a.locations.size := placed.size ▸ (Array.getElem?_eq_some_iff.1 declared).1
      have there := Array.getElem?_eq_getElem inside
      cases kind : a.locations[q] with
      | stack o => exact ⟨o, kind ▸ there⟩
      | reg | xmm =>
        exact absurd resident (placed.sound.register q _ (placed.placed q _ there) (by rw [kind]; rfl)).1
      | global name =>
        obtain ⟨y, declared', isGlobal⟩ := placed.named (kind ▸ there)
        rw [← Option.some.inj (declared.symm.trans declared'), notGlobal] at isGlobal
        cases isGlobal
  refine ⟨o, there, ?_⟩
  rcases placed.stack_cases there with ⟨j, here', low⟩ | ⟨outside, -⟩
  · obtain ⟨inside, same⟩ := List.getElem?_eq_some_iff.1 here
    obtain ⟨inside', same'⟩ := List.getElem?_eq_some_iff.1 here'
    obtain rfl : j = k := (List.Nodup.getElem_inj_iff distinct).1 (same'.trans same.symm)
    simpa using low
  · simp [own] at outside

end Parameters

end Allocation

open Allocation in
/-- Variables on the stack have words of their own: parameters where the caller has put them, all others in the
frame, whose size keeps the stack aligned. -/
theorem allocate_storage {g : Graph} {live : Solution VarSet} {loops : Loops} {a : Allocation}
    (distinct : g.params.Nodup) (params : ∀ q ∈ g.params, ∃ x, g.vars[q]? = some x ∧ x.isGlobal = false ∧ x.ty.isScalar)
    (allocated : allocate g live loops = .ok a) : a.Storage g := by
  obtain ⟨p, depth, placed⟩ := allocate_placed allocated
  refine ⟨fun v o here => ?_, fun _ _ _ _ _ _ => placed.apart params, fun v low high spans => ?_,
    fun _ _ => placed.argument params distinct, placed.aligned⟩
  · have inside : v < g.vars.size := placed.size ▸ (Array.getElem?_eq_some_iff.1 here).1
    have declared := Array.getElem?_eq_getElem inside
    obtain ⟨slots, sized⟩ : ∃ slots, g.vars[v].ty.slots? = some slots := by
      rcases placed.stack_cases here with ⟨k, there, -⟩ | ⟨-, lies, -⟩
      · obtain ⟨x, declared', -, scalar⟩ := params v (List.mem_of_getElem? there)
        cases Option.some.inj (declared.symm.trans declared')
        exact ⟨1, slots?_of_isScalar scalar⟩
      · exact ⟨_, by simpa [declared] using lies.sized⟩
    exact ⟨_, _, _, slots, o, declared, sized, here, rfl, rfl⟩
  · refine (placed.spans_cases params spans).imp_right ?_
    rintro ⟨o, -, -, lies, rfl, rfl⟩
    have within := Nat.le_trans lies.within placed.frame_le
    have room := lies.room
    simp only [slotBytes] at *
    omega

/-- Passes on more values than there are registers. Variables 0 to 11 are parameters, 12 points to the first of them,
13 is a structure without fields and 14 an array. -/
def stowing : Function where
  name := "stowing"
  vars := ⟨(List.range 12).map (fun k => .declare ("v" ++ toString k) .int .param) ++
    [.declare "p" (.pointer .int) .local, .declare "e" (.struct "E" 0) .local, .declare "a" (.array .int 3) .local]⟩
  params := List.range 12
  quads := [
    ⟨some 12, .address 0⟩,
    .effect (.store 14 (.const (.int 2)) (.var 1)),
    ⟨some 13, .call "stowing" ((List.range 12).map .var)⟩,
    .effect (.call "stowing" ((List.range 12).map .var)),
    .effect (.derefStore 12 (.var 9)),
    .effect (.ret none)]

theorem stowing_storage : ∃ live a, stowing.graph.place = .ok (live, a) ∧ a.spilled = [11, 12] ∧
    a.Storage stowing.graph := by
  have succeeds : stowing.graph.place.toOption.map (·.2.spilled) = some [11, 12] := by decide +kernel
  obtain ⟨_, run, spilled⟩ := toOption_map_eq_some.1 succeeds
  have parts := run
  simp only [Graph.place, bind_eq_ok, pure_eq_ok] at parts
  obtain ⟨live, -, d, -, a, allocated, rfl⟩ := parts
  exact ⟨live, a, run, spilled, allocate_storage (by decide +kernel) (by decide +kernel) allocated⟩

end Quadcode
