import Quadcode.Proofs.Allocation.Assignment
import Quadcode.Proofs.X86.Depth

/-!
# The stack in the code of a function

The prologue brings the stack to a depth that every block starts and ends at. Calls save registers and push
arguments on top of it, padded so that the callee finds the stack aligned, and take away afterwards what they pushed.
-/

namespace Quadcode.Lowering

open X86 List Inst Operand Level

/-- Where the stack is between the prologue and an epilogue. -/
def Site.base (s : Site) : Level :=
  ⟨argumentBase + s.allocation.frameSize + slotBytes * s.allocation.calleeSaved.length, some argumentBase⟩

variable {s : Site} {w w' : Literals} {code : List Inst} {saved : List Reg} {floor : Int} {l : Level}

theorem homes_free {near : BlockMap VarSet} {p : Allocation.Progress} {depth : VarId → Nat}
    (result : Allocation.Result s.graph near s.allocation p depth) :
    Homes s (Operand.Free s.allocation.calleeSaved) fun _ => True where
  temporary := by
    have apart : ∀ r ∈ temporaries, r ≠ .rsp ∧ r ≠ .rbp ∧ r ∉ calleeSaved := by decide
    intro r member
    obtain ⟨rsp, rbp, free⟩ := apart r member
    exact ⟨rsp, rbp, fun inside => absurd inside free⟩
  float _ _ := trivial
  memory o _ _ := by cases o <;> trivial
  plain _ _ := trivial
  near _ _ := trivial
  argument _ _ := trivial
  place v o placed := by
    obtain ⟨l, here, rfl⟩ := place_eq_ok.1 placed
    refine ⟨?_, trivial⟩
    cases l with
    | reg r =>
      have usable := (result.general here).1
      have apart : ∀ r ∈ allocatable, r ≠ .rsp ∧ r ≠ .rbp := by decide
      exact ⟨(apart r usable).1, (apart r usable).2, fun inside =>
        (result.mem_saved r).2 ⟨inside, Array.mem_of_getElem? here⟩⟩
    | _ => trivial

/-! ## Calls -/

theorem careful_of_writes {i : Inst} (plain : i.isPlain) (apart : i.isStack = false)
    (keeps : ∀ r ∈ i.writes, r ∉ calleeSaved) : i.Careful saved l where
  plain := plain
  stays := by rintro rfl; cases apart
  aligned := by rintro _ rfl; cases apart
  keeps r member inside := absurd inside (keeps r member)

section Calls

variable (above : floor ≤ l.depth) {α : Type} {n : Nat} {items : List α}
include above

theorem takes_grow (small : n ≤ storageLimit) : Takes saved floor l [grow n] (l.deeper n) := by
  have kept : ∀ r ∈ (grow n).writes, r ∉ calleeSaved := by
    simp [grow, writes, calleeSaved]
  have same : (Int64.ofNat n).toInt = n := Int64.toInt_ofNat_of_lt (Nat.lt_of_le_of_lt small (by decide))
  exact .step above (careful_of_writes rfl rfl kept) (by simp [grow, track, same]) (.done _)

theorem takes_shrink (small : slotBytes * n ≤ storageLimit) :
    Takes saved floor (l.push n) [shrink (slotBytes * n)] l := by
  have kept : ∀ r ∈ (shrink (slotBytes * n)).writes, r ∉ calleeSaved := by
    simp [shrink, Inst.writes, calleeSaved]
  have same : (Int64.ofNat (slotBytes * n)).toInt = (slotBytes * n : Nat) :=
    Int64.toInt_ofNat_of_lt (Nat.lt_of_le_of_lt small (by decide))
  refine .step (le_push above n) (careful_of_writes rfl rfl kept) ?_ (.done _)
  simp only [shrink, Inst.track, same, Level.push, Level.deeper_deeper, Int.natCast_mul, Int.add_right_neg, deeper_zero]

theorem takes_push (o : Operand) : Takes saved floor l [.push o] (l.push 1) :=
  .step above ⟨rfl, by simp, by simp, by simp [writes]⟩ rfl (.done _)

theorem takes_pop {o : Operand} (free : o.Free saved) : Takes saved floor (l.push 1) [.pop o] l := by
  refine .step (le_push above 1) ⟨rfl, by simp, by simp, ?_⟩ (track_pop _ free) ?_
  · cases o with
    | reg r => simpa [writes] using free.2.2
    | _ => simp [writes]
  · simpa [Level.push] using Takes.done l

theorem takes_pushXmm (x : Xmm) : Takes saved floor l (pushXmm x) (l.push 1) := by
  refine (takes_grow above (by decide)).append (takes_computing ?_ (le_push above 1))
  simp [top, Operand.Free, isMemory]

theorem takes_popXmm (x : Xmm) : Takes saved floor (l.push 1) (popXmm x) l := by
  have moved : Takes saved floor (l.push 1) [.movsd (.xmm x) .top] (l.push 1) := by
    refine takes_computing ?_ (le_push above 1)
    simp [Operand.Free, isMemory]
  exact moved.append (takes_shrink above (by decide))

theorem takes_save (place : Location) : Takes saved floor l (save place) (l.push 1) := by
  cases place with
  | xmm x => exact takes_pushXmm above x
  | _ => exact takes_push above _

theorem takes_restore {place : Location} (free : (ofLocation place).Free saved) :
    Takes saved floor (l.push 1) (restore place) l := by
  cases place with
  | xmm x => exact takes_popXmm above x
  | _ => exact takes_pop above free

theorem takes_pushes {push : α → List Inst}
    (each : ∀ x ∈ items, ∀ l : Level, floor ≤ l.depth → Takes saved floor l (push x) (l.push 1)) :
    Takes saved floor l (items.flatMap push) (l.push items.length) := by
  induction items generalizing l with
  | nil => simpa using .done l
  | cons x rest ih =>
    obtain ⟨here, others⟩ := forall_mem_cons.1 each
    have later := ih (le_push above 1) others
    rw [push_push, Nat.add_comm] at later
    exact (here l above).append later

theorem takes_pops {pop : α → List Inst}
    (each : ∀ x ∈ items, ∀ l : Level, floor ≤ l.depth → Takes saved floor (l.push 1) (pop x) l) :
    Takes saved floor (l.push items.length) (items.flatMap pop) l := by
  induction items with
  | nil => simpa using .done l
  | cons x rest ih =>
    obtain ⟨here, others⟩ := forall_mem_cons.1 each
    have first := here _ (le_push above rest.length)
    rw [push_push] at first
    exact first.append (ih others)

variable (homes : Homes s (Operand.Free saved) fun _ => True) {args : List Arg}
include homes

theorem takes_pushArg {a : Arg} (given : Gives (pushArg s a) w code w') : Takes saved floor l code (l.push 1) := by
  obtain ⟨float, load, x, last, -, operand, rfl, kind⟩ := pushArg_cases given
  have loaded := takes_computing (computing_operand homes operand).1 above
  obtain ⟨-, rfl⟩ | ⟨-, ⟨r, -, rfl⟩ | rfl⟩ := kind
  · exact loaded.append (takes_push above x)
  · exact loaded.append (takes_pushXmm above r)
  · have moved : Takes saved floor l [.movsd (.xmm floatScratch) x] l := by
      refine takes_computing ?_ above
      simp [Operand.Free, isMemory]
    exact loaded.append (moved.append (takes_pushXmm above _))

theorem takes_pushArgs (given : Gives (pushArgs s args) w code w') : Takes saved floor l code (l.push args.length) := by
  induction args generalizing w code l with
  | nil =>
    rw [(gives_pure.1 given).1]
    simpa using .done l
  | cons a rest ih =>
    simp only [pushArgs, gives_bind, gives_pure] at given
    obtain ⟨first, _, here, others, _, later, rfl, rfl⟩ := given
    have behind := ih (le_push above 1) later
    rw [push_push, Nat.add_comm] at behind
    exact (takes_pushArg above homes here).append behind

variable (aligned : l.depth % stackAlignment = 0) {after : VarSet}
include aligned

theorem takes_call {name : Label} {r : Option VarId} (small : slotBytes * (args.length + 1) ≤ storageLimit)
    (given : Gives (call s name args r after) w code w') :
    Takes saved floor l code l := by
  simp only [call, gives_bind, gives_ofExcept, gives_pure] at given
  obtain ⟨places, _, ⟨live, -⟩, pushed, _, pushes, received, _, ⟨result, rfl⟩, rfl, -⟩ := given
  obtain ⟨pad, counted⟩ : ∃ pad, pad = (places.length + args.length) % 2 := ⟨_, rfl⟩
  rw [← counted]
  have padded : Takes saved floor (l.push places.length) (if pad = 1 then [grow slotBytes] else [])
      (l.push (places.length + pad)) := by
    rcases (by omega : pad = 0 ∨ pad = 1) with rfl | rfl
    · exact .done _
    · rw [← push_push]
      exact takes_grow (le_push above _) (by decide)
  have pushed := takes_pushArgs (le_push above (places.length + pad)) homes pushes
  rw [push_push, length_reverse] at pushed
  have called : Takes saved floor (l.push (places.length + pad + args.length)) [.call name]
      (l.push (places.length + pad + args.length)) := by
    refine .step (Level.le_push above _) ⟨rfl, by simp, fun _ _ => ?_, by simp [Inst.writes]⟩ rfl (.done _)
    -- With the padding, an even number of slots lies on top of an aligned base.
    simp only [Level.push, Level.deeper_depth, slotBytes, stackAlignment] at aligned ⊢
    omega
  have cleaned : Takes saved floor (l.push (places.length + pad + args.length))
      (if slotBytes * (args.length + pad) > 0 then [shrink (slotBytes * (args.length + pad))] else [])
      (l.push places.length) := by
    rw [(by omega : places.length + pad + args.length = places.length + (args.length + pad)), ← Level.push_push]
    split
    · exact takes_shrink (le_push above _) (Nat.le_trans (Nat.mul_le_mul_left _ (by omega)) small)
    next none =>
      rw [(by simp only [slotBytes] at none; omega : args.length + pad = 0)]
      simpa using Takes.done _
  have restored : Takes saved floor (l.push places.length) (places.reverse.flatMap restore) l := by
    rw [← length_reverse]
    exact takes_pops above fun x member l' above' => takes_restore above'
      (home_of_saved homes live x (mem_reverse.1 member)).1
  exact ((((((takes_pushes above fun x _ l' above' => takes_save above' x).append padded).append pushed).append
    called).append cleaned).append restored).append (takes_computing (computing_receive homes result) above)

theorem takes_quad {q : Quad} (small : slotBytes * (q.op.args.length + 1) ≤ storageLimit)
    (given : Gives (quad s q after) w code w') : Takes saved floor l code l := by
  rcases quad_cases homes (knowsElements_all q) given with computing | ⟨name, r, w₁, called⟩
  · exact takes_computing computing above
  · exact takes_call above homes aligned small called

theorem takes_body {qs : List Quad} {afters : List VarSet}
    (small : ∀ q ∈ qs, slotBytes * (q.op.args.length + 1) ≤ storageLimit) (given : Gives (body s qs afters) w code w') :
    Takes saved floor l code l := by
  induction qs generalizing afters code w with
  | nil =>
    rw [(gives_pure.1 given).1]
    exact .done l
  | cons q rest ih =>
    cases afters with
    | nil =>
      rw [(gives_pure.1 given).1]
      exact .done l
    | cons after more =>
      simp only [body, gives_bind, gives_pure] at given
      obtain ⟨first, _, here, others, _, later, rfl, rfl⟩ := given
      obtain ⟨one, all⟩ := forall_mem_cons.1 small
      exact (takes_quad above homes aligned one here).append (ih all later)

end Calls

/-! ## Entering and leaving -/

/-- Brings back the callee-saved registers and the frame of the caller. -/
def closing (s : Site) : List Inst :=
  s.allocation.calleeSaved.reverse.map (fun r => .pop (.reg r)) ++ [.mov (.reg .rsp) (.reg .rbp), .pop (.reg .rbp)]

theorem epilogue_eq : epilogue s = closing s ++ [.ret] := by simp [epilogue, closing]

/-- Where the frame pointer points, and below it the variables. -/
def Site.framed (s : Site) : Level := ⟨argumentBase + s.allocation.frameSize, some argumentBase⟩

theorem base_eq : s.base = s.framed.push s.allocation.calleeSaved.length := rfl

theorem le_framed : (slotBytes : Int) ≤ s.framed.depth := by
  simp only [Site.framed, slotBytes, argumentBase]
  omega

theorem takes_opening (small : s.allocation.frameSize ≤ storageLimit) :
    ∃ rest, opening s = .label s.graph.name :: rest ∧ Takes saved slotBytes .entered rest s.base := by
  refine ⟨_, rfl, ?_⟩
  have pushed : Takes saved slotBytes .entered [.push (.reg .rbp)] (entered.push 1) := takes_push (by decide) _
  have set : Takes saved slotBytes (entered.push 1) [.mov (.reg .rbp) (.reg .rsp)]
      ⟨argumentBase, some argumentBase⟩ :=
    .step (le_push (Int.le_refl _) 1) (careful_of_writes rfl rfl (by decide)) rfl (.done _)
  have room : Takes saved slotBytes ⟨argumentBase, some argumentBase⟩ (if s.allocation.frameSize > 0 then
      [grow s.allocation.frameSize] else []) s.framed := by
    split
    · exact takes_grow (by decide) small
    next none =>
      have empty : s.allocation.frameSize = 0 := by omega
      simpa [Site.framed, empty] using .done _
  have saves : Takes saved slotBytes s.framed (s.allocation.calleeSaved.map fun r => .push (.reg r)) s.base := by
    rw [map_eq_flatMap]
    exact takes_pushes le_framed fun r _ l above => takes_push above _
  exact ((pushed.append set).append room).append saves

theorem takes_closing (sub : s.allocation.calleeSaved.Sublist calleeSaved) :
    Takes s.allocation.calleeSaved slotBytes s.base (closing s) .entered := by
  have apart : ∀ r ∈ calleeSaved, r ≠ .rsp ∧ r ≠ .rbp := by decide
  have pops : Takes s.allocation.calleeSaved slotBytes s.base
      (s.allocation.calleeSaved.reverse.map fun r => .pop (.reg r)) s.framed := by
    rw [map_eq_flatMap, base_eq, ← length_reverse]
    refine takes_pops le_framed fun r member l above => takes_pop above ?_
    have inside := mem_reverse.1 member
    exact ⟨(apart r (sub.subset inside)).1, (apart r (sub.subset inside)).2, fun _ => inside⟩
  exact pops.append (.step le_framed (careful_of_writes rfl rfl (by decide)) rfl
    (.step (by decide : (slotBytes : Int) ≤ argumentBase)
      ⟨rfl, by simp, by simp, by simp [writes, calleeSaved]⟩ rfl (.done _)))

end Quadcode.Lowering
