import Quadcode.Proofs.X86.Simulation

/-!
# Replacing a piece of a routine

A routine stands for another one if its runs make the same calls and come to the same end, in about as
many steps, as long as the runs of the other need nothing undefined. It does when the two differ in one
piece of code, both pieces have no labels, and by themselves they do the same.
-/

namespace Quadcode.X86

open List Platform Inst

open Peephole (flagsObserved)

variable {P : Platform} {i : Inst} {s t : Core} {n : Nat} {routine window rest window' : List Inst}

/-! ## Traces that match -/

/-- A run that has come as far as another one, which may do anything where that is undefined. -/
inductive Status.Matches : Status → Status → Prop where
  | undefined (x : Status) : Matches .undefined x
  | at (c d : Configuration) : Matches (.at c) (.at d)
  | returned {c d : Contents} (atMost : c.AtMost d) : Matches (.returned c) (.returned d)
  | trapped : Matches .trapped .trapped
  | away : Matches .away .away

structure Trace.Matches (x y : Trace) : Prop where
  calls : List.Forall₂ Call.AtMost x.calls y.calls
  status : x.status.Matches y.status

theorem Call.AtMost.trans {k l m : Call} (first : k.AtMost l) (second : l.AtMost m) : k.AtMost m :=
  ⟨first.1.trans second.1, first.2.trans second.2⟩

theorem Status.Matches.trans {x y z : Status} (first : x.Matches y) (second : y.Matches z) : x.Matches z := by
  cases first with
  | undefined => exact .undefined z
  | «at» c d =>
    cases second
    exact .at _ _
  | returned atMost =>
    cases second with
    | returned atMost' => exact .returned (atMost.trans atMost')
  | trapped =>
    cases second
    exact .trapped
  | away =>
    cases second
    exact .away

theorem Status.Matches.defined {x y : Status} (matched : x.Matches y) (defined : x ≠ .undefined) : y ≠ .undefined := by
  cases matched with
  | undefined => exact absurd rfl defined
  | _ => exact nofun

namespace Trace.Matches

variable {x y z : Trace}

theorem refl (x : Trace) : x.Matches x where
  calls := forall₂_same.2 fun _ _ => ⟨rfl, .refl _⟩
  status :=
    match x.status with
    | .at c => .at c c
    | .returned c => .returned (.refl c)
    | .trapped => .trapped
    | .away => .away
    | .undefined => .undefined _

theorem trans (first : x.Matches y) (second : y.Matches z) : x.Matches z where
  calls := forall₂_trans (fun _ _ _ => .trans) first.calls second.calls
  status := first.status.trans second.status

theorem after {k k' : Call} (matched : x.Matches y) (same : k.AtMost k') : (x.after k).Matches (y.after k') :=
  ⟨.cons same matched.calls, matched.status⟩

end Trace.Matches

namespace Platform

/-- The runs of `code'` match those of `code`. They keep pace with them, so that a run of `code'` does
nothing that a longer run of `code` does not do as well. -/
def Refines (P : Platform) (code code' : List Inst) : Prop :=
  ∀ s, ∃ pace, ∀ n, ∃ n', (P.run code s n).Matches (P.run code' s n') ∧
    ((P.run code s n).status ≠ .undefined → n ≤ pace * (n' + 1))

theorem Refines.refl (code : List Inst) : P.Refines code code := fun s => ⟨1, fun n => ⟨n, .refl _, fun _ => by omega⟩⟩

theorem Refines.trans {x y z : List Inst} (first : P.Refines x y) (second : P.Refines y z) : P.Refines x z := by
  intro s
  obtain ⟨pace, first⟩ := first s
  obtain ⟨pace', second⟩ := second s
  refine ⟨pace * (pace' + 1), fun n => ?_⟩
  obtain ⟨n', matched, within⟩ := first n
  obtain ⟨n'', matched', within'⟩ := second n'
  refine ⟨n'', matched.trans matched', fun defined => ?_⟩
  have within' := within' (matched.status.defined defined)
  calc n ≤ pace * (n' + 1) := within defined
    _ ≤ pace * (pace' * (n'' + 1) + (n'' + 1)) := Nat.mul_le_mul_left _ (by omega)
    _ = pace * (pace' + 1) * (n'' + 1) := by rw [Nat.mul_assoc, Nat.add_mul, Nat.one_mul]

section Calls

variable {c : Configuration} {m : Nat}

/-- A longer run has made the same calls, and perhaps more. -/
theorem trace_calls_prefix (le : n ≤ m) : (P.trace routine n c).calls <+: (P.trace routine m c).calls := by
  induction n generalizing m c with
  | zero => exact nil_prefix
  | succ n ih =>
    obtain ⟨m, rfl⟩ := Nat.exists_eq_add_of_le' (Nat.le_trans (Nat.le_add_left 1 n) le)
    rw [trace, trace]
    split
    · exact prefix_rfl
    · exact prefix_rfl
    · exact prefix_rfl
    · exact ih (by omega)
    · exact (prefix_cons_inj _).2 (ih (by omega))
    · exact prefix_rfl

/-- Calls are made one by one. -/
theorem exists_trace_calls {calls : List Call} (made : calls <+: (P.trace routine n c).calls) :
    ∃ m, (P.trace routine m c).calls = calls := by
  induction n generalizing c calls with
  | zero => exact ⟨0, (prefix_nil.1 made).symm⟩
  | succ n ih =>
    cases calls with
    | nil => exact ⟨0, rfl⟩
    | cons call calls =>
      rw [trace] at made
      cases stepped : P.step routine c with
      | error e => cases e <;> simp [stepped] at made
      | ok event =>
        rw [stepped] at made
        cases event with
        | returns => simp at made
        | goes d =>
          obtain ⟨m, same⟩ := ih made
          exact ⟨m + 1, by rw [trace, stepped]; exact same⟩
        | calls call' next =>
          cases next with
          | none =>
            have only : call :: calls <+: [call'] := made
            obtain ⟨rfl, none⟩ := cons_prefix_cons.1 only
            obtain rfl := prefix_nil.1 none
            exact ⟨1, by rw [trace, stepped]⟩
          | some d =>
            have others : call :: calls <+: call' :: (P.trace routine n d).calls := made
            obtain ⟨rfl, later⟩ := cons_prefix_cons.1 others
            obtain ⟨m, same⟩ := ih later
            exact ⟨m + 1, by rw [trace, stepped]; exact congrArg (call :: ·) same⟩

/-- A run that needs nothing undefined makes all the calls that a run of a refined routine makes. -/
theorem Refines.calls {code code' : List Inst} (refines : P.Refines code code')
    (defined : ∀ n, (P.run code s n).status ≠ .undefined) (n' : Nat) :
    ∃ n, List.Forall₂ Call.AtMost (P.run code s n).calls (P.run code' s n').calls := by
  obtain ⟨pace, follows⟩ := refines s
  obtain ⟨m, matched, within⟩ := follows (pace * (n' + 1) + 1)
  have ahead : n' ≤ m := by
    have within := Nat.lt_of_succ_le (within (defined _))
    have := Nat.lt_of_mul_lt_mul_left within
    omega
  have made : (P.run code' s n').calls <+: (P.run code' s m).calls := trace_calls_prefix ahead
  have taken := forall₂_take (P.run code' s n').calls.length matched.calls
  rw [← prefix_iff_eq_take.1 made] at taken
  obtain ⟨n, same⟩ := exists_trace_calls ( take_prefix (P.run code' s n').calls.length
    (P.run code s (pace * (n' + 1) + 1)).calls)
  exact ⟨n, by rwa [run, same]⟩

end Calls

/-! ## Running a piece of code -/

/-- Runs a piece of code that calls nothing. Gives the label it jumps to, if it does not run to its
end. -/
def piece (P : Platform) : List Inst → Core → Except Fault (Option Label × Core)
  | [], s => .ok (none, s)
  | .jmp l :: _, s => .ok (some l, s)
  | .jcc c l :: rest, s =>
    match s.flags with
    | some f => if c.holds f then .ok (some l, s) else P.piece rest s
    | none => .error .undefined
  | i :: rest, s => do P.piece rest (← P.act s i)

/-- Where a piece of a routine leads that stands in front of `rest`. -/
def landing (routine rest : List Inst) (exit : Option Label × Core) : Except Fault Configuration :=
  match exit.1 with
  | none => .ok ⟨rest, exit.2⟩
  | some l => (codeFrom l routine).map (⟨·, exit.2⟩)

/-- What a run does from somewhere on. -/
def onward (P : Platform) (routine : List Inst) (n : Nat) : Except Fault Configuration → Trace
  | .ok c => P.trace routine n c
  | .error .undefined => ⟨[], .undefined⟩
  | .error .trap => ⟨[], .trapped⟩

/-- A run comes from `c` to `r` in `k` steps and makes no call. -/
structure Spans (P : Platform) (routine : List Inst) (c : Configuration) (k : Nat)
    (r : Except Fault Configuration) : Prop where
  early : ∀ n < k, ∃ d, P.trace routine n c = ⟨[], .at d⟩
  late : ∀ n, P.trace routine (k + n) c = P.onward routine n r

end Platform

/-- Whether an instruction goes on within the routine. -/
def Inst.staysInside : Inst → Bool
  | .call _ | .ret => false
  | _ => true

/-- Whether an instruction passes control to the next one. -/
def Inst.isStraight : Inst → Bool
  | .jmp _ | .jcc .. | .call _ | .ret => false
  | _ => true

namespace Platform

theorem step_advance (inside : i.staysInside) :
    P.step routine ⟨i :: rest, s⟩ = (P.advance routine ⟨i :: rest, s⟩).map .goes := by
  cases i <;> first | rfl | cases inside

theorem advance_act (straight : i.isStraight) : P.advance routine ⟨i :: rest, s⟩ = (P.act s i).map (⟨rest, ·⟩) := by
  cases i <;> first | rfl | cases straight

theorem piece_act (straight : i.isStraight) : P.piece (i :: rest) s = (P.act s i >>= P.piece rest) := by
  cases i <;> first | rfl | cases straight

theorem spans_zero (c : Configuration) : P.Spans routine c 0 (.ok c) where
  early n less := absurd less n.not_lt_zero
  late n := by rw [Nat.zero_add, onward]

theorem trace_advance (inside : i.staysInside) (n : Nat) :
    P.trace routine (n + 1) ⟨i :: rest, s⟩ = P.onward routine n (P.advance routine ⟨i :: rest, s⟩) := by
  rw [trace, step_advance inside]
  rcases P.advance routine ⟨i :: rest, s⟩ with e | c
  · cases e <;> rfl
  · rfl

theorem spans_one (inside : i.staysInside) : P.Spans routine ⟨i :: rest, s⟩ 1 (P.advance routine ⟨i :: rest, s⟩) where
  early n less := by
    obtain rfl : n = 0 := by omega
    exact ⟨_, rfl⟩
  late n := by rw [Nat.add_comm, trace_advance inside]

theorem Spans.cons {d : Configuration} {k : Nat} {r : Except Fault Configuration} (inside : i.staysInside)
    (advanced : P.advance routine ⟨i :: rest, s⟩ = .ok d) (spans : P.Spans routine d k r) :
    P.Spans routine ⟨i :: rest, s⟩ (k + 1) r where
  early n less := by
    cases n with
    | zero => exact ⟨_, rfl⟩
    | succ n =>
      rw [trace_advance inside, advanced]
      exact spans.early n (by omega)
  late n := by
    rw [Nat.add_right_comm, trace_advance inside, advanced]
    exact spans.late n

/-- A piece that stands in a routine is run in at most as many steps as it has instructions. -/
theorem spans_piece (routine rest : List Inst) (inside : ∀ i ∈ window, i.staysInside) (s : Core) :
    ∃ k ≤ window.length, (window ≠ [] → 0 < k) ∧
      P.Spans routine ⟨window ++ rest, s⟩ k (P.piece window s >>= landing routine rest) := by
  induction window generalizing s with
  | nil => exact ⟨0, Nat.le_refl _, fun h => absurd rfl h, spans_zero _⟩
  | cons i window ih =>
    have here := inside i mem_cons_self
    have ending : P.piece (i :: window) s >>= landing routine rest = P.advance routine ⟨i :: (window ++ rest), s⟩ →
        ∃ k ≤ (i :: window).length, (i :: window ≠ [] → 0 < k) ∧
          P.Spans routine ⟨i :: (window ++ rest), s⟩ k (P.piece (i :: window) s >>= landing routine rest) :=
      fun same => ⟨1, by simp, fun _ => Nat.one_pos, same ▸ spans_one here⟩
    have going : ∀ t, P.piece (i :: window) s = P.piece window t →
        P.advance routine ⟨i :: (window ++ rest), s⟩ = .ok ⟨window ++ rest, t⟩ →
        ∃ k ≤ (i :: window).length, (i :: window ≠ [] → 0 < k) ∧ P.Spans routine ⟨i :: (window ++ rest), s⟩ k
            (P.piece (i :: window) s >>= landing routine rest) := by
      intro t same advanced
      obtain ⟨k, short, -, spans⟩ := ih (fun i member => inside i (.tail _ member)) t
      exact ⟨k + 1, by simpa using short, fun _ => k.succ_pos, same ▸ .cons here advanced spans⟩
    by_cases straight : i.isStraight
    · cases acted : P.act s i with
      | error e =>
        refine ending ?_
        rw [piece_act straight, advance_act straight, acted]
        rfl
      | ok t =>
        refine going t ?_ ?_
        · rw [piece_act straight, acted]
          rfl
        · rw [advance_act straight, acted]
          rfl
    · cases i with
      | jmp l => exact ending rfl
      | jcc c l =>
        cases flags : s.flags with
        | none =>
          refine ending ?_
          simp only [piece, advance, flags]
          rfl
        | some f =>
          by_cases holds : c.holds f
          · refine ending ?_
            simp only [piece, advance, flags, holds]
            rfl
          · refine going s ?_ ?_
            · simp only [piece, flags, holds]
              rfl
            · simp only [advance, flags, holds]
              rfl
      | call | ret => cases here
      | _ => exact absurd rfl straight

end Platform

/-! ## What it takes to replace a piece -/

/-- Where two pieces in front of `rest` lead is the same: one of them may jump to the label that `rest`
begins with. What they leave behind is the same, and so are the flags if somebody may look at them. -/
def SameExit (rest : List Inst) (x y : Option Label × Core) : Prop :=
  (x.1 = y.1 ∨ y.1 = none ∧ ∃ l after, x.1 = some l ∧ rest = .label l :: after) ∧
    x.2.Alike (y.1.isSome || flagsObserved rest) y.2

/-- What makes `window'` a replacement for `window` in front of `rest`. -/
structure Replaces (P : Platform) (window window' rest : List Inst) : Prop where
  nonempty : window ≠ []
  inside : ∀ i ∈ window, i.staysInside
  inside' : ∀ i ∈ window', i.staysInside
  unlabelled : labels window = []
  unlabelled' : labels window' = []
  observed : flagsObserved (window' ++ rest) → flagsObserved (window ++ rest)
  acts : ∀ s, Covers (SameExit rest) (P.piece window s) (P.piece window' s)

section Pieces

theorem flagsObserved_of_reads (reads : i.readsFlags) : flagsObserved (i :: rest) := by
  cases i <;> simp_all [flagsObserved, readsFlags]

/-- Flags that are looked at later are looked at already, unless the instruction sets them. -/
theorem flagsObserved_cons (inside : i.staysInside) (later : flagsObserved rest) :
    flagsObserved (i :: rest) || i.writesFlags := by
  cases i <;> simp_all [flagsObserved, readsFlags, writesFlags, staysInside]

theorem flagsObserved_jump (jumps : i.isStraight = false) (inside : i.staysInside) : flagsObserved (i :: rest) := by
  cases i <;> simp_all [flagsObserved, readsFlags, isStraight, staysInside]

/-- A piece does the same on machines that are alike. -/
theorem Core.Alike.piece (inside : ∀ i ∈ window, i.staysInside) (alike : s.Alike (flagsObserved (window ++ rest)) t) :
    Covers (fun x y => x.1 = y.1 ∧ x.2.Alike (y.1.isSome || flagsObserved rest) y.2)
      (P.piece window s) (P.piece window t) := by
  induction window generalizing s t with
  | nil => exact .ok ⟨rfl, alike⟩
  | cons i window ih =>
    have here := inside i mem_cons_self
    have others : ∀ i ∈ window, i.staysInside := fun i member => inside i (.tail _ member)
    cases straight : i.isStraight with
    | true =>
      rw [piece_act straight, piece_act straight]
      refine (alike.act flagsObserved_of_reads).bind fun s t alike => ih others ?_
      exact alike.weaken (flagsObserved_cons here)
    | false =>
      have observed : flagsObserved (i :: (window ++ rest)) := flagsObserved_jump straight here
      have flags := alike.flags observed
      cases i with
      | jmp l => exact .ok ⟨rfl, alike.weaken fun _ => observed⟩
      | jcc c l =>
        simp only [piece, ← flags]
        cases s.flags with
        | none => exact .undefined _
        | some f =>
          dsimp only
          split
          · exact .ok ⟨rfl, alike.weaken fun _ => observed⟩
          · exact ih others (alike.weaken fun _ => observed)
      | call | ret => cases here
      | _ => cases straight

end Pieces

namespace Replaces

variable {before x y : List Inst} {l : Label}

/-- A replacement also does the same on a machine that is alike. -/
theorem piece (replaces : Replaces P window window' rest) (alike : s.Alike (flagsObserved (window ++ rest)) t) :
    Covers (SameExit rest) (P.piece window s) (P.piece window' t) := by
  have moved := Core.Alike.piece (P := P) replaces.inside' (alike.weaken replaces.observed)
  refine (replaces.acts s).trans moved ?_
  rintro x y z ⟨exits, alike⟩ ⟨same, alike'⟩
  rw [same] at exits alike
  exact ⟨exits, (alike.trans alike').weaken fun h => by simpa using h⟩

/-! ### Routines that differ in one piece -/

/-- The code that is left in one routine, and in the one with the replacement. -/
inductive Twin (window window' rest : List Inst) : List Inst → List Inst → Prop where
  | same (code : List Inst) : Twin window window' rest code code
  | before (code : List Inst) : Twin window window' rest (code ++ (window ++ rest)) (code ++ (window' ++ rest))

/-- Likewise, but not right before the piece. -/
inductive Aside (window window' rest : List Inst) : List Inst → List Inst → Prop where
  | nil : Aside window window' rest [] []
  | cons (i : Inst) {x y : List Inst} (twin : Twin window window' rest x y) :
    Aside window window' rest (i :: x) (i :: y)

theorem Aside.of_eq (x : List Inst) : Aside window window' rest x x := by
  cases x with
  | nil => exact .nil
  | cons i x => exact .cons i (.same x)

/-- Two configurations are at the same place of the two routines. -/
def Linked (twin : List Inst → List Inst → Prop) (c d : Configuration) : Prop :=
  twin c.code d.code ∧ c.core.Alike (flagsObserved c.code) d.core

/-- A label that does not stand in front is found where it stands. -/
theorem codeFrom_label (fresh : l ∉ labels before) :
    codeFrom l (before ++ .label l :: rest) = .ok (.label l :: rest) := by
  induction before with
  | nil => rw [nil_append, codeFrom, if_pos rfl]
  | cons i before ih =>
    rw [labels_cons, mem_append, not_or] at fresh
    rw [cons_append, codeFrom, if_neg (by rintro rfl; simp [label?] at fresh), ih fresh.2]

theorem codeFrom_append (unlabelled : labels window = []) : codeFrom l (window ++ rest) = codeFrom l rest := by
  induction window with
  | nil => rfl
  | cons i window ih =>
    rw [labels_cons, append_eq_nil_iff] at unlabelled
    rw [cons_append, codeFrom, if_neg (by rintro rfl; simp [label?] at unlabelled), ih unlabelled.2]

/-- A label stands at the same place of both routines, and not right before the piece. -/
theorem codeFrom_aside (replaces : Replaces P window window' rest) (before : List Inst) (l : Label) :
    Covers (Aside window window' rest) (codeFrom l (before ++ (window ++ rest)))
      (codeFrom l (before ++ (window' ++ rest))) := by
  induction before with
  | nil =>
    rw [nil_append, nil_append, codeFrom_append replaces.unlabelled, codeFrom_append replaces.unlabelled']
    exact .of_eq .of_eq _
  | cons i before ih =>
    rw [cons_append, cons_append, codeFrom, codeFrom]
    split
    · exact .ok (.cons i (.before before))
    · exact ih

theorem Aside.twin (aside : Aside window window' rest x y) : Twin window window' rest x y := by
  cases aside with
  | nil => exact .same []
  | cons i twin =>
    cases twin with
    | same => exact .same _
    | before code => exact .before (i :: code)

section Steps

variable (replaces : Replaces P window window' rest) (before : List Inst)
include replaces

theorem jump (l : Label) {b : Bool} (alike : s.Alike b t) (observed : b) : Covers (Linked (Aside window window' rest))
      ((codeFrom l (before ++ (window ++ rest))).map (⟨·, s⟩))
      ((codeFrom l (before ++ (window' ++ rest))).map (⟨·, t⟩)) :=
  (replaces.codeFrom_aside before l).map fun _ _ aside => ⟨aside, alike.weaken fun _ => observed⟩

theorem advance (inside : i.staysInside) (twin : Twin window window' rest x y)
    (alike : s.Alike (flagsObserved (i :: x)) t) :
    Covers (Linked (Twin window window' rest)) (P.advance (before ++ (window ++ rest)) ⟨i :: x, s⟩)
      (P.advance (before ++ (window' ++ rest)) ⟨i :: y, t⟩) := by
  cases straight : i.isStraight with
  | true =>
    rw [advance_act straight, advance_act straight]
    refine (alike.act flagsObserved_of_reads).map fun s t alike => ⟨twin, ?_⟩
    exact alike.weaken (flagsObserved_cons inside)
  | false =>
    have observed : flagsObserved (i :: x) := flagsObserved_jump straight inside
    have jumps := fun l => (replaces.jump before l alike observed).mono fun _ _ linked =>
      (⟨linked.1.twin, linked.2⟩ : Linked (Twin window window' rest) _ _)
    cases i with
    | jmp l => exact jumps l
    | jcc c l =>
      simp only [Platform.advance, ← alike.flags observed]
      cases s.flags with
      | none => exact .undefined _
      | some f =>
        dsimp only
        split
        · exact jumps l
        · exact .ok ⟨twin, alike.weaken fun _ => observed⟩
    | call | ret => cases inside
    | _ => cases straight

end Steps

end Replaces

/-- A run of `routine'` from `d` comes to match the `n` steps of `routine` from `c`; it falls behind by
`slack` steps, and by `pace` steps for each of its own. -/
def Platform.Follows (P : Platform) (routine routine' : List Inst) (pace slack n : Nat) (c d : Configuration) : Prop :=
  ∃ n', (P.trace routine n c).Matches (P.trace routine' n' d) ∧
    ((P.trace routine n c).status ≠ .undefined → n ≤ pace * n' + slack)

/-- Two instructions lead to the same: they make the same call and go on at configurations that are
linked. -/
inductive Event.Matches (linked : Configuration → Configuration → Prop) : Event → Event → Prop where
  | goes {c d : Configuration} (next : linked c d) : Matches linked (.goes c) (.goes d)
  | calls {k k' : Call} {o o' : Option Configuration} (call : k.AtMost k') (next : Option.Rel linked o o') :
    Matches linked (.calls k o) (.calls k' o')
  | returns : Matches linked .returns .returns

namespace Replaces

/-- The routine with the replacement follows the one without it. -/
def Trails (P : Platform) (window window' rest before : List Inst) : Nat → Nat → Configuration → Configuration → Prop :=
  P.Follows (before ++ (window ++ rest)) (before ++ (window' ++ rest)) (window.length + 1)

variable {c d : Configuration} (replaces : Replaces P window window' rest) (before : List Inst)
include replaces

theorem step (linked : Linked (Aside window window' rest) c d) :
    Covers (Event.Matches (Linked (Twin window window' rest)))
      (P.step (before ++ (window ++ rest)) c) (P.step (before ++ (window' ++ rest)) d) := by
  obtain ⟨x, s⟩ := c
  obtain ⟨y, t⟩ := d
  obtain ⟨aside, alike⟩ := linked
  cases aside with
  | nil => exact .undefined _
  | @cons i x y twin =>
    cases inside : i.staysInside with
    | true =>
      rw [step_advance inside, step_advance inside]
      exact (replaces.advance before inside twin alike).map fun _ _ linked => .goes linked
    | false =>
      cases i with
      | call l =>
        simp only [Platform.step]
        cases answered : P.callee l s.toContents with
        | none => exact .undefined _
        | some answer =>
          obtain ⟨answer', answered', same⟩ := P.callee_mono alike.contents answered
          rw [answered']
          refine .ok (.calls ⟨rfl, alike.contents⟩ ?_)
          cases same with
          | none => exact .none
          | some back => exact .some ⟨twin, .trim ⟨back.1, fun _ => back.2⟩ P⟩
      | ret => exact .ok .returns
      | _ => cases inside

/-- Both pieces come to the same place. -/
theorem arrive (distinct : (labels (before ++ (window ++ rest))).Nodup)
    (alike : s.Alike (flagsObserved (window ++ rest)) t) :
    Covers (Linked (Aside window window' rest)) (P.piece window s >>= landing (before ++ (window ++ rest)) rest)
      (P.piece window' t >>= landing (before ++ (window' ++ rest)) rest) := by
  refine (replaces.piece alike).bind ?_
  rintro ⟨exit, s⟩ ⟨exit', t⟩ ⟨exits, alike⟩
  rcases exits with same | ⟨here, l, after, jumps, begins⟩
  · obtain rfl : exit = exit' := same
    cases exit with
    | none => exact .ok ⟨.of_eq rest, alike⟩
    | some l => exact replaces.jump before l alike rfl
  · obtain rfl : exit' = none := here
    obtain rfl : exit = some l := jumps
    subst begins
    have fresh : l ∉ labels (before ++ window) := by
      rw [← append_assoc, labels_append] at distinct
      exact fun member => (nodup_append.1 distinct).2.2 l member l (by simp [label?]) rfl
    have found : codeFrom l ((before ++ window) ++ .label l :: after) = _ := codeFrom_label fresh
    rw [append_assoc] at found
    simp only [landing, found]
    exact .ok ⟨.of_eq _, alike⟩

/-- Away from the piece one step follows one step. -/
theorem follows_step (linked : Linked (Aside window window' rest) c d)
    (later : ∀ {c d}, Linked (Twin window window' rest) c d → Trails P window window' rest before window.length n c d) :
    Trails P window window' rest before 0 (n + 1) c d := by
  have ended : n + 1 ≤ (window.length + 1) * (n + 1) := Nat.le_mul_of_pos_left _ window.length.succ_pos
  have onward (m : Nat) (within : n ≤ (window.length + 1) * m + window.length) :
      n + 1 ≤ (window.length + 1) * (m + 1) := by
    rw [Nat.mul_succ]
    omega
  have stepped := replaces.step before linked
  rw [Trails, Platform.Follows, trace]
  generalize P.step (before ++ (window ++ rest)) c = x at stepped
  generalize right : P.step (before ++ (window' ++ rest)) d = y at stepped
  cases stepped with
  | undefined => exact ⟨0, ⟨.nil, .undefined _⟩, fun defined => absurd rfl defined⟩
  | trap =>
    refine ⟨n + 1, ?_, fun _ => ended⟩
    rw [trace, right]
    exact ⟨.nil, .trapped⟩
  | ok matched =>
    cases matched with
    | goes next =>
      obtain ⟨m, matched, within⟩ := later next
      refine ⟨m + 1, ?_, fun defined => onward m (within defined)⟩
      rw [trace, right]
      exact matched
    | calls call next =>
      cases next with
      | none =>
        refine ⟨n + 1, ?_, fun _ => ended⟩
        rw [trace, right]
        exact ⟨.cons call .nil, .away⟩
      | some next =>
        obtain ⟨m, matched, within⟩ := later next
        refine ⟨m + 1, ?_, fun defined => onward m (within defined)⟩
        rw [trace, right]
        exact matched.after call
    | returns =>
      refine ⟨n + 1, ?_, fun _ => ended⟩
      rw [trace, right]
      exact ⟨.nil, .returned linked.2.contents⟩

/-- The piece is run as a whole. -/
theorem follows_piece (distinct : (labels (before ++ (window ++ rest))).Nodup)
    (alike : s.Alike (flagsObserved (window ++ rest)) t)
    (later : ∀ m < n, ∀ {c d}, Linked (Aside window window' rest) c d → Trails P window window' rest before 0 m c d) :
    Trails P window window' rest before window.length n ⟨window ++ rest, s⟩ ⟨window' ++ rest, t⟩ := by
  obtain ⟨k, short, positive, spans⟩ :=
    spans_piece (P := P) (before ++ (window ++ rest)) rest replaces.inside s
  obtain ⟨k', -, -, spans'⟩ := spans_piece (P := P) (before ++ (window' ++ rest)) rest replaces.inside' t
  have positive := positive replaces.nonempty
  rcases Nat.lt_or_ge n k with early | late
  · obtain ⟨c, reached⟩ := spans.early n early
    refine ⟨0, ?_, fun _ => by omega⟩
    rw [reached]
    exact ⟨.nil, .at _ _⟩
  · obtain ⟨m, rfl⟩ := Nat.exists_eq_add_of_le late
    have arrives := replaces.arrive before distinct alike
    rw [Trails, Platform.Follows, spans.late m]
    generalize P.piece window s >>= _ = x at arrives
    generalize ends : P.piece window' t >>= _ = y at arrives
    rw [ends] at spans'
    cases arrives with
    | undefined => exact ⟨0, ⟨.nil, .undefined _⟩, fun defined => absurd rfl defined⟩
    | trap =>
      refine ⟨k' + m, ?_, fun _ => ?_⟩
      · rw [spans'.late]
        exact ⟨.nil, .trapped⟩
      · rw [Nat.add_mul, Nat.one_mul]
        omega
    | ok linked =>
      obtain ⟨m', matched, within⟩ := later m (by omega) linked
      refine ⟨k' + m', ?_, fun defined => ?_⟩
      · rw [spans'.late]
        exact matched
      · have := within defined
        rw [Nat.mul_add]
        omega

theorem follows (n : Nat) (distinct : (labels (before ++ (window ++ rest))).Nodup) :
    (∀ {c d}, Linked (Aside window window' rest) c d → Trails P window window' rest before 0 n c d) ∧
    ∀ {c d}, Linked (Twin window window' rest) c d → Trails P window window' rest before window.length n c d := by
  induction n using Nat.strongRecOn with
  | ind n ih =>
    have aside {c d : Configuration} (linked : Linked (Aside window window' rest) c d) :
        Trails P window window' rest before 0 n c d := by
      cases n with
      | zero => exact ⟨0, ⟨.nil, .at _ _⟩, fun _ => Nat.zero_le _⟩
      | succ n => exact replaces.follows_step before linked (ih n n.lt_succ_self).2
    refine ⟨aside, ?_⟩
    rintro ⟨x, s⟩ ⟨y, t⟩ ⟨twin, alike⟩
    have weaker (apart : Aside window window' rest x y) :
        Trails P window window' rest before window.length n ⟨x, s⟩ ⟨y, t⟩ := by
      obtain ⟨n', matched, within⟩ := aside ⟨apart, alike⟩
      exact ⟨n', matched, fun defined => Nat.le_add_right_of_le (within defined)⟩
    cases twin with
    | same => exact weaker (.of_eq _)
    | before code =>
      cases code with
      | nil => exact replaces.follows_piece before distinct alike fun m less => (ih m less).1
      | cons i code => exact weaker (.cons i (.before code))

/-- A routine with a piece replaced stands for the one it was. -/
theorem refines (distinct : (labels (before ++ (window ++ rest))).Nodup) :
    P.Refines (before ++ (window ++ rest)) (before ++ (window' ++ rest)) := by
  intro s
  refine ⟨window.length + 1, fun n => ?_⟩
  obtain ⟨n', matched, within⟩ :=
    (replaces.follows before n distinct).2 (⟨.before before, .refl _ s⟩ : Linked _ ⟨_, s⟩ ⟨_, s⟩)
  refine ⟨n', matched, fun defined => ?_⟩
  have := within defined
  rw [Nat.mul_succ]
  omega

end Replaces

end Quadcode.X86
