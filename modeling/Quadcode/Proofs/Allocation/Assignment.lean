import Quadcode.Allocation.Assignment
import Quadcode.Proofs.Allocation.Interference
import Quadcode.Proofs.Graph.Residence

/-!
# Where variables are placed

Placing goes on as it began: joined variables never share a register, words of the frame are handed
out once, and what is on the stack and not in the frame is an argument where the caller put it.
-/

namespace Quadcode

open X86 List Option

variable {live : Solution VarSet} {a : Allocation} {loops : Loops} {g : Graph}

namespace Allocation

variable {i : Interference} {p p' : Progress} {u v : VarId} {l : Location} {o : Int32} {x : Variable}
  {order : List VarId} {frame frame' d : Nat} {depth : VarId → Nat} {ty : Ty}

theorem isRegister_of_mem_registersFor (member : l ∈ registersFor ty) : l.isRegister := by
  unfold registersFor at member
  split at member <;>
  · obtain ⟨r, -, rfl⟩ := mem_map.1 member
    rfl

theorem incoming?_eq_some (argument : incoming? g v = some l) : ∃ k, g.params[k]? = some v ∧ l = incoming k := by
  obtain ⟨k, found, rfl⟩ := map_eq_some_iff.1 argument
  obtain ⟨front, back, split, -⟩ := lookup_eq_some_iff.1 found
  have member : (v, k) ∈ g.params.zipIdx := mem_reverse.1 (by simp [split])
  exact ⟨k, mem_zipIdx_iff_getElem?.1 member, rfl⟩

theorem incoming?_eq (distinct : g.params.Nodup) {k : Nat} (here : g.params[k]? = some v) :
    incoming? g v = some (incoming k) := by
  cases found : incoming? g v with
  | none =>
    rw [incoming?, map_eq_none_iff, lookup_eq_none_iff] at found
    have member : (v, k) ∈ g.params.zipIdx.reverse := mem_reverse.2 (mem_zipIdx_iff_getElem?.2 here)
    simpa using found _ member
  | some l =>
    obtain ⟨j, there, rfl⟩ := incoming?_eq_some found
    obtain ⟨inside, rfl⟩ := List.getElem?_eq_some_iff.1 here
    obtain ⟨inside', same⟩ := List.getElem?_eq_some_iff.1 there
    rw [(List.Nodup.getElem_inj_iff distinct).1 same]

/-- How many words a variable takes. -/
def words (g : Graph) (v : VarId) : Nat := (g.vars[v]?.bind (·.ty.slots?)).getD 0

/-- A variable lies in the frame, its lowest word at some depth below the frame pointer. -/
structure Lies (g : Graph) (frame : Nat) (v : VarId) (o : Int32) (depth : Nat) : Prop where
  offset : o = Int32.ofInt (-(depth : Int))
  sized : g.vars[v]?.bind (·.ty.slots?) = some (words g v)
  room : slotBytes * words g v ≤ depth
  within : depth ≤ frame
  aligned : depth % slotBytes = 0

/-- The storage of a global is for the variables that name it, and for those alone. -/
def Named (g : Graph) (v : VarId) (l : Location) : Prop :=
  ∃ x, g.vars[v]? = some x ∧ if x.isGlobal then l = .global x.name else ∀ name, l ≠ .global name

/-- What holds at every stage of placing. `depth` says how deep the words of each variable in the
frame lie. -/
structure Progress.Sound (g : Graph) (i : Interference) (p : Progress) (depth : VarId → Nat) : Prop where
  frame_lt : p.frame < frameLimit
  frame_aligned : p.frame % slotBytes = 0
  register : ∀ v l, p.placed[v]? = some l → l.isRegister → v ∉ g.memoryResident ∧
    ∃ x, g.vars[v]? = some x ∧ l ∈ registersFor x.ty
  apart : ∀ u v l, i.Joins u v → u ≠ v → p.placed[u]? = some l → p.placed[v]? = some l → l.isRegister = false
  named : ∀ (v : VarId) l, p.placed[v]? = some l → Named g v l
  stack : ∀ (v : VarId) (o : Int32), p.placed[v]? = some (.stack o) → incoming? g v = some (.stack o) ∨
    (incoming? g v = none ∧ Lies g p.frame v o (depth v))
  disjoint : ∀ u v o o', u ≠ v → p.placed[u]? = some (.stack o) → incoming? g u = none →
    p.placed[v]? = some (.stack o') → incoming? g v = none →
    depth u + slotBytes * words g v ≤ depth v ∨ depth v + slotBytes * words g u ≤ depth u
  ranked : ∀ u v o o', u ∈ g.memoryResident → v ∉ g.memoryResident → p.placed[u]? = some (.stack o) →
    incoming? g u = none → p.placed[v]? = some (.stack o') → incoming? g v = none →
    depth u + slotBytes * words g v ≤ depth v

namespace Progress

theorem place_getElem? (p : Progress) (v u : VarId) (l : Location) :
    (p.place v l).placed[u]? = if v = u then some l else p.placed[u]? := by
  unfold place
  simp only
  rw [Std.ExtTreeMap.getElem?_insert]
  simp only [Nat.compare_eq_eq]

theorem sound_start (started : start g = .ok p) : p.Sound g i fun _ => 0 := by
  unfold start at started
  split at started
  · cases started
    constructor <;> simp [frameLimit]
  · cases started

/-- A place suits a variable, at the given depth if it is in the frame. -/
structure Suits (g : Graph) (i : Interference) (p : Progress) (depth : VarId → Nat) (v : VarId)
    (l : Location) (d : Nat) : Prop where
  register : l.isRegister → v ∉ g.memoryResident ∧ (∃ x, g.vars[v]? = some x ∧ l ∈ registersFor x.ty) ∧
    ∀ u, i.Joins u v → u ≠ v → p.placed[u]? ≠ some l
  named : Named g v l
  stack : ∀ o, l = .stack o → incoming? g v = some l ∨ (incoming? g v = none ∧ Lies g p.frame v o d ∧
    ∀ (u : VarId) (o' : Int32), p.placed[u]? = some (.stack o') → incoming? g u = none →
      depth u + slotBytes * words g v ≤ d)
  first : v ∈ g.memoryResident → ∀ (u : VarId) k, p.placed[u]? = some k → u ∈ g.memoryResident

theorem Sound.place (sound : p.Sound g i depth) (suits : p.Suits g i depth v l d) :
    (p.place v l).Sound g i (Function.update depth v d) where
  frame_lt := sound.frame_lt
  frame_aligned := sound.frame_aligned
  register u k placed isRegister := by
    rw [place_getElem?] at placed
    split at placed
    next same =>
      cases placed
      exact same ▸ ⟨(suits.register isRegister).1, (suits.register isRegister).2.1⟩
    · exact sound.register u k placed isRegister
  apart a b k joined different first second := by
    rw [place_getElem?] at first second
    by_contra isRegister
    rw [Bool.not_eq_false] at isRegister
    split at first
    next same =>
      cases first
      subst same
      rw [if_neg different] at second
      exact (suits.register isRegister).2.2 b joined.symm (Ne.symm different) second
    · split at second
      next same =>
        cases second
        subst same
        exact (suits.register isRegister).2.2 a joined different first
      · exact absurd (sound.apart a b k joined different first second) (by simp [isRegister])
  named u k placed := by
    rw [place_getElem?] at placed
    split at placed
    next same =>
      cases placed
      exact same ▸ suits.named
    · exact sound.named u k placed
  stack u o placed := by
    rw [place_getElem?] at placed
    split at placed
    next same =>
      cases placed
      subst same
      rw [Function.update_self]
      exact (suits.stack o rfl).imp_right fun ⟨outside, lies, _⟩ => ⟨outside, lies⟩
    next other =>
      rw [Function.update_of_ne (Ne.symm other)]
      exact sound.stack u o placed
  disjoint a b o o' different first out second out' := by
    rw [place_getElem?] at first second
    split at first
    next same =>
      cases first
      subst same
      rw [if_neg different] at second
      rw [Function.update_self, Function.update_of_ne (Ne.symm different)]
      rcases suits.stack o rfl with argument | ⟨-, -, below⟩
      · simp [out] at argument
      · exact .inr (below b o' second out')
    next other =>
      rw [Function.update_of_ne (Ne.symm other)]
      split at second
      next same =>
        cases second
        subst same
        rw [Function.update_self]
        rcases suits.stack o' rfl with argument | ⟨-, -, below⟩
        · simp [out'] at argument
        · exact .inl (below a o first out)
      next other' =>
        rw [Function.update_of_ne (Ne.symm other')]
        exact sound.disjoint a b o o' different first out second out'
  ranked a b o o' resident candidate first out second out' := by
    have different : a ≠ b := fun same => candidate (same ▸ resident)
    rw [place_getElem?] at first second
    split at first
    next same =>
      subst same
      rw [if_neg different] at second
      exact absurd (suits.first resident b _ second) candidate
    next other =>
      rw [Function.update_of_ne (Ne.symm other)]
      split at second
      next same =>
        cases second
        subst same
        rw [Function.update_self]
        rcases suits.stack o' rfl with argument | ⟨-, -, below⟩
        · simp [out'] at argument
        · exact below a o first out
      next other' =>
        rw [Function.update_of_ne (Ne.symm other')]
        exact sound.ranked a b o o' resident candidate first out second out'

theorem Sound.grow (sound : p.Sound g i depth) (more : p.frame ≤ frame) (reachable : frame < frameLimit)
    (aligned : frame % slotBytes = 0) : Sound g i { p with frame } depth where
  frame_lt := reachable
  frame_aligned := aligned
  register := sound.register
  apart := sound.apart
  named := sound.named
  stack v o placed := (sound.stack v o placed).imp_right fun ⟨outside, lies⟩ =>
    ⟨outside, { lies with within := Nat.le_trans lies.within more }⟩
  disjoint := sound.disjoint
  ranked := sound.ranked

/-- Where a variable without a register goes, and how far the frame reaches then: it stays where the caller has put
it, or it takes new words at the bottom of the frame. -/
inductive Lands (g : Graph) (frame : Nat) (v : VarId) : Location → Nat → Prop
  | argument {l : Location} (found : incoming? g v = some l) : Lands g frame v l frame
  | bottom (outside : incoming? g v = none) (sized : g.vars[v]?.bind (·.ty.slots?) = some (words g v))
      (reachable : frame + slotBytes * words g v < frameLimit) :
      Lands g frame v (bottom (frame + slotBytes * words g v)) (frame + slotBytes * words g v)

theorem Lands.stack (lands : Lands g frame v l frame') : ∃ o, l = .stack o := by
  cases lands with
  | argument found =>
    obtain ⟨k, -, rfl⟩ := incoming?_eq_some found
    exact ⟨_, rfl⟩
  | bottom => exact ⟨_, rfl⟩

theorem reserve_lands {slots : Nat} (outside : incoming? g v = none)
    (sized : g.vars[v]?.bind (·.ty.slots?) = some slots) (reserved : p.reserve g v slots = .ok p') :
    ∃ l frame, Lands g p.frame v l frame ∧ p' = { p with frame }.place v l := by
  obtain rfl : words g v = slots := by simp [words, sized]
  unfold Progress.reserve grow? at reserved
  simp only at reserved
  split at reserved
  next grown =>
    split at grown
    next reachable =>
      cases grown
      cases reserved
      exact ⟨_, _, .bottom outside sized reachable, rfl⟩
    · cases grown
  · cases reserved

/-- A variable in memory gets the storage of its global, or it lands. -/
theorem placeInMemory_cases (placed : placeInMemory g p v = .ok p') :
    ∃ x l frame, g.vars[v]? = some x ∧ p' = { p with frame }.place v l ∧
      (x.isGlobal ∧ l = .global x.name ∧ frame = p.frame ∨ ¬x.isGlobal ∧ Lands g p.frame v l frame) := by
  simp only [placeInMemory, bind_eq_ok, orFault_eq_ok] at placed
  obtain ⟨x, declared, rest⟩ := placed
  split at rest
  next isGlobal =>
    cases rest
    exact ⟨x, _, _, declared, rfl, .inl ⟨isGlobal, rfl, rfl⟩⟩
  next own =>
    split at rest
    next l argument =>
      cases rest
      exact ⟨x, l, _, declared, rfl, .inr ⟨own, .argument argument⟩⟩
    next outside =>
      obtain ⟨slots, counted, reserved⟩ := bind_eq_ok.1 rest
      rw [orFault_eq_ok] at counted
      obtain ⟨l, frame, lands, rfl⟩ := reserve_lands outside (by simp [declared, counted]) reserved
      exact ⟨x, l, frame, declared, rfl, .inr ⟨own, lands⟩⟩

/-- A candidate gets a free register, or it is spilled and lands. -/
theorem placeCandidate_cases (single : g.vars[v]?.bind (·.ty.slots?) = some 1)
    (placed : placeCandidate g i p v = .ok p') : ∃ x l, g.vars[v]? = some x ∧
      (freeRegister? i p v x.ty = some l ∧ p' = p.place v l ∨
        ∃ frame, Lands g p.frame v l frame ∧ p' = { p with frame, spilled := v :: p.spilled }.place v l) := by
  simp only [placeCandidate, bind_eq_ok, orFault_eq_ok] at placed
  obtain ⟨x, declared, rest⟩ := placed
  split at rest
  next l free =>
    cases rest
    exact ⟨x, l, declared, .inl ⟨free, rfl⟩⟩
  · split at rest
    next l argument =>
      cases rest
      exact ⟨x, l, declared, .inr ⟨_, .argument argument, rfl⟩⟩
    next outside =>
      obtain ⟨l, frame, lands, rfl⟩ := reserve_lands outside single rest
      exact ⟨x, l, declared, .inr ⟨frame, lands, rfl⟩⟩

section Stages

variable (first : v ∈ g.memoryResident → ∀ (u : VarId) k, p.placed[u]? = some k → u ∈ g.memoryResident)
include first

/-- New words are taken at the bottom of the frame, below all others. -/
theorem Sound.land (sound : p.Sound g i depth) (declared : g.vars[v]? = some x) (own : ¬x.isGlobal)
    (lands : Lands g p.frame v l frame) : ∃ depth', Sound g i ({ p with frame }.place v l) depth' := by
  cases lands with
  | argument found =>
    obtain ⟨k, -, rfl⟩ := incoming?_eq_some found
    exact ⟨_, sound.place (d := 0) ⟨nofun, ⟨x, declared, by simp [own, incoming]⟩, fun _ _ => .inl found, first⟩⟩
  | bottom outside sized reachable =>
    have aligned : (p.frame + slotBytes * words g v) % slotBytes = 0 := by
      rw [Nat.add_mul_mod_self_left, sound.frame_aligned]
    refine ⟨_, (sound.grow (Nat.le_add_right ..) reachable aligned).place (d := p.frame + slotBytes * words g v)
      ⟨nofun, ⟨x, declared, by simp [own, Allocation.bottom]⟩, ?_, first⟩⟩
    rintro o ⟨⟩
    refine .inr ⟨outside, ⟨rfl, sized, Nat.le_add_left .., Nat.le_refl _, aligned⟩, fun u o' placed out => ?_⟩
    rcases sound.stack u o' placed with argument | ⟨-, lies⟩
    · simp [out] at argument
    · exact Nat.add_le_add_right lies.within _

theorem sound_placeInMemory (sound : p.Sound g i depth) (placed : placeInMemory g p v = .ok p') :
    ∃ depth', p'.Sound g i depth' := by
  obtain ⟨x, l, frame, declared, rfl, ⟨isGlobal, rfl, rfl⟩ | ⟨own, lands⟩⟩ := placeInMemory_cases placed
  · exact ⟨_, sound.place (d := 0) ⟨nofun, ⟨x, declared, by simp [isGlobal]⟩, nofun, first⟩⟩
  · exact sound.land first declared own lands

end Stages

theorem sound_placeCandidate (sound : p.Sound g i depth) (candidate : v ∉ g.memoryResident)
    (single : g.vars[v]?.bind (·.ty.slots?) = some 1) (placed : placeCandidate g i p v = .ok p') :
    ∃ depth', p'.Sound g i depth' := by
  have first {c : Prop} : v ∈ g.memoryResident → c := fun resident => absurd resident candidate
  obtain ⟨x, l, declared, ⟨free, rfl⟩ | ⟨frame, lands, rfl⟩⟩ := placeCandidate_cases single placed
  all_goals have own : ¬x.isGlobal := fun isGlobal =>
    candidate (Graph.mem_memoryResident.2 (.inr ⟨x, declared, by simp [isGlobal]⟩))
  · have chosen : ∀ u ∈ i.neighbours v, ¬p.placed[u]? = some l := by
      simpa using find?_some free
    have listed := mem_of_find?_eq_some free
    refine ⟨_, sound.place (d := 0) ⟨fun _ => ⟨candidate, ⟨x, declared, listed⟩, ?_⟩, ?_, ?_, first⟩⟩
    · exact fun u joined _ there => chosen u joined.2 there
    · refine ⟨x, declared, (if_neg own).mpr ?_⟩
      rintro name rfl
      cases isRegister_of_mem_registersFor listed
    · rintro o rfl
      cases isRegister_of_mem_registersFor listed
  · have same : Sound g i { p with spilled := v :: p.spilled } depth := { sound with }
    exact same.land first declared own lands

end Progress

theorem align_eq_ok {saved size : Nat} (aligned : frame % slotBytes = 0) (padded : align g frame saved = .ok size) :
    frame ≤ size ∧ size < frameLimit ∧ (size + slotBytes * saved) % stackAlignment = 0 := by
  unfold align at padded
  simp only at padded
  split at padded
  · cases padded
  next reachable =>
    split at padded
    next even =>
      cases padded
      exact ⟨Nat.le_refl _, by omega, even⟩
    next odd =>
      split at padded
      next grown =>
        cases padded
        unfold grow? at grown
        simp only at grown
        split at grown
        · cases grown
          simp only [slotBytes, stackAlignment] at *
          omega
        · cases grown
      · cases padded

/-- The candidates for registers. -/
def candidates (g : Graph) : VarSet := .ofList ((List.range g.vars.size).filter (· ∉ g.memoryResident))

theorem mem_candidates : v ∈ candidates g ↔ v < g.vars.size ∧ v ∉ g.memoryResident := by
  simp [candidates]

theorem slots?_of_isScalar (scalar : ty.isScalar) : ty.slots? = some 1 := by
  cases ty <;> simp_all [Ty.isScalar, Ty.slots?]

theorem slots_of_candidate (member : v ∈ candidates g) : g.vars[v]?.bind (·.ty.slots?) = some 1 := by
  obtain ⟨inside, free⟩ := mem_candidates.1 member
  have declared := Array.getElem?_eq_getElem inside
  have scalar : g.vars[v].ty.isScalar := by
    by_contra aggregate
    exact free (Graph.mem_memoryResident.2 (.inr ⟨_, declared, by simp [aggregate]⟩))
  rw [declared, bind_some, slots?_of_isScalar scalar]

/-! ## How large the frame gets -/

/-- The variables that live in memory. -/
def residents (g : Graph) : List VarId := (List.range g.vars.size).filter (· ∈ g.memoryResident)

/-- The words of the frame that a variable takes which lives in memory. -/
def ownWords (g : Graph) (v : VarId) : Nat :=
  if g.vars[v]?.any (·.isGlobal) || (incoming? g v).isSome then 0 else words g v

/-- The bytes of the frame that are taken in any case. -/
def leastFrame (g : Graph) : Nat := slotBytes * ((residents g).map (ownWords g)).sum

/-- The bytes of the frame if no candidate gets a register. -/
def mostFrame (g : Graph) : Nat :=
  leastFrame g + slotBytes * ((List.range g.vars.size).filter (· ∉ g.memoryResident)).length

theorem Progress.Lands.frame_eq (lands : Lands g frame v l frame')
    (declared : g.vars[v]? = some x) (own : ¬x.isGlobal) : frame' = frame + slotBytes * ownWords g v ∧
      (frame < frameLimit → frame' < frameLimit) := by
  cases lands with
  | argument found => simp [ownWords, found]
  | bottom outside _ reachable => simp [ownWords, declared, own, outside, reachable]

/-- The frame holds `least` bytes for variables that live in memory. Of the candidates that were tried, each has taken
a word of the frame or one of the registers `rs`, or neither. -/
structure Filled (least tried : Nat) (rs : List Reg) (p : Progress) : Prop where
  reachable : p.frame < frameLimit
  low : least ≤ p.frame
  high : p.frame + slotBytes * rs.length ≤ least + slotBytes * tried
  registers : ∀ (v : VarId) r, p.placed[v]? = some (.reg r) → r ∈ rs

namespace Filled

variable {least tried : Nat} {rs : List Reg}

theorem place {least' tried' : Nat} {rs' : List Reg} {spilled : List VarId} (filled : Filled least tried rs p)
    (more : rs ⊆ rs') (held : ∀ r, l = .reg r → r ∈ rs') (reachable : frame < frameLimit) (low : least' ≤ frame)
    (high : frame + slotBytes * rs'.length ≤ least' + slotBytes * tried') :
    Filled least' tried' rs' (Progress.place { p with frame, spilled } v l) where
  reachable := reachable
  low := low
  high := high
  registers u r there := by
    rw [Progress.place_getElem?] at there
    split at there
    · exact held r (Option.some.inj there)
    · exact more (filled.registers u r there)

theorem resident (filled : Filled least 0 [] p) (placed : placeInMemory g p v = .ok p') :
    Filled (least + slotBytes * ownWords g v) 0 [] p' := by
  have ⟨reachable, low, high, _⟩ := filled
  obtain ⟨x, l, frame, declared, rfl, ⟨isGlobal, rfl, rfl⟩ | ⟨own, lands⟩⟩ := Progress.placeInMemory_cases placed
  · have none : ownWords g v = 0 := by simp [ownWords, declared, isGlobal]
    refine filled.place (List.Subset.refl _) nofun reachable ?_ ?_ <;> simp only [slotBytes] at * <;> omega
  · obtain ⟨o, rfl⟩ := lands.stack
    obtain ⟨rfl, within⟩ := lands.frame_eq declared own
    refine filled.place (List.Subset.refl _) nofun (within reachable) ?_ ?_ <;> simp only [slotBytes] at * <;> omega

theorem candidate (filled : Filled least tried rs p) (member : v ∈ candidates g)
    (placed : placeCandidate g i p v = .ok p') : ∃ rs', Filled least (tried + 1) rs' p' := by
  have ⟨reachable, low, high, _⟩ := filled
  have single := slots_of_candidate member
  obtain ⟨x, l, declared, ⟨-, rfl⟩ | ⟨frame, lands, rfl⟩⟩ := Progress.placeCandidate_cases single placed
  · cases l with
    | reg r =>
      refine ⟨r :: rs, filled.place (subset_cons_self r rs) ?_ reachable low ?_⟩
      · rintro _ ⟨⟩
        exact mem_cons_self
      · simp only [length_cons, slotBytes] at *
        omega
    | _ => exact ⟨rs, filled.place (List.Subset.refl _) nofun reachable low (by simp only [slotBytes] at *; omega)⟩
  · have own : ¬x.isGlobal := fun isGlobal =>
      (mem_candidates.1 member).2 (Graph.mem_memoryResident.2 (.inr ⟨x, declared, by simp [isGlobal]⟩))
    have small : ownWords g v ≤ 1 := by
      unfold ownWords words
      rw [single]
      split <;> simp
    obtain ⟨o, rfl⟩ := lands.stack
    obtain ⟨rfl, within⟩ := lands.frame_eq declared own
    refine ⟨rs, filled.place (List.Subset.refl _) nofun (within reachable) ?_ ?_⟩ <;>
      simp only [slotBytes] at * <;> omega

end Filled

/-- Placing all variables fills the frame. -/
theorem filled_of_placed {q : Progress} (started : Progress.start g = .ok p)
    (first : (residents g).foldlM (placeInMemory g) p = .ok p') (members : ∀ v ∈ order, v ∈ candidates g)
    (second : order.foldlM (placeCandidate g i) p' = .ok q) : ∃ rs, Filled (leastFrame g) order.length rs q := by
  have memory : Filled (leastFrame g) 0 [] p' := by
    refine foldlM_ok (fun done p => Filled (slotBytes * (done.map (ownWords g)).sum) 0 [] p) ?_ ?_ first
    · unfold Progress.start at started
      split at started <;> cases started
      exact ⟨by decide, by simp, by simp, by simp⟩
    · intro done v rest p p' _ filled step
      simpa [Nat.mul_add] using filled.resident step
  refine foldlM_ok (fun done p => ∃ rs, Filled (leastFrame g) done.length rs p) ⟨[], memory⟩ ?_ second
  rintro done v rest p p' split ⟨rs, filled⟩ step
  simpa using filled.candidate (members v (by simp [split])) step

theorem length_le_candidates (distinct : order.Nodup) (members : ∀ v ∈ order, v ∈ candidates g) :
    leastFrame g + slotBytes * order.length ≤ mostFrame g := by
  have part : order ⊆ (List.range g.vars.size).filter (· ∉ g.memoryResident) := fun v member => by
    simpa [mem_candidates] using members v member
  exact Nat.add_le_add_left (Nat.mul_le_mul_left _ (subperm_of_subset distinct part).length_le) _

/-- How variables are placed. -/
structure Placed (g : Graph) (a : Allocation) (p : Progress) (depth : VarId → Nat) : Prop where
  sound : p.Sound g a.interference depth
  size : a.locations.size = g.vars.size
  placed : ∀ (v : VarId) (l : Location), a.locations[v]? = some l → p.placed[v]? = some l
  spilled : ∀ v ∈ a.spilled, ∃ o, a.locations[v]? = some (.stack o)
  reachable : argumentBase + slotBytes * g.params.length ≤ frameLimit
  saved : a.calleeSaved.Sublist X86.calleeSaved
  mem_saved : ∀ r, r ∈ a.calleeSaved ↔ r ∈ X86.calleeSaved ∧ .reg r ∈ a.locations
  frame_most : p.frame ≤ mostFrame g
  frame_le : p.frame ≤ a.frameSize
  frame_lt : a.frameSize < frameLimit
  aligned : (a.frameSize + slotBytes * a.calleeSaved.length) % stackAlignment = 0

/-- What an allocation is made of. -/
structure Result (g : Graph) (near : BlockMap VarSet) (a : Allocation) (p : Progress)
    (depth : VarId → Nat) : Prop extends Placed g a p depth where
  complete : a.interference.Complete g near (candidates g)

section

variable (placed : Placed g a p depth)
include placed

/-- Only globals have the storage of globals. -/
theorem Placed.named {name : Label} (here : a.locations[v]? = some (.global name)) :
    ∃ x, g.vars[v]? = some x ∧ x.isGlobal := by
  obtain ⟨x, declared, kind⟩ := placed.sound.named v _ (placed.placed v _ here)
  split at kind
  next isGlobal => exact ⟨x, declared, isGlobal⟩
  · exact absurd rfl (kind name)

/-- A variable that names a global has its storage. -/
theorem Placed.owned (declared : g.vars[v]? = some x) (isGlobal : x.isGlobal) :
    a.locations[v]? = some (.global x.name) := by
  have inside : v < a.locations.size := placed.size ▸ (Array.getElem?_eq_some_iff.1 declared).1
  have here := Array.getElem?_eq_getElem inside
  obtain ⟨y, declared', kind⟩ := placed.sound.named v _ (placed.placed v _ here)
  cases declared.symm.trans declared'
  rw [here, (if_pos isGlobal).mp kind]

/-- A general register holds a variable that is not a float. -/
theorem Placed.general {r : Reg} (here : a.locations[v]? = some (.reg r)) :
    r ∈ allocatable ∧ ∃ x, g.vars[v]? = some x ∧ x.ty.isFloat = false := by
  obtain ⟨-, x, declared, listed⟩ := placed.sound.register v _ (placed.placed v _ here) rfl
  unfold registersFor at listed
  split at listed <;> simp_all

theorem Placed.float {r : Xmm} (here : a.locations[v]? = some (.xmm r)) :
    r ∈ allocatableFloats ∧ ∃ x, g.vars[v]? = some x ∧ x.ty.isFloat = true := by
  obtain ⟨-, x, declared, listed⟩ := placed.sound.register v _ (placed.placed v _ here) rfl
  unfold registersFor at listed
  split at listed <;> simp_all

/-- An argument lies above the frame pointer. -/
theorem Placed.incoming_toInt (argument : incoming? g v = some (.stack o)) :
    ∃ k, g.params[k]? = some v ∧ o.toInt = (argumentBase + slotBytes * k : Nat) := by
  obtain ⟨k, here, same⟩ := incoming?_eq_some argument
  cases same
  have inside := (List.getElem?_eq_some_iff.1 here).1
  have reachable := placed.reachable
  simp only [argumentBase, slotBytes, frameLimit] at *
  exact ⟨k, here, Int32.toInt_ofNat_of_lt (by omega)⟩

/-- A word of the frame lies below the frame pointer. -/
theorem Placed.lies_toInt (lies : Lies g p.frame v o d) : o.toInt = -d := by
  have within := lies.within
  have bound := placed.sound.frame_lt
  simp only [frameLimit] at bound
  rw [lies.offset]
  exact Int32.toInt_ofInt_of_le (by omega) (by omega)

end

theorem interference_of_allocate (allocated : allocate g live loops = .ok a) :
    Interference.build g live (candidates g) = .ok a.interference := by
  unfold allocate at allocated
  simp only [bind_eq_ok, pure_eq_ok] at allocated
  obtain ⟨i, built, -, -, -, -, -, -, -, -, -, -, -, -, rfl⟩ := allocated
  exact built

theorem order_spec {vs : VarSet} (ordered : Priority.order g live loops vs = .ok order) :
    order.Nodup ∧ ∀ v ∈ order, v ∈ vs := by
  simp only [Priority.order, bind_eq_ok, pure_eq_ok] at ordered
  obtain ⟨t, -, rfl⟩ := ordered
  have perm := (sortBy_perm Priority.precedes (vs.toList.map fun v => (v, t.priority v))).map Prod.fst
  have same : (vs.toList.map fun v => (v, t.priority v)).map Prod.fst = vs.toList := by
    simp [Function.comp_def]
  rw [same] at perm
  refine ⟨perm.nodup_iff.2 ?_, fun v member => by simpa using perm.mem_iff.1 member⟩
  exact Std.ExtTreeSet.distinct_toList.imp fun different same => different (by simp [same])

end Allocation

open Allocation Progress

/-- An allocation comes from sound placing. -/
theorem allocate_placed (allocated : allocate g live loops = .ok a) : ∃ p depth, Placed g a p depth := by
  unfold allocate at allocated
  simp only [bind_eq_ok, pure_eq_ok] at allocated
  obtain ⟨i, -, order, ordered, fresh, started, p, first, q, second, locations, listed, size, padded, rfl⟩ := allocated
  obtain ⟨distinct, members⟩ := order_spec ordered
  -- The second loop begins when all that is placed lives in memory and nothing is spilled.
  obtain ⟨memory, -, none⟩ : (∃ depth, p.Sound g i depth) ∧
      (∀ (u : VarId) k, p.placed[u]? = some k → u ∈ g.memoryResident) ∧ p.spilled = [] := by
    refine foldlM_ok (fun _ p => (∃ depth, Sound g i p depth) ∧
      (∀ (u : VarId) k, p.placed[u]? = some k → u ∈ g.memoryResident) ∧ p.spilled = []) ?_ ?_ first
    · refine ⟨⟨_, sound_start started⟩, ?_⟩
      unfold Progress.start at started
      split at started <;> cases started
      simp
    · rintro done v rest p p' split ⟨⟨depth, sound⟩, resident, none⟩ step
      have here : v ∈ (List.range g.vars.size).filter (· ∈ g.memoryResident) := by simp [split]
      have sound' := sound_placeInMemory (fun _ => resident) sound step
      obtain ⟨x, l, frame, -, rfl, -⟩ := placeInMemory_cases step
      refine ⟨sound', fun u k found => ?_, none⟩
      rw [place_getElem?] at found
      split at found
      next equal =>
        rw [← equal]
        simpa using (mem_filter.1 here).2
      · exact resident u k found
  obtain ⟨⟨depth, sound⟩, spilled⟩ : (∃ depth, q.Sound g i depth) ∧
      ∀ v ∈ q.spilled, v ∈ order ∧ ∃ o, q.placed[v]? = some (.stack o) := by
    refine foldlM_ok (fun done p => (∃ depth, Sound g i p depth) ∧
      ∀ v ∈ p.spilled, v ∈ done ∧ ∃ o, p.placed[v]? = some (.stack o)) ⟨memory, by simp [none]⟩ ?_ second
    rintro done v rest p p' split ⟨⟨depth, sound⟩, before⟩ step
    have member := members v (by simp [split])
    refine ⟨sound_placeCandidate sound (mem_candidates.1 member).2 (slots_of_candidate member) step, ?_⟩
    have old (l : Location) : ∀ u ∈ p.spilled, u ∈ done ++ [v] ∧ ∃ o, (p.place v l).placed[u]? = some (.stack o) := by
      intro u member
      obtain ⟨seen, there⟩ := before u member
      have other : v ≠ u := by
        rintro rfl
        rw [split] at distinct
        exact (nodup_append.1 distinct).2.2 v seen v mem_cons_self rfl
      rw [place_getElem?, if_neg other]
      exact ⟨mem_append_left _ seen, there⟩
    obtain ⟨x, l, -, ⟨-, rfl⟩ | ⟨frame, lands, rfl⟩⟩ := placeCandidate_cases (slots_of_candidate member) step
    · exact old l
    · obtain ⟨o, rfl⟩ := lands.stack
      exact forall_mem_cons.2 ⟨⟨by simp, o, by simp [place_getElem?]⟩, old _⟩
  have pointwise := forall₂_iff_get.1 (mapM_eq_ok.1 listed)
  have length : locations.length = g.vars.size := by simpa using pointwise.1.symm
  have found : ∀ v < g.vars.size, locations[v]? = q.placed[v]? := by
    intro v inside
    have same := pointwise.2 v (by simpa) (length ▸ inside)
    simp only [get_eq_getElem, getElem_range] at same
    rw [getElem?_eq_getElem (length ▸ inside)]
    split at same
    next there => rw [there, pure_eq_ok.1 same]
    · cases same
  obtain ⟨frame_le, frame_lt, aligned⟩ := align_eq_ok sound.frame_aligned padded
  obtain ⟨rs, filled⟩ := filled_of_placed started first members second
  have most : q.frame ≤ mostFrame g :=
    (Nat.le_add_right ..).trans (filled.high.trans (length_le_candidates distinct members))
  refine ⟨q, depth, sound, ?_, ?_, ?_, ?_, filter_sublist, by simp, most, frame_le, frame_lt, aligned⟩
  · exact length
  · intro v l there
    rw [getElem?_toArray] at there
    rw [← found v (length ▸ (List.getElem?_eq_some_iff.1 there).1), there]
  · intro v member
    obtain ⟨seen, o, there⟩ := spilled v (mem_reverse.1 member)
    exact ⟨o, by rw [getElem?_toArray, found v (mem_candidates.1 (members v seen)).1, there]⟩
  · unfold Progress.start at started
    split at started
    next reachable => exact reachable
    · cases started

/-- An allocation comes from sound placing by a complete relation. -/
theorem allocate_result (linked : g.Linked) (solved : g.liveness = .ok live)
    (allocated : allocate g live loops = .ok a) : ∃ p depth, Allocation.Result g live.near a p depth := by
  obtain ⟨p, depth, placed⟩ := allocate_placed allocated
  exact ⟨p, depth, placed, Interference.build_complete linked solved (interference_of_allocate allocated)⟩

end Quadcode
