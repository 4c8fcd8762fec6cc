import Mathlib.Order.WellFounded
import Quadcode.Proofs.Flow.NaturalLoops

/-!
# The nesting of loops

Two natural loops with different headers that share a block both have headers that dominate it, so control passes
through one header after the other on the way there. The loop of the second header then lies within the loop of the
first. So loops form a forest: the loops around a block are in one line, and the parent of a loop, which is the
smallest one around it, is on the way to all the others.
-/

namespace Quadcode

open List Option Array Std.ExtTreeSet Loops

variable {g : Graph} {d : Dominators} {l l' m : Loop} {b h p x : BlockId}

/-! ## Two loops -/

namespace Graph

/-- A dominator of a block leads to it around everything that it does not dominate. -/
theorem Dominates.bypasses (dominates : g.Dominates b x) (other : ¬g.Dominates b h) (reached : g.Reaches g.entry x) :
    g.Bypasses h b x := by
  have away {c : BlockId} (below : g.Dominates b c) : c ≠ h := by
    rintro rfl
    exact other below
  induction reached with
  | refl =>
    rw [dominates_entry.1 dominates] at other
    exact absurd (entry_dominates h) other
  | @tail a c _ edge ih =>
    by_cases last : b = c
    · rw [last]
      exact .refl
    · have before := dominates.of_edge last edge
      exact (ih before).tail ⟨edge, away before, away dominates⟩

/-- A way around a dominator of its end is a way around everything that the dominator does not dominate. -/
theorem Bypasses.around {h' : BlockId} (way : g.Bypasses h b p) (dominates : g.Dominates h p)
    (other : ¬g.Dominates h h') : g.Bypasses h' b p := by
  have away {c : BlockId} (below : g.Dominates h c) : c ≠ h' := by
    rintro rfl
    exact other below
  induction way using Relation.ReflTransGen.head_induction_on with
  | refl => exact .refl
  | @head b c step rest ih =>
    have below := Bypasses.dominated rest dominates
    exact ih.head ⟨step.1, away (below.of_edge step.2.2.symm step.1), away below⟩

end Graph

namespace Loop

/-- All blocks of a loop are blocks of another one, which has more. -/
def Within (inner outer : Loop) : Prop := (∀ b ∈ inner.blocks, b ∈ outer.blocks) ∧ ∃ b ∈ outer.blocks, b ∉ inner.blocks

theorem Within.trans (first : l.Within l') (second : l'.Within m) : l.Within m := by
  obtain ⟨b, inside, outside⟩ := second.2
  constructor
  · intro c member
    exact second.1 c (first.1 c member)
  · exact ⟨b, inside, fun member => outside (first.1 b member)⟩

theorem Within.size_lt (within : l.Within m) : l.blocks.size < m.blocks.size := by
  obtain ⟨sub, b, inside, outside⟩ := within
  have nodup : l.blocks.toList.Nodup :=
    Std.ExtTreeSet.distinct_toList.imp fun different same => different (by simp [same])
  have more : (b :: l.blocks.toList).Nodup :=
    nodup_cons.2 ⟨fun listed => outside (mem_toList.1 listed), nodup⟩
  have listed : b :: l.blocks.toList ⊆ m.blocks.toList := by
    intro c member
    rw [Std.ExtTreeSet.mem_toList]
    rcases mem_cons.1 member with rfl | member
    · exact inside
    · exact sub c (mem_toList.1 member)
  have length := (subperm_of_subset more listed).length_le
  rwa [List.length_cons, Std.ExtTreeSet.length_toList, Std.ExtTreeSet.length_toList] at length

theorem Within.ne (within : l.Within m) : l ≠ m := by
  rintro rfl
  exact Nat.lt_irrefl _ within.size_lt

namespace Natural

variable (natural : l.Natural g)
include natural

/-- Of two loops that share a block, the one whose header does not dominate the other header is the inner one. -/
theorem within (natural' : l'.Natural g) (linked : g.Linked) (other : ¬g.Dominates l'.header l.header)
    (shared : x ∈ l.blocks) (shared' : x ∈ l'.blocks) : l'.Within l := by
  have reached := (linked.mem_layout x).1 (natural.mem_layout shared)
  -- The inner header leads to the shared block, and from there to a latch of the outer loop.
  have first : x ≠ l.header := by
    rintro rfl
    exact other (natural'.dominated shared')
  obtain ⟨-, p, latch, out⟩ := ((natural.blocks x).1 shared).resolve_left first
  have header : g.Bypasses l.header l'.header p := ((natural'.dominated shared').bypasses other reached).trans out
  have apart {c : BlockId} (below : g.Dominates l'.header c) : c ≠ l.header := by
    rintro rfl
    exact other below
  constructor
  · intro y member
    apply (natural.blocks y).2
    refine .inr ⟨natural'.mem_layout member, p, latch, ?_⟩
    rcases (natural'.blocks y).1 member with rfl | ⟨-, q, latch', way⟩
    · exact header
    · obtain ⟨-, edge, dominates⟩ := (natural'.latches q).1 latch'
      have back : g.Bypasses l.header q p := header.head ⟨edge, apart dominates, apart (.refl _)⟩
      exact (way.around dominates other).trans back
  · exact ⟨l.header, natural.header_mem, fun inside => other (natural'.dominated inside)⟩

theorem not_dominates (linked : g.Linked) (other : l.header ≠ l'.header) (above : g.Dominates l'.header l.header) :
    ¬g.Dominates l.header l'.header := by
  intro below
  obtain ⟨path, path_l⟩ := Graph.Reaches.exists_path ((linked.mem_layout _).1 natural.laid)
  exact other (above.antisymm below path_l).symm

/-- Loops with different headers are disjoint or nested. -/
theorem laminar (natural' : l'.Natural g) (linked : g.Linked) (other : l.header ≠ l'.header) :
    (∀ b ∈ l.blocks, b ∉ l'.blocks) ∨ l.Within l' ∨ l'.Within l := by
  by_cases shared : ∃ x ∈ l.blocks, x ∈ l'.blocks
  · obtain ⟨x, member, member'⟩ := shared
    by_cases above : g.Dominates l'.header l.header
    · exact .inr (.inl (natural'.within natural linked (natural.not_dominates linked other above) member' member))
    · exact .inr (.inr (natural.within natural' linked above member member'))
  · exact .inl fun b member member' => shared ⟨b, member, member'⟩

/-- A loop with another header lies within the loops that its header is in. -/
theorem within_of_mem (natural' : l'.Natural g) (linked : g.Linked) (other : l.header ≠ l'.header)
    (member : l.header ∈ l'.blocks) : l.Within l' :=
  natural'.within natural linked (natural.not_dominates linked other (natural'.dominated member)) member
    natural.header_mem

end Natural

end Loop

namespace Loops

variable {loops : Array Loop} {i : Nat}

/-! ## All loops -/

/-- Natural loops, at most one for a header. -/
structure Family (g : Graph) (loops : Array Loop) : Prop where
  natural : ∀ l ∈ loops, l.Natural g
  distinct : (loops.toList.map (·.header)).Nodup

/-- The number of loops that a block is in. -/
def nesting (loops : Array Loop) (b : BlockId) : Nat := loops.toList.countP (·.contains b)

/-- The closer one of the candidates for a parent of loop `i`. -/
def closer (loops : Array Loop) (i : Nat) (inner : Loop) (best : Option Nat) (j : Nat) : Option Nat :=
  match loops[j]? with
  | none => best
  | some outer =>
    if j ≠ i ∧ outer.contains inner.header ∧ inner.blocks.size < outer.blocks.size then
      match best.bind (loops[·]?) with
      | some b => if outer.blocks.size < b.blocks.size then some j else best
      | none => some j
    else best

/-- The candidate is a smallest one of the loops around `l` that were looked at. -/
def Closest (loops : Array Loop) (l : Loop) (done : List Nat) (best : Option Nat) : Prop :=
  (∀ j ∈ best, ∃ m, loops[j]? = some m ∧ l.Within m) ∧ ∀ k ∈ done, ∀ m, loops[k]? = some m → l.Within m →
      ∃ j ∈ best, ∃ m', loops[j]? = some m' ∧ m'.blocks.size ≤ m.blocks.size

theorem parent?_eq (here : loops[i]? = some l) :
    parent? loops i = (List.range loops.size).foldl (closer loops i l) none := by
  unfold parent?
  rw [here]
  rfl

namespace Family

variable (linked : g.Linked) (family : Family g loops) {j k : Nat}

include family

theorem eq_of_header (here : l ∈ loops) (there : m ∈ loops) (same : l.header = m.header) : l = m :=
  inj_on_of_nodup_map family.distinct (mem_toList_iff.2 here) (mem_toList_iff.2 there) same

theorem nodup : loops.toList.Nodup := .of_map _ family.distinct

theorem eq_of_getElem? (here : loops[i]? = some l) (there : loops[j]? = some l) : i = j := by
  refine (List.getElem?_inj (Array.getElem?_eq_some_iff.1 here).1 family.nodup).1 ?_
  simp [here, there]

include linked

theorem laminar (here : l ∈ loops) (there : m ∈ loops) (other : l ≠ m) :
    (∀ b ∈ l.blocks, b ∉ m.blocks) ∨ l.Within m ∨ m.Within l :=
  (family.natural l here).laminar (family.natural m there) linked
    fun same => other (family.eq_of_header here there same)

/-- The header of a loop is in the loop and in those around it. -/
theorem header_mem_iff (here : l ∈ loops) (there : m ∈ loops) : l.header ∈ m.blocks ↔ m = l ∨ l.Within m := by
  constructor
  · intro member
    by_cases same : l.header = m.header
    · exact .inl (family.eq_of_header there here same.symm)
    · exact .inr ((family.natural l here).within_of_mem (family.natural m there) linked same member)
  · rintro (rfl | within)
    · exact (family.natural m here).header_mem
    · exact within.1 _ (family.natural l here).header_mem

/-! ## Parents -/

section

variable (here : loops[i]? = some l)
include here

/-- The candidates for a parent are the loops around. -/
theorem candidate_iff (there : loops[j]? = some m) :
    j ≠ i ∧ m.contains l.header ∧ l.blocks.size < m.blocks.size ↔ l.Within m := by
  rw [Loop.contains, decide_eq_true_eq, family.header_mem_iff linked (mem_of_getElem? here) (mem_of_getElem? there)]
  constructor
  · rintro ⟨other, rfl | within, -⟩
    · exact absurd (family.eq_of_getElem? there here) other
    · exact within
  · intro within
    refine ⟨?_, .inr within, within.size_lt⟩
    rintro rfl
    exact within.ne (Option.some.inj (here.symm.trans there))

/-- One step of the search, at a loop around or at another one. -/
theorem closer_closest {done : List Nat} {best : Option Nat} (closest : Closest loops l done best) (j : Nat) :
    Closest loops l (done ++ [j]) (closer loops i l best j) := by
  obtain ⟨around, least⟩ := closest
  have keep (small : ∀ m, loops[j]? = some m → l.Within m →
      ∃ k ∈ best, ∃ m', loops[k]? = some m' ∧ m'.blocks.size ≤ m.blocks.size) : Closest loops l (done ++ [j]) best := by
    refine ⟨around, forall_mem_append.2 ⟨least, ?_⟩⟩
    simpa using small
  have take {m : Loop} (there : loops[j]? = some m) (within : l.Within m)
      (small : ∀ k ∈ best, ∀ m', loops[k]? = some m' → m.blocks.size ≤ m'.blocks.size) :
      Closest loops l (done ++ [j]) (some j) := by
    refine ⟨by simp [there, within], forall_mem_append.2 ⟨fun k listed m' at_k within' => ?_, by simp [there]⟩⟩
    obtain ⟨k', found, m'', at_k', le⟩ := least k listed m' at_k within'
    exact ⟨j, rfl, m, there, (small k' found m'' at_k').trans le⟩
  unfold closer
  cases there : loops[j]? with
  | none => exact keep (by simp [there])
  | some m =>
    dsimp only
    split
    next candidate =>
      have within := (family.candidate_iff linked here there).1 candidate
      cases old : best.bind (loops[·]?) with
      | none => exact take there within fun k found m' at_k => by simp_all
      | some m₀ =>
        obtain ⟨k₀, found₀, at_k₀⟩ := bind_eq_some_iff.1 old
        dsimp only
        split
        next smaller =>
          refine take there within fun k found m' at_k => ?_
          cases found₀.symm.trans found
          cases at_k₀.symm.trans at_k
          exact Nat.le_of_lt smaller
        next larger =>
          refine keep fun m' at_j _ => ⟨k₀, found₀, m₀, at_k₀, ?_⟩
          cases there.symm.trans at_j
          exact Nat.le_of_not_lt larger
    next other =>
      refine keep fun m' at_j within => absurd ?_ other
      cases there.symm.trans at_j
      exact (family.candidate_iff linked here there).2 within

theorem parent?_closest : Closest loops l (List.range loops.size) (parent? loops i) := by
  rw [parent?_eq here]
  generalize loops.size = n
  induction n with
  | zero => exact ⟨nofun, nofun⟩
  | succ n ih =>
    rw [List.range_succ, List.foldl_append]
    exact family.closer_closest linked here ih n

/-- The parent of a loop is the smallest loop around it. -/
theorem parent?_spec : parent? loops i = none ∧ (∀ m ∈ loops, ¬l.Within m) ∨
      ∃ j l', parent? loops i = some j ∧ loops[j]? = some l' ∧ l.Within l' ∧
        ∀ m ∈ loops, l.Within m → m = l' ∨ l'.Within m := by
  obtain ⟨around, least⟩ := family.parent?_closest linked here
  have reached {m : Loop} (there : m ∈ loops) (within : l.Within m) :
      ∃ j ∈ parent? loops i, ∃ m', loops[j]? = some m' ∧ m'.blocks.size ≤ m.blocks.size := by
    obtain ⟨k, at_k⟩ := mem_iff_getElem?.1 there
    exact least k (List.mem_range.2 (Array.getElem?_eq_some_iff.1 at_k).1) m at_k within
  cases found : parent? loops i with
  | none =>
    refine .inl ⟨rfl, fun m there within => ?_⟩
    obtain ⟨j, found', -⟩ := reached there within
    cases found.symm.trans found'
  | some j =>
    obtain ⟨l', at_j, within⟩ := around j found
    refine .inr ⟨j, l', rfl, at_j, within, fun m there within' => ?_⟩
    by_cases same : m = l'
    · exact .inl same
    · -- Both hold the header, so one is within the other, and `l'` is not the larger one.
      have inside := (family.natural l (mem_of_getElem? here)).header_mem
      rcases family.laminar linked there (mem_of_getElem? at_j) same with disjoint | smaller | larger
      · exact absurd (within.1 _ inside) (disjoint _ (within'.1 _ inside))
      · obtain ⟨j', found', m', at_j', le⟩ := reached there within'
        cases found.symm.trans found'
        cases at_j.symm.trans at_j'
        exact absurd smaller.size_lt (Nat.not_lt.2 le)
      · exact .inr larger

theorem parent?_eq_none : parent? loops i = none ↔ ∀ m ∈ loops, ¬l.Within m := by
  rcases family.parent?_spec linked here with ⟨found, top⟩ | ⟨j, l', found, at_j, within, -⟩
  · exact ⟨fun _ => top, fun _ => found⟩
  · rw [found]
    exact ⟨nofun, fun top => absurd within (top l' (mem_of_getElem? at_j))⟩

theorem parent?_eq_some : parent? loops i = some j ↔
    ∃ l', loops[j]? = some l' ∧ l.Within l' ∧ ∀ m ∈ loops, l.Within m → m = l' ∨ l'.Within m := by
  rcases family.parent?_spec linked here with ⟨found, top⟩ | ⟨k, m, found, at_k, within, closest⟩
  · rw [found]
    refine ⟨nofun, ?_⟩
    rintro ⟨l', at_j, within, -⟩
    exact absurd within (top l' (mem_of_getElem? at_j))
  · rw [found]
    constructor
    · rintro ⟨⟩
      exact ⟨m, at_k, within, closest⟩
    · rintro ⟨l', at_j, within', closest'⟩
      -- Each of the two smallest loops is the other one or lies within it.
      have same : m = l' := by
        rcases closest' m (mem_of_getElem? at_k) within with same | outer
        · exact same
        · rcases closest l' (mem_of_getElem? at_j) within' with same | outer'
          · exact same.symm
          · exact absurd rfl (outer.trans outer').ne
      rw [family.eq_of_getElem? at_k (same ▸ at_j)]

end

/-! ## Depths -/

/-- A header is in its loop and in the loops around. -/
theorem nesting_header (here : l ∈ loops) {others : List Loop} (nodup : others.Nodup)
    (around : ∀ m, m ∈ others ↔ m ∈ loops ∧ l.Within m) : nesting loops l.header = others.length + 1 := by
  have same : (loops.toList.filter (·.contains l.header)).Perm (l :: others) := by
    rw [perm_ext_iff_of_nodup (family.nodup.filter _)
      (List.nodup_cons.2 ⟨fun listed => ((around l).1 listed).2.ne rfl, nodup⟩)]
    intro m
    simp only [List.mem_filter, List.mem_cons, Array.mem_toList_iff, Loop.contains, decide_eq_true_eq, around]
    constructor
    · rintro ⟨there, member⟩
      exact ((family.header_mem_iff linked here there).1 member).imp_right fun within => ⟨there, within⟩
    · rintro (rfl | ⟨there, within⟩)
      · exact ⟨here, (family.natural m here).header_mem⟩
      · exact ⟨there, (family.header_mem_iff linked here there).2 (.inr within)⟩
  rw [nesting, List.countP_eq_length_filter, same.length_eq, List.length_cons]

theorem nesting_eq_one (here : l ∈ loops) (top : ∀ m ∈ loops, ¬l.Within m) : nesting loops l.header = 1 :=
  family.nesting_header linked here nodup_nil (by simpa using top)

/-- The loops around a loop are its parent and the loops around that. -/
theorem nesting_eq_succ (here : l ∈ loops) (there : l' ∈ loops) (within : l.Within l')
    (closest : ∀ m ∈ loops, l.Within m → m = l' ∨ l'.Within m) :
    nesting loops l.header = nesting loops l'.header + 1 := by
  have around (m : Loop) : m ∈ loops.toList.filter (·.contains l'.header) ↔ m ∈ loops ∧ l.Within m := by
    rw [List.mem_filter, Array.mem_toList_iff, Loop.contains, decide_eq_true_eq]
    refine and_congr_right fun listed => ?_
    rw [family.header_mem_iff linked there listed]
    refine ⟨?_, closest m listed⟩
    rintro (rfl | outer)
    · exact within
    · exact within.trans outer
  rw [family.nesting_header linked here (family.nodup.filter _) around, nesting, countP_eq_length_filter]

/-- The steps up the parents of a loop count the loops that its header is in. -/
theorem depthFrom_eq {steps : Nat} (here : loops[i]? = some l) (enough : nesting loops l.header ≤ steps) :
    depthFrom ((Array.range loops.size).map (parent? loops)) steps (some i) = nesting loops l.header := by
  have member := Array.mem_of_getElem? here
  have bound := (Array.getElem?_eq_some_iff.1 here).1
  have parent : ((Array.range loops.size).map (parent? loops)).getD i none = parent? loops i := by
    simp [Array.getD_eq_getD_getElem?, bound]
  induction steps generalizing i l with
  | zero =>
    rcases family.parent?_spec linked here with ⟨-, top⟩ | ⟨j, l', -, at_j, within, closest⟩
    · have := family.nesting_eq_one linked member top
      omega
    · have := family.nesting_eq_succ linked member (mem_of_getElem? at_j) within closest
      omega
  | succ steps ih =>
    rw [depthFrom, parent]
    rcases family.parent?_spec linked here with ⟨found, top⟩ | ⟨j, l', found, at_j, within, closest⟩
    · rw [found, family.nesting_eq_one linked member top]
      cases steps <;> rfl
    · have at_j' := (Array.getElem?_eq_some_iff.1 at_j).1
      have more := family.nesting_eq_succ linked member (mem_of_getElem? at_j) within closest
      have above := ih at_j (by omega) (mem_of_getElem? at_j) at_j' (by simp [getD_eq_getD_getElem?, at_j'])
      rw [found, above, more]

/-- A block is in all the loops that the header of one of its loops is in. -/
theorem nesting_le (here : l ∈ loops) (member : b ∈ l.blocks) : nesting loops l.header ≤ nesting loops b := by
  apply List.countP_mono_left
  intro m there inside
  simp only [Loop.contains, decide_eq_true_eq] at inside ⊢
  rcases (family.header_mem_iff linked here (mem_toList_iff.1 there)).1 inside with rfl | around
  · exact member
  · exact around.1 b member

/-- The header of the smallest loop of a block is in the same loops as the block. -/
theorem exists_innermost (here : l ∈ loops) (member : b ∈ l.blocks) :
    ∃ m ∈ loops, b ∈ m.blocks ∧ nesting loops m.header = nesting loops b := by
  obtain ⟨m, ⟨there, inside⟩, least⟩ := (measure fun m : Loop => m.blocks.size).wf.has_min
    {m | m ∈ loops ∧ b ∈ m.blocks} ⟨l, here, member⟩
  refine ⟨m, there, inside, Nat.le_antisymm (family.nesting_le linked there inside) ?_⟩
  apply List.countP_mono_left
  intro k listed holds
  rw [mem_toList_iff] at listed
  simp only [Loop.contains, decide_eq_true_eq] at holds ⊢
  by_cases same : k = m
  · exact (family.header_mem_iff linked there listed).2 (.inl same)
  · rcases family.laminar linked listed there same with disjoint | smaller | larger
    · exact absurd inside (disjoint b holds)
    · exact absurd smaller.size_lt (least k ⟨listed, holds⟩)
    · exact larger.1 _ (family.natural m there).header_mem

end Family

/-- The maximum of some depths that one of them reaches. -/
theorem foldl_max_depth {loops : List Loop} {start n : Nat} (first : start ≤ n) (bound : ∀ l ∈ loops, l.depth ≤ n)
    (reached : start = n ∨ ∃ l ∈ loops, l.depth = n) : loops.foldl (fun n l => max n l.depth) start = n := by
  induction loops generalizing start with
  | nil => simpa using reached
  | cons l rest ih =>
    have here := bound l mem_cons_self
    apply ih (Nat.max_le.2 ⟨first, here⟩) fun m listed => bound m (mem_cons_of_mem l listed)
    rcases reached with same | ⟨m, listed, same⟩
    · exact .inl (by omega)
    · rcases mem_cons.1 listed with rfl | listed
      · exact .inl (by omega)
      · exact .inr ⟨m, listed, same⟩

theorem Family.depthOf_eq {s : Loops} (linked : g.Linked) (family : Family g s.loops)
    (depths : ∀ l ∈ s.loops, l.depth = nesting s.loops l.header) (b : BlockId) : s.depthOf b = nesting s.loops b := by
  have listed {l : Loop} : l ∈ s.toList.filter (·.contains b) ↔ l ∈ s.loops ∧ b ∈ l.blocks := by
    rw [List.mem_filter, toList, Array.mem_toList_iff, Loop.contains, decide_eq_true_eq]
  apply foldl_max_depth (Nat.zero_le _)
  · intro l inside
    obtain ⟨here, member⟩ := listed.1 inside
    rw [depths l here]
    exact family.nesting_le linked here member
  · by_cases around : ∃ l ∈ s.loops, b ∈ l.blocks
    · obtain ⟨l, here, member⟩ := around
      obtain ⟨m, there, inside, same⟩ := family.exists_innermost linked here member
      exact .inr ⟨m, listed.2 ⟨there, inside⟩, (depths m there).trans same⟩
    · apply Or.inl
      symm
      rw [nesting, List.countP_eq_zero]
      intro l here contains
      exact around ⟨l, mem_toList_iff.1 here, by simpa [Loop.contains] using contains⟩

/-! ## The loops that are detected -/

/-- A loop that knows its place among others. -/
def placed (loops : Array Loop) (i : Nat) (l : Loop) : Loop := { l with
    parent := ((Array.range loops.size).map (parent? loops)).getD i none
    depth := depthFrom ((Array.range loops.size).map (parent? loops)) loops.size (some i) }

theorem detect_loops (g : Graph) (d : Dominators) :
    (detect g d).loops = (gather g d).mapIdx (placed (gather g d)) := rfl

/-- The search for a parent looks at headers and blocks only. -/
theorem parent?_mapIdx_placed (loops base : Array Loop) (i : Nat) :
    parent? (loops.mapIdx (placed base)) i = parent? loops i := by
  unfold parent?
  rw [Array.getElem?_mapIdx, Array.size_mapIdx]
  cases loops[i]? with
  | none => rfl
  | some inner =>
    dsimp only [map_some]
    congr 1
    funext best j
    rw [Array.getElem?_mapIdx]
    cases loops[j]? with
    | none => rfl
    | some outer =>
      cases best with
      | none => rfl
      | some k =>
        simp only [Option.map_some, Option.bind_some, Array.getElem?_mapIdx]
        cases loops[k]? <;> rfl

theorem detect_getElem? (here : (detect g d).loops[i]? = some l) :
    (∃ l₀, (gather g d)[i]? = some l₀ ∧ l.header = l₀.header ∧ l.blocks = l₀.blocks ∧ l.latches = l₀.latches) ∧
      l.parent = parent? (detect g d).loops i ∧
      l.depth = depthFrom ((Array.range (detect g d).loops.size).map (parent? (detect g d).loops))
        (detect g d).loops.size (some i) := by
  rw [detect_loops, Array.getElem?_mapIdx] at here
  obtain ⟨l₀, there, rfl⟩ := Option.map_eq_some_iff.1 here
  have bound := (Array.getElem?_eq_some_iff.1 there).1
  have same : parent? (detect g d).loops = parent? (gather g d) := by
    funext i
    rw [detect_loops, parent?_mapIdx_placed]
  have size : (detect g d).loops.size = (gather g d).size := by
    rw [detect_loops, size_mapIdx]
  rw [same, size]
  refine ⟨⟨l₀, there, rfl, rfl, rfl⟩, ?_, rfl⟩
  simp [placed, getD_eq_getD_getElem?, bound]

theorem detect_family (linked : g.Linked) (computed : g.dominators = .ok d) : Family g (detect g d).loops := by
  obtain ⟨natural, distinct, -⟩ := gather_natural linked computed
  constructor
  · intro l member
    obtain ⟨i, here⟩ := mem_iff_getElem?.1 member
    obtain ⟨⟨l₀, there, header, blocks, latches⟩, -⟩ := detect_getElem? here
    have same := natural l₀ (mem_of_getElem? there)
    constructor
    · rw [header]
      exact same.laid
    · rw [header, latches]
      exact same.latches
    · rw [header, blocks, latches]
      exact same.blocks
  · convert distinct using 1
    refine List.ext_getElem? fun i => ?_
    simp only [detect_loops, List.getElem?_map, Array.getElem?_toList, Array.getElem?_mapIdx, Option.map_map]
    rfl

/-- The loops of a graph and how they are nested. -/
structure Forest (g : Graph) (s : Loops) : Prop where
  /-- The latches of a loop are the sources of the edges from dominated blocks back to its header; its blocks are
  the header and the blocks that lead to a latch without passing through the header. -/
  natural : ∀ l ∈ s.toList, l.Natural g
  covers : ∀ p ∈ g.layout, ∀ h ∈ g.targets p, g.Dominates h p → ∃ l ∈ s.toList, l.header = h
  dominated : ∀ l ∈ s.toList, ∀ b ∈ l.blocks, g.Dominates l.header b
  distinct : s.toList.Pairwise fun l m => l.header ≠ m.header
  laminar : s.toList.Pairwise fun l m => (∀ b ∈ l.blocks, b ∉ m.blocks) ∨ l.Within m ∨ m.Within l
  parent_none : ∀ l ∈ s.toList, l.parent = none ↔ ∀ m ∈ s.toList, ¬l.Within m
  parent_some : ∀ l ∈ s.toList, ∀ j, l.parent = some j ↔
    ∃ l', s.toList[j]? = some l' ∧ l.Within l' ∧ ∀ m ∈ s.toList, l.Within m → m = l' ∨ l'.Within m
  depth : ∀ l ∈ s.toList, l.depth = s.toList.countP (·.contains l.header)
  depthOf : ∀ b, s.depthOf b = s.toList.countP (·.contains b)

end Loops

/-- Detection finds the natural loops of a graph, and the nesting of these. -/
theorem Graph.detect_forest (normal : g.Normal) (computed : g.dominators = .ok d) : (detect g d).Forest g := by
  have linked := normal.toLinked
  have family := detect_family linked computed
  have depths : ∀ l ∈ (detect g d).loops, l.depth = nesting (detect g d).loops l.header := by
    intro l member
    obtain ⟨i, here⟩ := mem_iff_getElem?.1 member
    obtain ⟨-, -, depth⟩ := detect_getElem? here
    rw [depth, family.depthFrom_eq linked here (countP_le_length.trans_eq (length_toList))]
  have different : (detect g d).toList.Pairwise fun l m => l ≠ m := family.nodup
  refine {
    natural := fun l member => family.natural l (mem_toList_iff.1 member)
    covers := ?_
    dominated := fun l member b => (family.natural l (mem_toList_iff.1 member)).dominated
    distinct := ?_
    laminar := ?_
    parent_none := ?_
    parent_some := ?_
    depth := fun l member => depths l (mem_toList_iff.1 member)
    depthOf := family.depthOf_eq linked depths }
  · intro p laid h edge dominates
    obtain ⟨-, -, covers⟩ := gather_natural linked computed
    obtain ⟨l, member, header⟩ := covers p laid h edge dominates
    obtain ⟨i, here⟩ := mem_iff_getElem?.1 member
    refine ⟨placed (gather g d) i l, mem_toList_iff.2 (mem_of_getElem? (i := i) ?_), header⟩
    rw [detect_loops, Array.getElem?_mapIdx, here, Option.map_some]
  · exact different.imp_of_mem fun here there other same => other
      (family.eq_of_header (mem_toList_iff.1 here) (mem_toList_iff.1 there) same)
  · exact different.imp_of_mem fun here there other =>
      family.laminar linked (mem_toList_iff.1 here) (mem_toList_iff.1 there) other
  · intro l member
    obtain ⟨i, here⟩ := mem_iff_getElem?.1 (mem_toList_iff.1 member)
    obtain ⟨-, parent, -⟩ := detect_getElem? here
    rw [parent, family.parent?_eq_none linked here]
    simp only [Loops.toList, mem_toList_iff]
  · intro l member j
    obtain ⟨i, here⟩ := mem_iff_getElem?.1 (mem_toList_iff.1 member)
    obtain ⟨-, parent, -⟩ := detect_getElem? here
    rw [parent, family.parent?_eq_some linked here]
    simp only [Loops.toList, mem_toList_iff, getElem?_toList]

/-- A block that leads to itself, in a loop with two ways back. -/
def winding : Function where
  name := "winding"
  vars := #[.declare "n" .int .param]
  params := [0]
  quads := [
    .effect (.label "outer"),
    .effect (.jumpIf .lt (.var 0) (.const (.int 9)) "done"),
    .effect (.label "inner"),
    .effect (.print (.var 0)),
    .effect (.jumpIf .lt (.var 0) (.const (.int 3)) "inner"),
    .effect (.jumpIf .lt (.var 0) (.const (.int 4)) "outer"),
    .effect (.goto "outer"),
    .effect (.label "done"),
    .effect (.ret none)]

theorem winding_forest : winding.graph.Normal ∧ ∃ d, winding.graph.dominators = .ok d ∧
    (detect winding.graph d).toList.map (fun l => (l.header, l.latches, l.parent, l.depth)) =
      [(1, [1], some 1, 2), (0, [2, 3], none, 1)] ∧
    winding.graph.layout.map (detect winding.graph d).depthOf = [1, 2, 1, 1, 0] ∧
    (detect winding.graph d).Forest winding.graph := by
  have normal := winding.graph_normal rfl (by decide)
  have loops : (winding.graph.dominators.toOption.map fun d =>
      (detect winding.graph d).toList.map (fun l => (l.header, l.latches, l.parent, l.depth))) =
        some [(1, [1], some 1, 2), (0, [2, 3], none, 1)] := by decide +kernel
  have depths : (winding.graph.dominators.toOption.map fun d =>
      winding.graph.layout.map (detect winding.graph d).depthOf) = some [1, 2, 1, 1, 0] := by decide +kernel
  obtain ⟨d, found, loops⟩ := toOption_map_eq_some.1 loops
  rw [found] at depths
  exact ⟨normal, d, found, loops, Option.some.inj depths, Graph.detect_forest normal found⟩

end Quadcode
