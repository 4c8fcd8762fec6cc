import Quadcode.Proofs.Allocation.Assignment
import Quadcode.Proofs.Graph.Built

/-!
# Live variables have registers of their own

Variables that are live together at some point interfere, all of them with each other. Placing keeps
interfering variables in different registers, so at no point of a function do two live variables
share one.
-/

namespace Quadcode

open List Liveness Problem Interference

variable {g : Graph} {s : Solution VarSet} {b : BlockId}

namespace Interference

variable {i j : Interference} {u v : VarId} {vs : List VarId} {candidates live : VarSet}

/-- The candidates among the live variables all interfere. -/
def Crowds (i : Interference) (candidates live : VarSet) : Prop :=
  ∀ u v, u ∈ live → u ∈ candidates → v ∈ live → v ∈ candidates → u ≠ v → i.Joins u v

theorem Grows.crowds (grown : i.Grows j) (crowded : i.Crowds candidates live) : j.Crowds candidates live :=
  fun u v first fit second fit' different =>
    grown u v (crowded u v first fit second fit' different)

theorem joins_clique (first : u ∈ vs) (second : v ∈ vs) (different : u ≠ v) : (i.clique vs).Joins u v := by
  induction vs generalizing i with
  | nil => cases first
  | cons a rest ih =>
    rw [clique]
    rcases mem_cons.1 first with rfl | after
    · have later : v ∈ rest := (mem_cons.1 second).resolve_left (Ne.symm different)
      exact clique_grows _ _ _ _ (joins_linkAll later different)
    · rcases mem_cons.1 second with rfl | after'
      · have joined : (i.linkAll v rest).Joins v u := joins_linkAll after (Ne.symm different)
        exact clique_grows _ _ _ _ joined.symm
      · exact ih after after'

theorem clique_crowds (i : Interference) (candidates live : VarSet) :
    (i.clique (live.toList.filter (· ∈ candidates))).Crowds candidates live := by
  intro u v first fit second fit' different
  exact joins_clique (by simp [first, fit]) (by simp [second, fit']) different

theorem quad_crowds (i : Interference) (candidates live : VarSet) (q : Quad) :
    (i.quad candidates q live).Crowds candidates live := by
  unfold quad
  simp only
  split
  · split
    · exact linkAll_grows.crowds (clique_crowds i candidates live)
    · exact clique_crowds i candidates live
  · exact clique_crowds i candidates live

/-- A block lets the variables live at its start and at each of its points interfere. -/
theorem block_crowds (given : block candidates g (problem g) s i b = .ok j) :
    ∃ start points, s.blockIn b = .ok start ∧ g.livePoints s b = .ok points ∧
      ∀ live ∈ start :: points, j.Crowds candidates live := by
  unfold block at given
  simp only [bind_eq_ok, pure_eq_ok] at given
  obtain ⟨start, entered, points, pointed, rfl⟩ := given
  have length := points_length pointed
  refine ⟨start, points, entered, pointed, fun live member => ?_⟩
  rcases mem_cons.1 member with rfl | member
  · exact ((quads_grow _ _).trans (clique_grows _ _)).crowds (clique_crowds i candidates live)
  · obtain ⟨k, inside, rfl⟩ := getElem_of_mem member
    by_cases last : k = (g.body b).length
    · -- The last point is behind the tail and has no quadruple.
      have ending : points.getLastD ∅ = points[k] := by
        rw [getLastD_eq_getLast?, getLast?_eq_getElem?, length, Nat.add_sub_cancel,
          ← last, getElem?_eq_getElem inside, Option.getD_some]
      rw [ending]
      exact clique_crowds _ candidates _
    · have here : k < (g.body b).length := by omega
      have paired : ((g.body b)[k], points[k]) ∈ (g.body b).zip points := by
        refine mem_of_getElem? (i := k) ?_
        rw [getElem?_zip_eq_some]
        exact ⟨getElem?_eq_getElem here, getElem?_eq_getElem inside⟩
      obtain ⟨front, back, split⟩ := append_of_mem paired
      rw [split, foldl_append, foldl_cons]
      exact ((quads_grow back _).trans (clique_grows _ _)).crowds (quad_crowds _ candidates _ _)

theorem build_crowds (built : build g s candidates = .ok i) :
    ∀ b ∈ g.layout, ∃ start points, s.blockIn b = .ok start ∧ g.livePoints s b = .ok points ∧
      ∀ live ∈ start :: points, i.Crowds candidates live := by
  obtain ⟨first, run⟩ : ∃ first, g.layout.foldlM (block candidates g (problem g) s) first = .ok i := by
    unfold build at built
    simp only at built
    split at built
    · exact ⟨_, built⟩
    · obtain ⟨_, -, run⟩ := bind_eq_ok.1 built
      exact ⟨_, run⟩
  refine foldlM_ok (fun done (j : Interference) => ∀ b ∈ done, ∃ start points, s.blockIn b = .ok start ∧
      g.livePoints s b = .ok points ∧ ∀ live ∈ start :: points, j.Crowds candidates live)
    (by simp) ?_ run
  intro done b rest j j' _ before step c member
  rcases mem_append.1 member with earlier | last
  · obtain ⟨start, points, entered, pointed, crowded⟩ := before c earlier
    have grown := (block_joins step).1
    exact ⟨start, points, entered, pointed, fun live at_live => grown.crowds (crowded live at_live)⟩
  · rw [mem_singleton.1 last]
    exact block_crowds step

end Interference

namespace Liveness

variable {points : List VarSet}

/-- The last of the points of a block is its end. -/
theorem points_getLast? (backward : s.direction = .backward) (given : g.livePoints s b = .ok points) :
    ∃ stop, s.blockOut b = .ok stop ∧ points.getLast? = some stop := by
  have last : points.getLast? = some (s.near[b]?.getD ∅) := by
    rw [getLast?_eq_getElem?, points_length given, Nat.add_sub_cancel, points_getElem?_end given]
  unfold Graph.livePoints Problem.points at given
  simp only [problem, bind_eq_ok, orFault_eq_ok] at given
  obtain ⟨stop, found, -⟩ := given
  rw [found, Option.getD_some] at last
  exact ⟨stop, by simp only [Solution.blockOut, backward, found, orFault], last⟩

end Liveness

namespace Allocation

open X86

/-- Two variables are in one register. -/
def Share (a : Allocation) (u v : VarId) : Prop :=
  ∃ l, l.isRegister ∧ a.locations[u]? = some l ∧ a.locations[v]? = some l

/-- What a solution of liveness says of a block: at its start, at each of its points and at its end,
which is the last of them. -/
structure Surveyed (g : Graph) (s : Solution VarSet) (b : BlockId) (start : VarSet)
    (points : List VarSet) (stop : VarSet) : Prop where
  entered : s.blockIn b = .ok start
  pointed : g.livePoints s b = .ok points
  left : s.blockOut b = .ok stop
  each : points.length = (g.body b).length + 1
  last : points.getLast? = some stop

/-- An allocation under which no assignment to a register destroys a value that is still needed. -/
structure Safe (g : Graph) (s : Solution VarSet) (a : Allocation) : Prop where
  surveyed : ∀ b ∈ g.layout, ∃ start points stop, Surveyed g s b start points stop
  /-- Variables that are live together have registers of their own. -/
  live : ∀ b ∈ g.layout, ∀ start points stop, Surveyed g s b start points stop →
    ∀ set ∈ start :: points, ∀ u ∈ set, ∀ v ∈ set, u ∉ g.memoryResident → v ∉ g.memoryResident → u ≠ v → ¬a.Share u v
  /-- What is assigned, dead or not, has a register apart from all that is live afterwards. -/
  assigned : ∀ b ∈ g.layout, ∀ start points stop, Surveyed g s b start points stop →
    ∀ (k : Nat) q after d, (g.body b)[k]? = some q → points[k]? = some after → q.result = some d →
      ∀ v ∈ after, v ∉ g.memoryResident → d ≠ v → ¬a.Share d v
  /-- A parameter has a register apart from all that is live at the start. -/
  entered : ∀ start points stop, Surveyed g s g.entry start points stop → ∀ p ∈ g.params,
    ∀ v ∈ start, v ∉ g.memoryResident → p ≠ v → ¬a.Share p v
  float : ∀ (v : VarId) x l, g.vars[v]? = some x → a.locations[v]? = some l → l.isRegister →
    x.ty.isFloat = true → ∃ r ∈ allocatableFloats, l = .xmm r
  general : ∀ (v : VarId) x l, g.vars[v]? = some x → a.locations[v]? = some l → l.isRegister →
    x.ty.isFloat = false → ∃ r ∈ allocatable, l = .reg r
  memory : ∀ v ∈ g.memoryResident, ∀ l, a.locations[v]? = some l → l.isRegister = false

variable {near : BlockMap VarSet} {a : Allocation} {p : Progress} {depth : VarId → Nat} {u v : VarId} {l : Location}

theorem Result.candidate (result : Result g near a p depth) (placed : a.locations[v]? = some l)
    (isRegister : l.isRegister) : v ∈ candidates g := by
  obtain ⟨outside, x, declared, -⟩ := result.sound.register v l (result.placed v l placed) isRegister
  exact mem_candidates.2 ⟨(Array.getElem?_eq_some_iff.1 declared).1, outside⟩

/-- Interfering variables share no register. -/
theorem Result.not_share (result : Result g near a p depth)
    (joined : u ∈ candidates g → v ∈ candidates g → a.interference.Joins u v) (different : u ≠ v) : ¬a.Share u v := by
  rintro ⟨l, isRegister, first, second⟩
  have joins := joined (result.candidate first isRegister) (result.candidate second isRegister)
  have apart := result.sound.apart u v l joins different (result.placed u l first) (result.placed v l second)
  rw [isRegister] at apart
  cases apart

end Allocation

open Allocation X86 in
/-- No allocation puts two variables that are needed at the same time into one register. -/
theorem allocate_safe {g : Graph} {live : Solution VarSet} {loops : Loops} {a : Allocation} (linked : g.Linked)
    (solved : g.liveness = .ok live) (allocated : allocate g live loops = .ok a) : Safe g live a := by
  obtain ⟨p, depth, result⟩ := allocate_result linked solved allocated
  have crowded := build_crowds (interference_of_allocate allocated)
  have backward : live.direction = .backward := iterate_direction solved
  have register := fun v l placed isRegister =>
    result.sound.register v l (result.placed v l placed) isRegister
  refine ⟨?_, ?_, ?_, ?_, ?_, ?_, ?_⟩
  · intro b member
    obtain ⟨start, points, entered, pointed, -⟩ := crowded b member
    obtain ⟨stop, left, last⟩ := points_getLast? backward pointed
    exact ⟨start, points, stop, entered, pointed, left, points_length pointed, last⟩
  · intro b member start points stop surveyed set there u first v second _ _ different
    obtain ⟨start', points', entered, pointed, all⟩ := crowded b member
    obtain rfl : start' = start := Except.ok.inj (entered.symm.trans surveyed.entered)
    obtain rfl : points' = points := Except.ok.inj (pointed.symm.trans surveyed.pointed)
    exact result.not_share (fun fit fit' => all set there u v first fit second fit' different) different
  · intro b member start points stop surveyed k q after d here at_k assigned v needed _ different
    have value := points_getElem? surveyed.pointed here
    obtain rfl : after = liveAt g live.near b (k + 1) :=
      Option.some.inj (at_k.symm.trans value)
    exact result.not_share (fun fit fit' =>
      result.complete.assigned b member k q d v here assigned fit needed fit' different) different
  · intro start points stop surveyed q member v needed _ different
    have value := blockIn_eq linked solved linked.entry_mem
    obtain rfl : start = liveAt g live.near g.entry 0 :=
      Except.ok.inj (surveyed.entered.symm.trans value)
    exact result.not_share (fun fit fit' =>
      result.complete.entered q member fit v needed fit' different) different
  · intro v x l declared placed isRegister isFloat
    obtain ⟨-, y, declared', listed⟩ := register v l placed isRegister
    obtain rfl : x = y := Option.some.inj (declared.symm.trans declared')
    rw [registersFor, if_pos isFloat] at listed
    obtain ⟨r, member, rfl⟩ := mem_map.1 listed
    exact ⟨r, member, rfl⟩
  · intro v x l declared placed isRegister notFloat
    obtain ⟨-, y, declared', listed⟩ := register v l placed isRegister
    obtain rfl : x = y := Option.some.inj (declared.symm.trans declared')
    rw [registersFor, if_neg (by simp [notFloat])] at listed
    obtain ⟨r, member, rfl⟩ := mem_map.1 listed
    exact ⟨r, member, rfl⟩
  · intro v resident l placed
    by_contra isRegister
    rw [Bool.not_eq_false] at isRegister
    exact (register v l placed isRegister).1 resident

/-- Passes its eleven parameters on, which are more values than there are registers. Variables 0 to 10
are the parameters, 11 gets the result and is assigned without need before, 12 is a float, 13 a
pointer and 14 the variable it points to. -/
def crowding : Function where
  name := "crowding"
  vars := ⟨(List.range 11).map (fun k => .declare ("v" ++ toString k) .int .param) ++
    [.declare "r" .int .local, .declare "x" .float .local, .declare "p" (.pointer .int) .local,
      .declare "y" .int .local]⟩
  params := List.range 11
  quads := [
    ⟨some 12, .unOp .intToFloat (.var 1)⟩,
    ⟨some 13, .address 14⟩,
    ⟨some 11, .assign (.const (.int 0))⟩,
    ⟨some 11, .call "crowding" ((List.range 11).map .var)⟩,
    .effect (.derefStore 13 (.var 11)),
    .effect (.print (.var 12)),
    .effect (.ret (some (.var 14)))]

theorem crowding_safe : ∃ live d a, crowding.graph.liveness = .ok live ∧ crowding.graph.dominators = .ok d ∧
    allocate crowding.graph live (Loops.detect crowding.graph d) = .ok a ∧ a.spilled.length = 3 ∧
    Allocation.Safe crowding.graph live a := by
  let placing : Except Failure (Solution VarSet × Dominators × Allocation) := do
    let live ← crowding.graph.liveness
    let d ← crowding.graph.dominators
    let a ← allocate crowding.graph live (.detect crowding.graph d)
    pure (live, d, a)
  have succeeds : placing.toOption.map (·.2.2.spilled.length) = some 3 := by decide +kernel
  obtain ⟨_, run, spilled⟩ := toOption_map_eq_some.1 succeeds
  simp only [placing, bind_eq_ok, pure_eq_ok] at run
  obtain ⟨live, solved, d, dominated, a, allocated, rfl⟩ := run
  exact ⟨live, d, a, solved, dominated, allocated, spilled, allocate_safe (crowding.graph_linked rfl) solved allocated⟩

end Quadcode
