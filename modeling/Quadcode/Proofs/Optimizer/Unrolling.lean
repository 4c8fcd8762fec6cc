import Quadcode.Proofs.Eval.Tracing
import Quadcode.Proofs.Optimizer.Counting
import Quadcode.Proofs.Optimizer.Gateways
import Quadcode.Proofs.Optimizer.LoopPasses
import Quadcode.Proofs.Optimizer.NormalForm

/-!
# Unrolling keeps what a program does

The code of an unrolled loop is that of one round after the other. While the old function is at some place of
a round, the new one is at the same place of the same round, wherever that is now. It has no test between
rounds where the old one has counted that there is another round.
-/

namespace Quadcode

open List Option Machine Quadcode.Graph PassM Point Track

/-- About to enter a loop from outside. -/
def Point.Enters (p : Point) (l : Loop) : Prop :=
  p.quad? = none ∧ p.block ∉ l.blocks ∧ p.machine.tick.next p.graph p.tail = .ok (.inl l.header)

instance (p : Point) (l : Loop) : Decidable (p.Enters l) := inferInstanceAs (Decidable (_ ∧ _ ∧ _))

namespace Unrolling

variable {g g' : Graph} {l : Loop} {t : ExitTest} {rest : List BlockId} {place trips : Nat} {step c : Int32}
  {m : Machine}

/-- What constant propagation reports of a variable at the end of a block. -/
def report (g : Graph) (x : VarId) (b : BlockId) : Except Failure ConstState := do
  let facts ← g.constants
  pure ((← facts.blockOut b).lookup x)

/-- Constant propagation reports a constant on every way into a loop. -/
def Reported (g : Graph) (l : Loop) (x : VarId) (c : Int32) : Prop :=
  ∀ p ∈ l.outsidePreds g, report g x p = .ok (.constant (.int c))

instance (g : Graph) (l : Loop) (x : VarId) (c : Int32) : Decidable (Reported g l x c) :=
  inferInstanceAs (Decidable (∀ p ∈ l.outsidePreds g, report g x p = .ok (.constant (.int c))))

/-! ## The two runs -/

/-- The code of `g'` for a loop of `g` that counts. It has place `k` of round `r` at a spot of its own. -/
structure Unrolled (g g' : Graph) (l : Loop) (t : ExitTest) (rest : List BlockId) (trips : Nat) (pre : BlockId)
    (spot : Nat → Nat → Spot) : Prop where
  gateway : g.Gateway g' l pre 0
  first : spot 0 0 = ⟨pre, 0⟩
  next : ∀ r k, spot r (k + 1) = (spot r k).next
  quad : ∀ r k q, (round g l rest)[k]? = some q → r < trips ∨ r = trips ∧ k < (g.body l.header).length →
    (g'.body (spot r k).block)[(spot r k).index]? = some q
  /-- One round follows the other without a test, or by the test of the header. -/
  again : ∀ r < trips, spot (r + 1) 0 = spot r (round g l rest).length ∨ rest = [] ∧ spot (r + 1) 0 = ⟨l.header, 0⟩ ∧
      (g'.body (spot r (round g l rest).length).block)[(spot r (round g l rest).length).index]? = none ∧
      g'.tail (spot r (round g l rest).length).block = g.tail l.header
  exit : (g'.body (spot trips (g.body l.header).length).block)[(spot trips (g.body l.header).length).index]? = none ∧
    (g'.tail (spot trips (g.body l.header).length).block = .jump t.exit ∨
      g'.tail (spot trips (g.body l.header).length).block = g.tail l.header)

/-- What the two runs are held to. The counter holds a constant wherever the loop is entered. -/
def terms (strings : StringPool) (g : Graph) (l : Loop) (x : VarId) (c : Int32) : Terms where
  strings
  watch := ⟨g.addressTaken, False, fun p => p.graph = g → p.Enters l → p.machine.arg p.graph (.var x) = .ok (.int c)⟩
  soft _ := False
  free := False

/-- Inside the loop both runs are at the same place of the same round. -/
def inside (g : Graph) (l : Loop) (t : ExitTest) (rest : List BlockId) (place : Nat) (step : Int32) (trips : Nat)
    (spot : Nat → Nat → Spot) (s s' : Spot) (m _ : Machine) : Prop :=
  ∃ r k, InRound g l t rest place step trips r k s m ∧ s' = spot r k

section Tracks

variable {strings : StringPool} {pre : BlockId} {spot : Nat → Nat → Spot} {below : Hidden} {s : Spot} {p' : Point}

theorem opens (linked : g.Linked) (loop : g.HasLoop l) (counts : Counts g l t rest place step)
    (begins : Begins t.stays step (place < (g.body l.header).length) trips 0 c)
    (unrolled : Unrolled g g' l t rest trips pre spot) :
    Graph.Gateway.Opens (terms strings g l t.counter c) g g' l pre 0 (fun _ _ => False)
      (inside g l t rest place step trips spot) fun m => m.arg g (.var t.counter) = .ok (.int c) := by
  intro below m p' graph at_gate agrees shaped some_frame pace arriving
  have way : Underway strings False g g := .start linked
  have hides := way.hides counts.resident (declared_of_arg arriving rfl)
  refine Track.Meets.arrives ⟨agrees, shaped, some_frame, pace, loop.header_mem_layout linked, Nat.zero_le _,
    fun _ => ⟨0, 0, .start hides begins ((varValue_of_top hides).1 arriving), ?_⟩,
    fun outside => absurd (loop.natural linked).header_mem outside⟩
  rw [unrolled.first, at_gate]

/-- The second run leaves a block of the loop as the first does, or waits for the first at the next place. -/
theorem leaves (linked : g.Linked) (loop : g.HasLoop l) (counts : Counts g l t rest place step)
    (unrolled : Unrolled g g' l t rest trips pre spot) (graph : p'.graph = g')
    (meets : (around g l (fun _ _ => False) (inside g l t rest place step trips spot)).Meets
      (terms strings g l t.counter c) g below s m p')
    (member : s.block ∈ l.blocks) (ended : (g.body s.block)[s.index]? = none) :
    (around g l (fun _ _ => False) (inside g l t rest place step trips spot)).Leaves
      (terms strings g l t.counter c) g below m p' (m.tick.next g (g.tail s.block)) := by
  have unused := Track.Unused.none (terms strings g l t.counter c) g
  obtain ⟨r, k, at_k, there⟩ := meets.follows.2.2.1 member
  have same_way {e : BlockId} (home : s.block = l.header) (tail : g'.tail (spot r k).block = g.tail l.header)
      (goes : m.tick.next g (g.tail s.block) = .ok (.inl e)) :
      p'.machine.tick.next p'.graph p'.tail = .ok (.inl e) := by
    have same := meets.next unrolled.gateway.alike graph (f := id) (by
      rw [tail_at graph there, tail, home]
      cases g.tail l.header <;> rfl) (leaves_seen unused meets ended)
    rw [same, goes]
    rfl
  rcases at_k.tick.tail counts (loop.natural linked).header_mem
    (congrArg Spot.index (index_eq meets ended)) with ⟨goes, home, rfl, rfl⟩ | ⟨e, member', goes, round⟩
  · -- The last round is over.
    obtain ⟨ended', leads⟩ := unrolled.exit
    have way : p'.machine.tick.next p'.graph p'.tail = .ok (.inl t.exit) := by
      rcases leads with jumps | tail
      · rw [tail_at graph there, jumps]
        rfl
      · exact same_way home tail goes
    rw [goes]
    refine .of_glides (.jump ?_ way .here) (arrives_outside unused meets ended linked (next_target goes) counts.exit)
    rw [quad?_at graph there, ended']
  · have edge := next_target goes
    rw [goes]
    rcases round with ⟨-, at_k'⟩ | ⟨rfl, more, rfl, at_start⟩
    · exact arrives_waiting unused meets ended linked edge member' ⟨r, k, at_k', there⟩
    · rcases unrolled.again r more with same | ⟨single, back, ended', tail⟩
      · exact arrives_waiting unused meets ended linked edge member' ⟨r + 1, 0, at_start, there.trans same.symm⟩
      · have home : s.block = l.header := by
          obtain ⟨front, back, split, -⟩ := at_k.position
          rw [single] at split
          have listed : s.block ∈ [l.header] := split ▸ mem_append_right _ mem_cons_self
          exact mem_singleton.1 listed
        refine .of_glides (.jump ?_ (same_way home tail goes) .here)
          (arrives_inside unused meets ended linked edge member' ⟨r + 1, 0, at_start, back.symm⟩)
        rw [quad?_at graph there, ended']

/-- A function with an unrolled loop keeps track of the old one. -/
theorem Unrolled.sound (linked : g.Linked) (stores : ∀ q ∈ g.bodies, g.StoresToMemory q) (loop : g.HasLoop l)
    (counts : Counts g l t rest place step) (begins : Begins t.stays step (place < (g.body l.header).length) trips 0 c)
    (entry : g.entry ≠ l.header) (unrolled : Unrolled g g' l t rest trips pre spot)
    (bodies : ∀ q ∈ g'.bodies, q ∈ g.bodies) :
    (around g l (fun _ _ => False) (inside g l t rest place step trips spot)).Sound
      (terms strings g l t.counter c) g g' := by
  have unused := Track.Unused.none (terms strings g l t.counter c) g
  refine unrolled.gateway.sound linked loop unused (fun v unshared => ?_) (fun _ _ => False.elim)
    (opens linked loop counts begins unrolled) (fun callers b m laid outside next left => ?_)
    (fun start => absurd start entry) (fun below s m p' q graph meets member here => .inl ?_)
    fun below s m p' graph meets => leaves linked loop counts unrolled graph meets
  · exact iff_of_false (mt (addressTaken_mono bodies) unshared) unshared
  · exact left rfl ⟨getElem?_eq_none_iff.2 le_rfl, outside, next⟩
  · obtain ⟨r, k, at_k, there⟩ := meets.follows.2.2.1 member
    have listed : q ∈ g.bodies := mem_flatMap.2 ⟨_, meets.follows.1, mem_of_getElem? here⟩
    refine copies_of_next unused meets here ?_ fun _ x m' n' yields passed =>
      ⟨r, k + 1, at_k.next counts here yields (passed (stores q listed)).1, ?_⟩
    · rw [quad?_at graph there]
      refine unrolled.quad r k q (at_k.getElem? here) ?_
      rcases at_k.le counts with more | ⟨last, home, rfl⟩
      · exact .inl more
      · exact .inr ⟨last, home ▸ (List.getElem?_eq_some_iff.1 here).1⟩
    · rw [unrolled.next, there]

end Tracks

/-! ## Unrolled code -/

section Code

variable {counted : Counted} {factor : Nat}

theorem flatten_replicate_getElem? {α : Type} {xs : List α} {n r k : Nat} {x : α} (inside : r < n)
    (here : xs[k]? = some x) : (List.replicate n xs).flatten[r * xs.length + k]? = some x := by
  induction n generalizing r with
  | zero => cases inside
  | succ n ih =>
    rw [replicate_succ, flatten_cons]
    cases r with
    | zero =>
      rw [Nat.zero_mul, Nat.zero_add, List.getElem?_append_left (List.getElem?_eq_some_iff.1 here).1, here]
    | succ r =>
      rw [Nat.succ_mul, Nat.add_right_comm, getElem?_append_right (Nat.le_add_left _ _), Nat.add_sub_cancel]
      exact ih (Nat.lt_of_succ_lt_succ inside)

/-- A new block with the code of all rounds in the place of the loop. -/
theorem unrolled_straighten (linked : g.Linked) (loop : g.HasLoop l) (counts : Counts g l t rest place step)
    (cycle : counted.cycle = l.header :: rest) (exit : counted.exit = t.exit) (laid : t.exit ∈ g.layout) (s : Supply) :
    Unrolled g (straighten g l counted s).1 l t rest counted.trips g.blocks.size
        (fun r k => ⟨g.blocks.size, r * (round g l rest).length + k⟩) ∧
      ∀ q ∈ (straighten g l counted s).1.bodies, q ∈ g.bodies := by
  let x : Block := { (Block.fresh s).1 with body := straightened g l counted, tail := .jump counted.exit }
  have entered := entered_addBlock linked (loop.header_mem_layout linked) x
  rw [show (straighten g l counted s).1 = ((g.addBlock x).2.enterThrough l g.blocks.size).relink from rfl]
  generalize (g.addBlock x).2.enterThrough l g.blocks.size = h at entered
  have code : h.relink.body g.blocks.size =
      (List.replicate counted.trips (round g l rest)).flatten ++ g.body l.header := by
    rw [relink_body, entered.body, if_pos rfl]
    show straightened g l counted = _
    rw [straightened, cycle, round]
  have length : (List.replicate counted.trips (round g l rest)).flatten.length =
      counted.trips * (round g l rest).length := by simp
  have gateway : g.Gateway h.relink l g.blocks.size 0 :=
    entered.gateway linked loop ⟨entered.alike.vars, entered.alike.params, entered.alike.name⟩
      (fun b _ _ => relink_body h b) (fun b _ _ => relink_tail h b) rfl
  refine ⟨⟨gateway, by simp, fun _ _ => rfl, fun r k q here within => ?_, fun r _ => .inl ?_, ?_, .inl ?_⟩,
    fun q listed => ?_⟩
  · rw [code]
    rcases within with more | ⟨rfl, early⟩
    · have old := flatten_replicate_getElem? more here
      rw [List.getElem?_append_left (List.getElem?_eq_some_iff.1 old).1, old]
    · rw [getElem?_append_right (length ▸ Nat.le_add_right _ _), length, Nat.add_sub_cancel_left, ← here, round,
        flatMap_cons, getElem?_append_left early]
  · rw [Nat.succ_mul, Nat.add_zero]
  · rw [code, List.getElem?_eq_none_iff, List.length_append, length]
  · rw [relink_tail, entered.tail, if_pos rfl, ← exit]
  · have closed := entered.closed linked fun c target => by
      obtain rfl : c = counted.exit := by simpa [x, Tail.targets, Tail.successors] using target
      exact exit ▸ laid
    obtain ⟨b, live, here⟩ := mem_flatMap.1 listed
    by_cases new : b = g.blocks.size
    · rw [new, code, mem_append] at here
      refine counts.mem_bodies linked loop (here.elim (fun member => ?_) (mem_append_left _))
      obtain ⟨_, copy, inside⟩ := mem_flatten.1 member
      exact (mem_replicate.1 copy).2 ▸ inside
    · rw [relink_body, entered.body, if_neg new] at here
      have old := (entered.layout.mem_iff.1 (closed.relink_linked.2 b live))
      exact mem_flatMap.2 ⟨b, (mem_cons.1 old).resolve_left new, here⟩

/-- One turn more of a loop that tests every `factor` rounds. -/
theorem succ_mod (some_times : 0 < factor) (r : Nat) :
    (r + 1) % factor = if r % factor + 1 = factor then 0 else r % factor + 1 := by
  rw [← Nat.mod_add_mod]
  split
  next full => rw [full, Nat.mod_self]
  next other =>
    have within := Nat.mod_lt r some_times
    exact Nat.mod_eq_of_lt (by omega)

theorem gateway_repeatBody (linked : g.Linked) (loop : g.HasLoop l) (factor : Nat) :
    g.Gateway (repeatBody g l.header factor) l l.header 0 where
  alike := ⟨rfl, rfl, rfl⟩
  body b _ outside other := by
    rw [repeatBody, setBody_body (linked.lt_size (loop.header_mem_layout linked)), if_neg other.symm]
  tail b _ _ _ := by
    rw [repeatBody, setBody_tail]
    cases g.tail b <;> simp [Tail.retarget, Tail.mapTargets]
  entry := by
    show g.entry = _
    split
    · assumption
    · rfl
  pre := .inr ⟨fun b _ outside same => outside (same ▸ (loop.natural linked).header_mem), rfl⟩

/-- The code of the header several times. -/
theorem unrolled_repeatBody (linked : g.Linked) (loop : g.HasLoop l) (some_times : 0 < factor)
    (divides : (trips + 1) % factor = 0) :
    Unrolled g (repeatBody g l.header factor) l t [] trips l.header
        (fun r k => ⟨l.header, r % factor * (round g l []).length + k⟩) ∧
      ∀ q ∈ (repeatBody g l.header factor).bodies, q ∈ g.bodies := by
  have header := loop.header_mem_layout linked
  have body (b : BlockId) : (repeatBody g l.header factor).body b =
      if l.header = b then (List.replicate factor (round g l [])).flatten else g.body b := by
    rw [repeatBody, setBody_body (linked.lt_size header), round, flatMap_singleton]
  -- After the last copy the tail of the header comes.
  have finished (r : Nat) (full : r % factor + 1 = factor) :
      ((repeatBody g l.header factor).body l.header)[r % factor * (round g l []).length + (round g l []).length]? =
        none := by
    rw [body, if_pos rfl, getElem?_eq_none_iff, ← Nat.succ_mul, Nat.succ_eq_add_one, full]
    simp
  have single : (round g l []).length = (g.body l.header).length := by simp [round]
  refine ⟨⟨gateway_repeatBody linked loop factor, by simp, fun _ _ => rfl, fun r k q here _ => ?_, fun r _ => ?_, ?_,
    .inr (setBody_tail _)⟩, fun q listed => ?_⟩
  · rw [body, if_pos rfl]
    exact flatten_replicate_getElem? (Nat.mod_lt r some_times) here
  · rw [succ_mod some_times]
    split
    next full => exact .inr ⟨rfl, by simp, finished r full, setBody_tail _⟩
    · exact .inl (by rw [Nat.succ_mul, Nat.add_zero])
  · rw [← single]
    refine finished trips ?_
    rw [succ_mod some_times] at divides
    split at divides
    · assumption
    · cases divides
  · obtain ⟨b, laid, here⟩ := mem_flatMap.1 listed
    rw [body] at here
    split at here
    · obtain ⟨_, copy, inside⟩ := mem_flatten.1 here
      rw [(mem_replicate.1 copy).2, round, flatMap_singleton] at inside
      exact mem_flatMap.2 ⟨l.header, header, inside⟩
    · exact mem_flatMap.2 ⟨b, laid, here⟩

end Code

/-! ## The pass -/

/-- What is known of a loop whose rounds have been counted. -/
structure Found (g : Graph) (l : Loop) (counted : Counted) (t : ExitTest) (rest : List BlockId) (place : Nat)
    (step c : Int32) : Prop where
  test : ExitTest.of? g l = some t
  counts : Counts g l t rest place step
  entry : g.entry ≠ l.header
  reported : Reported g l t.counter c
  begins : Begins t.stays step (place < (g.body l.header).length) counted.trips 0 c
  cycle : counted.cycle = l.header :: rest
  whole : counted.cycle.length = l.blocks.size
  exit : counted.exit = t.exit

/-- One rewrite of a loop. -/
inductive Rewrites (g : Graph) (l : Loop) : Graph → Prop
  | complete {counted : Counted} {t : ExitTest} {rest : List BlockId} {place : Nat} {step c : Int32}
    (found : Found g l counted t rest place step c) (s : Supply) : Rewrites g l (straighten g l counted s).1
  | partially {counted : Counted} {t : ExitTest} {place : Nat} {step c : Int32}
    (found : Found g l counted t [] place step c) {factor : Nat} (some_times : 0 < factor)
    (divides : (counted.trips + 1) % factor = 0) : Rewrites g l (repeatBody g l.header factor)

section Pass

variable {old : Context} {w : Work} {limit : Nat}

theorem start_reported {facts : Solution Facts} {x : VarId} {preds : List BlockId} {value : Option Int32}
    (started : start? facts x preds value = .ok (some c)) : (∀ c' ∈ value, c' = c) ∧ (value = none → preds ≠ []) ∧
      ∀ p ∈ preds, ∃ out, facts.blockOut p = .ok out ∧ out.lookup x = .constant (.int c) := by
  induction preds generalizing value with
  | nil =>
    cases started
    refine ⟨fun _ same => (Option.some.inj same).symm, fun missing => ?_, fun p member => ?_⟩
    · cases missing
    · cases member
  | cons p rest ih =>
    simp only [start?, bind_eq_ok] at started
    obtain ⟨out, at_p, started⟩ := started
    split at started
    next known =>
      split at started
      next agrees =>
        obtain ⟨same, -, later⟩ := ih started
        obtain rfl := same _ rfl
        refine ⟨fun c' here => ?_, fun _ => cons_ne_nil p rest, fun p' member => ?_⟩
        · rcases agrees with missing | same
          · cases missing.symm.trans here
          · exact Option.some.inj (here.symm.trans same)
        · rcases mem_cons.1 member with rfl | member
          · exact ⟨out, at_p, known⟩
          · exact later p' member
      · cases started
    · cases started

theorem analyze_found (linked : w.graph.Linked) (loop : w.graph.HasLoop l) (coherent : w.Coherent old) :
    Ensures (analyze l limit) w (fun r w' => w'.graph = w.graph ∧ w'.Coherent old ∧ ∀ counted, r = some counted →
      ∃ t rest place step c, Found w.graph l counted t rest place step c) fun _ => True := by
  unfold analyze
  rw [ensures_bind, ensures_graph]
  split
  · exact ⟨rfl, coherent, nofun⟩
  next t cycle b step counting =>
    obtain ⟨rest, place, rfl, whole, counts, early⟩ := counts_of_counting linked loop counting
    refine ensures_bind.2 ((ensures_constants coherent).mono (fun facts w' ⟨solved, asked⟩ => ?_)
      fun _ _ => trivial)
    simp only [ensures_bind, ensures_ofExcept]
    refine ⟨fun start started => ?_, fun _ _ => trivial⟩
    split
    · exact ⟨asked.graph, asked.coherent, nofun⟩
    next c =>
      refine ⟨asked.graph, asked.coherent, fun counted eq => ?_⟩
      obtain ⟨trips, ahead, rfl⟩ := map_eq_some_iff.1 eq
      obtain ⟨-, some_pred, reported⟩ := start_reported started
      obtain ⟨p, outside⟩ := exists_mem_of_ne_nil _ (some_pred rfl)
      refine ⟨t, rest, place, step, c, Kept.exitTest_of_counting counting, counts,
        loop.entry_ne_header linked outside, fun p member => ?_, ⟨limit, ?_⟩, rfl, whole, rfl⟩
      · obtain ⟨out, at_p, known⟩ := reported p member
        rw [report, solved, ← known]
        simp only [bind, Except.bind, at_p]
        rfl
      · rw [← early]
        exact ahead

theorem factor_divides {runs length size k : Nat} (found : factor? runs length size = some k) :
    0 < k ∧ runs % k = 0 := by
  have fits := find?_some found
  simp only [Bool.and_eq_true, decide_eq_true_eq] at fits
  refine ⟨?_, fits.1⟩
  rcases mem_cons.1 (mem_of_find?_eq_some found) with rfl | member
  · decide
  · rw [mem_singleton.1 member]
    decide

theorem unrollPartially_rewrites (linked : w.graph.Linked) (loop : w.graph.HasLoop l) (coherent : w.Coherent old) :
    Ensures (unrollPartially l) w (fun r w' => r ≠ none → Rewrites w.graph l w'.graph) fun _ => True := by
  unfold unrollPartially
  rw [ensures_bind, ensures_get]
  dsimp only
  split
  · exact fun done => absurd rfl done
  next single =>
    refine (analyze_found linked loop coherent).bind fun r w' ⟨same, _, found⟩ => ?_
    cases r with
    | none => exact fun done => absurd rfl done
    | some counted =>
      dsimp only
      split
      · exact fun done => absurd rfl done
      next factor fits =>
        obtain ⟨t, rest, place, step, c, found⟩ := found counted rfl
        obtain ⟨some_times, divides⟩ := factor_divides fits
        obtain rfl : rest = [] := by
          have whole := found.whole
          rw [found.cycle, length_cons, not_not.1 (not_or.1 single).1] at whole
          exact length_eq_zero_iff.1 (Nat.succ.inj whole)
        intro _
        show Rewrites w.graph l (repeatBody w'.graph l.header factor)
        rw [same]
        exact .partially found some_times divides

theorem unroll_rewrites (linked : w.graph.Linked) (loop : w.graph.HasLoop l) (coherent : w.Coherent old) :
    Ensures (unroll l) w (fun r w' => r ≠ none → Rewrites w.graph l w'.graph) fun _ => True := by
  unfold unroll
  rw [ensures_bind, ensures_config]
  refine (analyze_found linked loop coherent).bind fun r w' ⟨same, coherent', found⟩ => ?_
  have in_part := unrollPartially_rewrites (same ▸ linked) (same ▸ loop) coherent'
  rw [same] at in_part
  cases r with
  | none => exact in_part
  | some counted =>
    rw [ensures_bind, ensures_graph]
    split
    · obtain ⟨t, rest, place, step, c, found⟩ := found counted rfl
      intro _
      show Rewrites w.graph l (straighten w'.graph l counted w'.supply).1
      rw [same]
      exact .complete found _
    · exact in_part

/-- A rewritten function keeps track of the old one if the counter holds what is reported of it. -/
theorem Rewrites.sound (rewrites : Rewrites g l g') (strings : StringPool) (linked : g.Linked)
    (stores : ∀ q ∈ g.bodies, g.StoresToMemory q) (loop : g.HasLoop l) :
    ∃ t c, ExitTest.of? g l = some t ∧ Reported g l t.counter c ∧
      ∃ k : Track, k.Sound (terms strings g l t.counter c) g g' := by
  cases rewrites with
  | @complete _ t _ _ _ c found s =>
    have laid := linked.target_mem (loop.header_mem_layout linked) (ExitTest.exit_mem found.test)
    obtain ⟨unrolled, bodies⟩ := unrolled_straighten linked loop found.counts found.cycle found.exit laid s
    exact ⟨t, c, found.test, found.reported, _,
      unrolled.sound linked stores loop found.counts found.begins found.entry bodies⟩
  | @partially _ t _ _ c found _ some_times divides =>
    obtain ⟨unrolled, bodies⟩ := unrolled_repeatBody linked loop some_times divides
    exact ⟨t, c, found.test, found.reported, _,
      unrolled.sound linked stores loop found.counts found.begins found.entry bodies⟩

end Pass

/-- One rewrite of a loop, in full or in part, in one function of a module changes no successful run on which
pointers lead only to globals and to variables whose address the owner of the frame takes, if the tested
variable holds the constant that constant propagation reports in front of the loop wherever it is entered. -/
theorem unrolling_keeps_outcome {program : Module} {before after : List Graph} {work work' : Work}
    {extent : Extent} (listed : program.graphs = before ++ work.graph :: after) (linked : work.graph.Linked)
    (stores : ∀ q ∈ work.graph.bodies, work.graph.StoresToMemory q)
    (current : work.context.analyses.Match work.graph) (loop : work.graph.HasLoop l)
    (unrolled : Gives (unroll l) work (some extent) work') {entry : Label} {args : List Value}
    {input : List Int32} {outcome : Outcome} (ran : program.run entry args input = .ok outcome)
    (confined : ∀ p, program.Comes entry args input p → p.Confined)
    (entering : ∀ t c, ExitTest.of? work.graph l = some t → Reported work.graph l t.counter c →
      ∀ p, program.Comes entry args input p → p.graph = work.graph → p.Enters l →
        p.machine.arg p.graph (.var t.counter) = .ok (.int c)) :
    Module.run { program with graphs := before ++ work'.graph :: after } entry args input = .ok outcome := by
  have coherent : work.Coherent work.context := ⟨current, rfl, fun _ => .inl⟩
  have rewrites := (unroll_rewrites linked loop coherent).of_gives unrolled (some_ne_none _)
  obtain ⟨t, c, tested, reported, k, sound⟩ := rewrites.sound program.strings linked stores loop
  exact Module.run_of_tracked (Module.tracked_replace sound listed rfl) rfl (fun _ => id) id ran
    (fun p comes => (confined p comes).fenced _) False.elim fun p comes => entering t c tested reported p comes

/-- The loops of a function. -/
def loops (f : Function) : List Loop :=
  match f.graph.dominators with
  | .ok d => (Loops.detect f.graph d).toList
  | .error _ => []

def loopAt (f : Function) (i : Nat) : Loop := (loops f).getD i ⟨0, ∅, [], 0, none⟩

/-- The function after a rewrite of one of its loops. -/
def unrolledAt (f : Function) (i : Nat) : Work := (outcome (unroll (loopAt f i)) ⟨f.graph, {}, {}⟩).2

theorem hasLoop_loopAt {f : Function} {i : Nat} (inside : i < (loops f).length) : f.graph.HasLoop (loopAt f i) := by
  have member : loopAt f i ∈ loops f := by
    rw [loopAt, getD_eq_getElem?_getD, getElem?_eq_getElem inside, getD_some]
    exact getElem_mem inside
  unfold loops at member
  split at member
  next d found => exact ⟨d, found, member⟩
  · cases member

/-- Adds up what `i` and `j` count, and stores it to `x` through `p`. The variables `i`, `j`, `s`, `x` and `p` are
0 to 4. -/
def tallying : Function where
  name := "main"
  vars := #[.declare "i" .int .local, .declare "j" .int .local, .declare "s" .int .local,
    .declare "x" .int .local, .declare "p" (.pointer .int) .local]
  quads := [
    ⟨some 0, .assign (.const (.int 0))⟩,
    ⟨some 2, .assign (.const (.int 0))⟩,
    ⟨some 4, .address 3⟩,
    .effect (.label "head"),
    .effect (.jumpIf .ge (.var 0) (.const (.int 3)) "exit"),
    ⟨some 2, .binOp .add (.var 2) (.var 0)⟩,
    .effect (.derefStore 4 (.var 2)),
    ⟨some 0, .binOp .add (.var 0) (.const (.int 1))⟩,
    .effect (.goto "head"),
    .effect (.label "exit"),
    ⟨some 1, .assign (.const (.int 12))⟩,
    .effect (.label "again"),
    ⟨some 2, .binOp .add (.var 2) (.var 1)⟩,
    ⟨some 1, .binOp .sub (.var 1) (.const (.int 1))⟩,
    .effect (.jumpIf .gt (.var 1) (.const (.int 0)) "again"),
    .effect (.print (.var 3)),
    .effect (.ret (some (.var 2)))]

theorem tallying_keeps_outcome : (tallying.module []).run "main" [] [] = .ok ⟨some (.int 81), "3"⟩ ∧
      Gives (unroll (loopAt tallying 0)) ⟨tallying.graph, {}, {}⟩ (some .complete) (unrolledAt tallying 0) ∧
      Module.run { tallying.module [] with graphs := [(unrolledAt tallying 0).graph] } "main" [] [] =
        .ok ⟨some (.int 81), "3"⟩ ∧
      Gives (unroll (loopAt tallying 1)) ⟨tallying.graph, {}, {}⟩ (some .partially) (unrolledAt tallying 1) ∧
      Module.run { tallying.module [] with graphs := [(unrolledAt tallying 1).graph] } "main" [] [] =
        .ok ⟨some (.int 81), "3"⟩ := by
  have ran : (tallying.module []).run "main" [] [] = .ok ⟨some (.int 81), "3"⟩ := by decide +kernel
  have listed : (tallying.module []).graphs = [] ++ tallying.graph :: [] := rfl
  have watched : ∀ p ∈ (tallying.module []).trace "main" [] [], p.Confined ∧ (p.graph = tallying.graph →
      (p.Enters (loopAt tallying 0) → p.machine.arg p.graph (.var 0) = .ok (.int 0)) ∧
      (p.Enters (loopAt tallying 1) → p.machine.arg p.graph (.var 1) = .ok (.int 12))) := by decide +kernel
  have keeps {l : Loop} {extent : Extent} {work : Work} {x : VarId} {c : Int32}
      (loop : tallying.graph.HasLoop l) (unrolled : Gives (unroll l) ⟨tallying.graph, {}, {}⟩ (some extent) work)
      (tested : (ExitTest.of? tallying.graph l).map (·.counter) = some x)
      (reported : ∃ p ∈ l.outsidePreds tallying.graph, report tallying.graph x p = .ok (.constant (.int c)))
      (holds : ∀ p ∈ (tallying.module []).trace "main" [] [], p.graph = tallying.graph → p.Enters l →
        p.machine.arg p.graph (.var x) = .ok (.int c)) :
      Module.run { tallying.module [] with graphs := [work.graph] } "main" [] [] = .ok ⟨some (.int 81), "3"⟩ := by
    refine unrolling_keeps_outcome listed (tallying.graph_linked rfl) (by decide +kernel) (.empty _) loop unrolled ran
      (fun p comes => (watched p comes.mem_trace).1) fun t c' tested' reported' p comes here enters => ?_
    obtain ⟨b, outside, at_b⟩ := reported
    rw [tested'] at tested
    cases tested
    cases at_b.symm.trans (reported' b outside)
    exact holds p comes.mem_trace here enters
  have complete : Gives (unroll (loopAt tallying 0)) ⟨tallying.graph, {}, {}⟩ (some .complete)
      (unrolledAt tallying 0) := Prod.ext (by decide +kernel) rfl
  have in_part : Gives (unroll (loopAt tallying 1)) ⟨tallying.graph, {}, {}⟩ (some .partially)
      (unrolledAt tallying 1) := Prod.ext (by decide +kernel) rfl
  refine ⟨ran, complete, ?_, in_part, ?_⟩
  · exact keeps (hasLoop_loopAt (by decide +kernel)) complete (by decide +kernel) (by decide +kernel)
      fun p visited here => ((watched p visited).2 here).1
  · exact keeps (hasLoop_loopAt (by decide +kernel)) in_part (by decide +kernel) (by decide +kernel)
      fun p visited here => ((watched p visited).2 here).2

end Unrolling

end Quadcode
