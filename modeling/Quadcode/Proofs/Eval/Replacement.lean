import Quadcode.Proofs.Eval.Lockstep

/-!
# One function in the place of another

A function that keeps track of another can stand in its place: the program then ends as it did, or with an
error that the new function may meet on its own. How a program ends without a limit of steps is told by
`Module.EndsWith`; such replacements can be chained.
-/

namespace Quadcode

open Machine Point

variable {m : Machine} {g g' : Graph} {t : Terms} {k : Track}

/-- Where a tail leads when its targets are renamed. -/
theorem Machine.next_mapTargets (m : Machine) (g : Graph) (f : BlockId → BlockId) (tail : Tail) :
    m.next g (tail.mapTargets f) = (m.next g tail).map (Sum.map f id) := by
  cases tail with
  | jump | fall => rfl
  | ret x =>
    cases x with
    | none => rfl
    | some x =>
      simp only [Tail.mapTargets, next]
      cases m.arg g x <;> rfl
  | branch c x y onTrue onFalse =>
    simp only [Tail.mapTargets, next]
    cases m.arg g x with
    | error => rfl
    | ok x =>
      cases m.arg g y with
      | error => rfl
      | ok y =>
        dsimp only [bind, Except.bind]
        cases c.apply g x y with
        | error => rfl
        | ok taken => cases taken <;> rfl

theorem Tail.uses_mapTargets (f : BlockId → BlockId) (tail : Tail) : (tail.mapTargets f).uses = tail.uses := by
  cases tail with
  | ret x => cases x <;> rfl
  | _ => rfl

theorem Machine.next_only {tail : Tail} {b : BlockId} (only : tail.only? = some b) : m.next g tail = .ok (.inl b) := by
  cases tail <;> cases only <;> rfl

namespace Track

variable {below : Hidden} {s : Spot} {p' : Point} {f : BlockId → BlockId}

theorem Meets.arrives (meets : k.Meets t g below s m p') : k.Arrives t g below s m p' := ⟨p', .here, .inr meets⟩

/-- Going ahead first. -/
theorem Arrives.of_glides {r' : Point} (glides : p'.Glides t.strings r') (arrives : k.Arrives t g below s m r') :
    k.Arrives t g below s m p' := by
  obtain ⟨r'', glides', there⟩ := arrives
  exact ⟨r'', glides.trans glides', there⟩

theorem Meets.sees (meets : k.Meets t g below s m p') {v : VarId} (seen : ¬k.hidden s v) :
    m.Sees (below.above m.frames.size (k.hidden s)) v := by
  unfold Machine.Sees Hidden.above
  rwa [if_pos (Nat.sub_add_cancel meets.some_frame)]

/-- At the end of a block both runs go the same way. -/
theorem Meets.next (alike : g.Alike g') (graph : p'.graph = g') (meets : k.Meets t g below s m p')
    (tail : p'.tail = (g.tail s.block).mapTargets f) (seen : ∀ v ∈ (g.tail s.block).uses, ¬k.hidden s v) :
    p'.machine.tick.next p'.graph p'.tail = (m.tick.next g (g.tail s.block)).map (Sum.map f id) := by
  rw [tail, next_mapTargets, graph, alike.akin.next,
    meets.agrees.tick_left.tick_right.next fun v named => meets.sees (seen v named)]

/-- The second run comes to the end of a block with the first one, and leaves it as the first does. -/
theorem Meets.leaves (alike : g.Alike g') (graph : p'.graph = g') (meets : k.Meets t g below s m p')
    (ended : p'.quad? = none) (tail : p'.tail = (g.tail s.block).mapTargets f)
    (seen : ∀ v ∈ (g.tail s.block).uses, ¬k.hidden s v)
    (arrives : ∀ b, m.tick.next g (g.tail s.block) = .ok (.inl b) → k.Arrives t g below ⟨b, 0⟩ m.tick (p'.goto (f b))) :
    k.Leaves t g below m p' (m.tick.next g (g.tail s.block)) := by
  have same := meets.next alike graph tail seen
  cases way : m.tick.next g (g.tail s.block) with
  | error e => exact ⟨ended, by rw [same, way]; rfl⟩
  | ok way' =>
    rw [way] at same
    cases way' with
    | inl b => exact .of_glides (.jump ended same .here) (arrives b way)
    | inr x => exact ⟨ended, same⟩

/-- Both runs go on in the same function. -/
def same : Track where
  hidden _ _ := False
  follows s s' _ _ := s' = s

theorem same_sound (t : Terms) (g : Graph) : same.Sound t g g where
  alike := .refl g
  taken _ _ := .rfl
  covers _ _ := False.elim
  entry below m p' graph block index agrees shaped some_frame pace :=
    Meets.arrives ⟨agrees, shaped, some_frame, pace, by rw [spot, block, index]; rfl⟩
  quad below s m p' q graph meets here := by
    obtain rfl : p'.spot = s := meets.follows
    subst graph
    exact .inl ⟨here, fun _ _ => id, fun _ _ _ _ _ _ => rfl, fun _ _ _ => False.elim⟩
  tail below callers s m p' graph meets ended _ := by
    obtain rfl : p'.spot = s := meets.follows
    subst graph
    refine meets.leaves (.refl _) rfl ended (f := id) ?_ (fun _ _ => id) fun b jumped => ?_
    · cases tail : p'.graph.tail p'.spot.block <;> exact tail
    · exact Meets.arrives { meets with
        agrees := meets.agrees.tick_left.tick_right
        pace := by simpa [goto] using meets.pace
        follows := rfl }

end Track

/-! ## Programs -/

namespace Module

variable {program program' : Module} {entry : Label} {args : List Value} {input : List Int32} {w : Watch}
  {r : Except Stop Outcome} {outcome : Outcome}

/-- A function that keeps track of another in its place. -/
theorem tracked_replace {before after : List Graph} (sound : k.Sound t g g')
    (listed : program.graphs = before ++ g :: after) (strings : program.strings = t.strings) :
    program.Tracked t { program with graphs := before ++ g' :: after } where
  strings := strings
  strings' := strings
  graphs := graph?_rel listed sound.alike.name (fun h => ⟨_, Track.same_sound t h⟩) ⟨k, sound⟩

/-- The run of a program ends with an outcome or an error when nobody counts its steps, and does what is
asked of it on its way. -/
def EndsWith (program : Module) (w : Watch) (entry : Label) (args : List Value) (input : List Int32)
    (r : Except Stop Outcome) : Prop :=
  ∃ m g frame ending, start program input = .ok m ∧ program.graph? entry = some g ∧
    Frame.enter g args = .ok frame ∧ Ends program w (.start [] g m frame) ending ∧
    r = ending.map fun (x, n) => ⟨x, n.output⟩

theorem endsWith_of_run (ran : program.run entry args input = .ok outcome)
    (allowed : ∀ p, program.Comes entry args input p →
      p.Fenced w.shared ∧ (w.strict → p.Productive program) ∧ w.leaves p) :
    program.EndsWith w entry args input (.ok outcome) := by
  obtain ⟨m, g, frame, x, n, started, found, entered, -, ends, rfl⟩ := ends_of_run ran allowed
  exact ⟨m, g, frame, _, started, found, entered, ends, rfl⟩

/-- The interpreter gives what a run ends with, unless it is cut off. -/
theorem EndsWith.run (ends : program.EndsWith w entry args input r) :
    program.run entry args input = .error .outOfSteps ∨ program.run entry args input = r := by
  obtain ⟨m, g, frame, ending, started, found, entered, ends, rfl⟩ := ends
  rw [run_eq_result, started]
  simp only [bind, Except.bind, found, entered]
  rcases ends.result (stepLimit + 1) with cut | shown
  · rw [cut]
    exact .inl rfl
  · rw [shown]
    exact .inr rfl

/-- The start of a run is the start of one in a program that keeps track of it. -/
theorem Tracked.start (tracked : program.Tracked t program') (globals : program'.globals = program.globals)
    {frame : Frame} {ending : Except Stop (Option Value × Machine)} (started : Machine.start program input = .ok m)
    (found : program.graph? entry = some g) (entered : Frame.enter g args = .ok frame)
    (ends : Ends program t.watch (.start [] g m frame) ending) :
    ∃ g' ending', Machine.start program' input = .ok m ∧ program'.graph? entry = some g' ∧
      Frame.enter g' args = .ok frame ∧ Ends program' t.watch.lax (.start [] g' m frame) ending' ∧
      ∃ below, Ends.Alike t below (m.frames.size + 1) ending ending' := by
  have started' : Machine.start program' input = .ok m := by
    rw [← started, Machine.start, Machine.start, globals]
  obtain ⟨g', found', k, sound⟩ := graph?_paired (tracked.graphs entry) found
  have size : (Point.start [] g m frame).machine.frames.size = m.frames.size + 1 := by
    simp [Point.start, Machine.push]
  have arrives := sound.entry (fun _ _ => False) (m.push frame) (.start [] g' m frame) rfl rfl rfl
    (.refl _ _) (Frame.enter_shaped m entered) (by rw [push, Array.size_push]; omega) (.inr le_rfl)
  obtain ⟨r', glides, ⟨e, soft, fails⟩ | meets⟩ := arrives
  · exact ⟨g', _, started', found', (sound.alike.enter args).trans entered,
      Point.Glides.ends (tracked.strings' ▸ glides) (tracked.strings' ▸ fails).ends, fun _ _ => False,
      .soft soft⟩
  · obtain ⟨graph, callers⟩ := glides.graph
    have together : Together t k (fun _ _ => False) (.start [] g m frame) r' := {
      sound := graph ▸ sound
      abreast := by
        rw [callers]
        exact ⟨.nil, fun _ _ inside => absurd inside (Nat.not_lt_zero _)⟩
      framed := framed_start started g frame
      meets }
    obtain ⟨ending', ended, alike⟩ := ends.tracked tracked together
    exact ⟨g', ending', started', found', (sound.alike.enter args).trans entered,
      Point.Glides.ends (tracked.strings' ▸ glides) ended, _, size ▸ alike⟩

/-- A program that keeps track of another ends as it does, or on its own. -/
theorem EndsWith.tracked (tracked : program.Tracked t program') (globals : program'.globals = program.globals)
    (ends : program.EndsWith t.watch entry args input r) :
    ∃ r', program'.EndsWith t.watch.lax entry args input r' ∧ (r' = r ∨ ∃ e, t.soft e ∧ r' = .error e) := by
  obtain ⟨m, g, frame, ending, started, found, entered, ends, rfl⟩ := ends
  obtain ⟨g', ending', started', found', entered', ends', below, alike⟩ :=
    tracked.start globals started found entered ends
  refine ⟨_, ⟨m, g', frame, ending', started', found', entered', ends', rfl⟩, ?_⟩
  cases alike with
  | soft soft => exact .inr ⟨_, soft, rfl⟩
  | error => exact .inl rfl
  | ok agrees =>
    refine .inl (congrArg Except.ok ?_)
    dsimp only
    rw [agrees.output]

/-- A program that keeps track of another without errors of its own and without taking more steps gives the
same outcome. -/
theorem run_of_tracked (tracked : program.Tracked t program') (globals : program'.globals = program.globals)
    (hard : ∀ e, ¬t.soft e) (bound : ¬t.free) (ran : program.run entry args input = .ok outcome)
    (fenced : ∀ p, program.Comes entry args input p → p.Fenced t.watch.shared)
    (productive : t.watch.strict → ∀ p, program.Comes entry args input p → p.Productive program)
    (leaves : ∀ p, program.Comes entry args input p → t.watch.leaves p) :
    program'.run entry args input = .ok outcome := by
  obtain ⟨m, g, frame, x, n, started, found, entered, within, ends, rfl⟩ := ends_of_run ran fun p comes =>
    ⟨fenced p comes, fun asked => productive asked p comes, leaves p comes⟩
  obtain ⟨g', ending', started', found', entered', ends', below, alike⟩ :=
    tracked.start globals started found entered ends
  cases alike with
  | soft soft => exact absurd soft (hard _)
  | @ok _ _ n' _ agrees pace =>
    refine run_iff_runs.2 ⟨m, g', frame, x, n', started', found', entered',
      ends'.runs ((pace.resolve_left bound).trans within), ?_⟩
    rw [agrees.output]

end Module

end Quadcode
