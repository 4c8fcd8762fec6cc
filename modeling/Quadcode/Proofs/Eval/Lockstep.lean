import Quadcode.Proofs.Eval.Tracking

/-!
# Functions that run in lockstep

A function mirrors another one if it has the same blocks, with as many quadruples, and does at every point that
runs come to what the other one does there. Then the two run step by step through the same states, to the same
value, and they run out of steps together; where they fail alike at every point, they end with the same error too.
A function recasts another one if it mirrors it wherever what is known at a spot holds.
-/

namespace Quadcode

open List Machine Point Quadcode.Module

variable {args : List Value} {strict : Prop} {d : Option (Place × Value)} {input : List Int32} {xs : List Arg}
  {program : Module} {entry : Label} {q : Quad} {g g' h : Graph}

/-! ## Coming to the same -/

section Covers

variable {ε α β γ δ : Type} {rel : α → β → Prop} {f : α → Except ε γ} {x y : Except ε α}

/-- The second comes to a value that is related to the one that the first comes to and, if that is asked for, it
fails where the first does. -/
structure Covers (strict : Prop) (rel : α → β → Prop) (x : Except ε α) (y : Except ε β) : Prop where
  ok : ∀ a, x = .ok a → ∃ b, y = .ok b ∧ rel a b
  error : strict → ∀ e, x = .error e → y = .error e

theorem Covers.of_eq (same : y = x) : Covers strict Eq x y :=
  ⟨fun a ok => ⟨a, same.trans ok, rfl⟩, fun _ _ failed => same.trans failed⟩

theorem Covers.pure {a : α} {b : β} (related : rel a b) : Covers strict rel (.ok a : Except ε α) (.ok b) := by
  refine ⟨?_, fun _ _ failed => by cases failed⟩
  rintro _ ⟨⟩
  exact ⟨b, rfl, related⟩

theorem Covers.eq (covers : Covers True Eq x y) : y = x := by
  cases x with
  | error e => exact covers.error trivial e rfl
  | ok a =>
    obtain ⟨_, ok, rfl⟩ := covers.ok a rfl
    exact ok

theorem Covers.bind {rel' : γ → δ → Prop} {y : Except ε β} {f' : β → Except ε δ} (first : Covers strict rel x y)
    (rest : ∀ a b, x = .ok a → rel a b → Covers strict rel' (f a) (f' b)) :
    Covers strict rel' (x >>= f) (y >>= f') := by
  cases x with
  | error e =>
    refine ⟨fun _ ok => (by cases ok), fun asked e' failed => ?_⟩
    rw [first.error asked e rfl]
    cases failed
    rfl
  | ok a =>
    obtain ⟨b, rfl, related⟩ := first.ok a rfl
    exact rest a b rfl related

/-- Both go on from the same value. -/
theorem Covers.bind_eq {rel : γ → δ → Prop} {f' : α → Except ε δ} (first : Covers strict Eq x y)
    (rest : ∀ a, x = .ok a → Covers strict rel (f a) (f' a)) :
    Covers strict rel (x >>= f) (y >>= f') :=
  first.bind fun a _ ok same => same ▸ rest a ok

end Covers

namespace Machine

variable {m n : Machine} {strings : StringPool} {q' : Quad} {x : Option Value} {f : Arg → Arg}

/-! ## Arguments that come to the same -/

section Arguments

theorem covers_index {a b : Arg} (same : Covers strict Eq (m.arg g a) (m.arg g b)) :
    Covers strict Eq (m.index g a) (m.index g b) := by
  exact same.bind_eq fun x _ => .of_eq rfl

theorem covers_effect {op : Op} (same : ∀ a ∈ op.args, Covers strict Eq (m.arg g a) (m.arg g (f a))) :
    Covers strict Eq (m.effect strings g op) (m.effect strings g (op.mapArgs f)) := by
  cases op with
  | ret x => cases x <;> exact .of_eq rfl
  | assign x | unOp _ x | print x | derefStore _ x =>
    exact (same x (by simp [Op.args])).bind_eq fun x _ => .of_eq rfl
  | binOp _ x y | cmp _ x y =>
    refine (same x (by simp [Op.args])).bind_eq fun x _ => ?_
    exact (same y (by simp [Op.args])).bind_eq fun y _ => .of_eq rfl
  | load _ i =>
    exact (covers_index (same i (by simp [Op.args]))).bind_eq fun i _ => .of_eq rfl
  | store _ i x =>
    refine (covers_index (same i (by simp [Op.args]))).bind_eq fun i _ => ?_
    exact (same x (by simp [Op.args])).bind_eq fun x _ => .of_eq rfl
  | _ => exact .of_eq rfl

theorem covers_act (result : q'.result = q.result)
    (effect : Covers strict Eq (m.effect strings g q.op) (m.effect strings g q'.op)) :
    Covers strict Eq (m.act strings g q) (m.act strings g q') := by
  refine effect.bind_eq fun e _ => ?_
  exact .of_eq (by rw [result])

theorem covers_args (same : ∀ a ∈ xs, Covers strict Eq (m.arg g a) (m.arg g (f a))) :
    Covers strict Eq (m.args g xs) (m.args g (xs.map f)) := by
  unfold args
  induction xs with
  | nil => exact .of_eq rfl
  | cons a rest ih =>
    obtain ⟨here, later⟩ := forall_mem_cons.1 same
    rw [map_cons, mapM_cons, mapM_cons]
    refine here.bind_eq fun x _ => ?_
    exact (ih later).bind_eq fun xs _ => .of_eq rfl

theorem covers_next {t : Tail} (same : ∀ a ∈ t.args, Covers strict Eq (m.arg g a) (m.arg g (f a))) :
    Covers strict Eq (m.next g t) (m.next g (t.mapArgs f)) := by
  cases t with
  | ret x =>
    cases x with
    | none => exact .of_eq rfl
    | some x =>
      exact (same x (by simp [Tail.args])).bind_eq fun x _ => .of_eq rfl
  | branch _ x y =>
    refine (same x (by simp [Tail.args])).bind_eq fun x _ => ?_
    exact (same y (by simp [Tail.args])).bind_eq fun y _ => .of_eq rfl
  | _ => exact .of_eq rfl

end Arguments

/-- In a state, a quadruple does what another one does. -/
inductive StandsIn (strict : Prop) (strings : StringPool) (m : Machine) (g : Graph) (q : Quad) : Quad → Prop
  | act {q' : Quad} : q.op.isCall = false → q'.op.isCall = false →
      Covers strict Eq (m.tick.act strings g q) (m.tick.act strings g q') → StandsIn strict strings m g q q'
  | call {name : Label} {xs xs' : List Arg} : q.op = .call name xs →
      Covers strict Eq (m.tick.args g xs) (m.tick.args g xs') → StandsIn strict strings m g q ⟨q.result, .call name xs'⟩

theorem StandsIn.refl (strict : Prop) (strings : StringPool) (m : Machine) (g : Graph) (q : Quad) :
    StandsIn strict strings m g q q := by
  obtain ⟨result, op⟩ := q
  cases op with
  | call name xs => exact .call rfl (.of_eq rfl)
  | _ => exact .act rfl rfl (.of_eq rfl)

/-- A quadruple on arguments that come to the same does the same. -/
theorem StandsIn.mapArgs (same : ∀ a ∈ q.op.args, Covers strict Eq (m.arg g a) (m.arg g (f a))) :
    m.StandsIn strict strings g q (q.mapArgs f) := by
  by_cases call : q.op.isCall
  · obtain ⟨name, xs, call⟩ : ∃ name xs, q.op = .call name xs := by
      cases op : q.op <;> simp_all [Op.isCall]
    have changed : q.mapArgs f = ⟨q.result, .call name (xs.map f)⟩ := by rw [Quad.mapArgs, call]; rfl
    rw [call] at same
    rw [changed]
    exact .call call (covers_args (m := m.tick) same)
  · have plain : q.op.isCall = false := Bool.eq_false_iff.2 call
    have plain' : (q.op.mapArgs f).isCall = false := by
      rw [← plain]
      cases q.op with
      | ret x => cases x <;> rfl
      | _ => rfl
    exact .act plain plain' (covers_act rfl (covers_effect (m := m.tick) same))

/-- Passing a quadruple leads from one state to another, with a value or none for the result. -/
structure Carries (strings : StringPool) (g : Graph) (q : Quad) (x : Option Value) (m n : Machine) :
    Prop extends Passed ∅ g q x m n where
  yields : m.Yields strings g q x
  room : n.room = m.room
  declared : ∀ r ∈ q.result, x.isSome → r < g.vars.size

/-- What has received a value is in the table. -/
theorem declared_of_destination {r : Option VarId} (delivered : m.destination g r x = .ok d) :
    ∀ v ∈ r, x.isSome → v < g.vars.size := by
  rintro v rfl valued
  obtain ⟨y, rfl⟩ := Option.isSome_iff_exists.1 valued
  obtain ⟨p, placed, -⟩ := destination_eq_ok.1 delivered
  obtain ⟨z, declared, -⟩ := place_eq_ok.1 placed
  exact (Array.getElem?_eq_some_iff.1 declared).1

end Machine

/-! ## Mirroring -/

/-- The second function does what the first does at its points. -/
structure Graph.Mirrors (strict : Prop) (strings : StringPool) (holds : Point → Prop) (g g' : Graph) : Prop where
  alike : g.Alike g'
  entry : g'.entry = g.entry
  quad : ∀ (p : Point) (q : Quad), p.graph = g → holds p → p.quad? = some q →
    ∃ q', (g'.body p.block)[p.index]? = some q' ∧ p.machine.StandsIn strict strings g q q'
  tail : ∀ p : Point, p.graph = g → holds p → p.quad? = none → (g'.body p.block)[p.index]? = none ∧
    Covers strict Eq (p.machine.tick.next g (g.tail p.block)) (p.machine.tick.next g (g'.tail p.block))

/-- The two runs are at the same point, of the same function or of one and the one that mirrors it. -/
structure InStep (g g' : Graph) (p p' : Point) : Prop where
  graph : p'.graph = p.graph ∨ (p.graph = g ∧ p'.graph = g')
  spot : p'.spot = p.spot
  machine : p'.machine = p.machine

section Mirrors

variable {before after : List Graph} {holds : Point → Prop} {p p' : Point}
  (mirrors : g.Mirrors strict program.strings holds g') {h' : Graph}

include mirrors in
theorem Graph.Mirrors.enter (related : h' = h ∨ (h = g ∧ h' = g')) (args : List Value) :
    Frame.enter h' args = Frame.enter h args := by
  rcases related with rfl | ⟨rfl, rfl⟩
  · rfl
  · exact mirrors.alike.enter args

namespace InStep

section

include mirrors

/-- The start of an activation. -/
theorem start (related : h' = h ∨ (h = g ∧ h' = g')) (callers callers' : List Graph) (m : Machine) (frame : Frame) :
    InStep g g' (.start callers h m frame) (.start callers' h' m frame) where
  graph := related
  spot := by
    rcases related with rfl | ⟨rfl, rfl⟩
    · rfl
    · exact congrArg (Spot.mk · 0) mirrors.entry
  machine := rfl

variable (step : InStep g g' p p')
include step

theorem alike : p.graph.Alike p'.graph := by
  rcases step.graph with same | ⟨here, there⟩
  · exact same ▸ .refl _
  · rw [here, there]
    exact mirrors.alike

theorem ended (here : p.graph = g → holds p) (ended : p.quad? = none) : p'.quad? = none ∧
    Covers strict Eq (p.machine.tick.next p.graph p.tail) (p'.machine.tick.next p'.graph p'.tail) := by
  obtain ⟨block, index⟩ := Spot.mk.inj step.spot
  rw [(step.alike mirrors).akin.next, step.machine, Point.quad?, Point.tail, Point.tail, block, index]
  rcases step.graph with same | ⟨same, there⟩
  · rw [same]
    exact ⟨ended, .of_eq rfl⟩
  · rw [there, same]
    exact mirrors.tail p same (here same) ended

theorem standsIn (here : p.graph = g → holds p) (next : p.quad? = some q) :
    ∃ q', p'.quad? = some q' ∧ p.machine.StandsIn strict program.strings p.graph q q' := by
  obtain ⟨block, index⟩ := Spot.mk.inj step.spot
  rw [Point.quad?, block, index]
  rcases step.graph with same | ⟨same, there⟩
  · rw [same]
    exact ⟨q, next, .refl ..⟩
  · rw [there, same]
    exact mirrors.quad p q same (here same) next

/-- The same call in both programs enters the same function, or the one that mirrors it. -/
theorem callee (listed : program.graphs = before ++ g :: after) (name : Label) {xs' : List Arg}
    (args : Covers strict Eq (p.machine.tick.args p.graph xs) (p.machine.tick.args p.graph xs')) :
    Covers strict (fun a a' => (a'.1 = a.1 ∨ (a.1 = g ∧ a'.1 = g')) ∧ a.2 = a'.2) (p.callee program name xs)
      (p'.callee { program with graphs := before ++ g' :: after } name xs') := by
  have related : Option.Rel (fun h h' => h' = h ∨ (h = g ∧ h' = g')) _ _ :=
    graph?_rel listed mirrors.alike.name (fun _ => .inl rfl) (.inr ⟨rfl, rfl⟩) name
  unfold Point.callee
  rw [(step.alike mirrors).akin.args, step.machine]
  refine args.bind_eq fun values _ => ?_
  generalize program.graph? name = found at related
  generalize Module.graph? { program with graphs := before ++ g' :: after } name = found' at related
  cases related with
  | none => exact ⟨fun _ ok => (by cases ok), fun _ _ => id⟩
  | @some h h' related =>
    refine (Covers.of_eq (mirrors.enter related values)).bind_eq fun frame _ => ?_
    exact .pure ⟨related, rfl⟩

end

theorem goto (step : InStep g g' p p') (b : BlockId) : InStep g g' (p.goto b) (p'.goto b) :=
  ⟨step.graph, rfl, congrArg Machine.tick step.machine⟩

theorem advance (step : InStep g g' p p') (m : Machine) : InStep g g' (p.advance m) (p'.advance m) :=
  ⟨step.graph, congrArg Spot.next step.spot, rfl⟩

end InStep

variable (listed : program.graphs = before ++ g :: after)
include mirrors listed

/-- Runs in lockstep come to the same. -/
theorem InStep.result (step : InStep g g' p p') (watched : ∀ r, Visits program p r → r.graph = g → holds r)
    (fuel : Nat) :
    Covers strict Eq (p.result program fuel) (p'.result { program with graphs := before ++ g' :: after } fuel) := by
  induction fuel generalizing p p' with
  | zero => exact .of_eq rfl
  | succ fuel later =>
    by_cases live : p.Live
    · have live' : p'.Live := by rwa [Point.Live, step.machine]
      have here := watched p .here
      cases next : p.quad? with
      | none =>
        obtain ⟨next', way⟩ := step.ended mirrors here next
        rw [result_tail live next, result_tail live' next']
        refine way.bind ?_
        rintro (b | x) _ led rfl
        · exact later (step.goto b) fun r visits => watched r (.jump next live led visits)
        · rw [step.machine]
          exact .of_eq rfl
      | some q =>
        obtain ⟨q', next', stands⟩ := step.standsIn mirrors here next
        cases stands with
        | act plain plain' same =>
          rw [result_act live next plain, result_act live' next' plain', (step.alike mirrors).akin.act, step.machine]
          refine same.bind_eq fun k acted => ?_
          exact later (step.advance k) fun r visits => watched r (.act next plain live acted visits)
        | call call args =>
          rw [result_call live next call, result_call live' next' rfl]
          refine (step.callee mirrors listed _ args).bind ?_
          rintro ⟨h, frame⟩ ⟨h', _⟩ admitted ⟨related, rfl⟩
          obtain ⟨values, evaluated, found, entered⟩ := callee_eq_ok.1 admitted
          have into : InStep g g' (p.into h frame) (p'.into h' frame) := by
            unfold Point.into
            rw [step.machine]
            exact .start mirrors related _ _ _ _
          have inner := later into fun r visits => watched r (.into next call live evaluated found entered visits)
          refine inner.bind_eq fun ⟨y, k⟩ ran => ?_
          refine (Covers.of_eq ((step.alike mirrors).akin.destination ..)).bind_eq fun d back => ?_
          exact later (step.advance _) fun r visits =>
            watched r (.past next call live evaluated found entered (.of_result ran) back visits)
    · have cut : ¬p'.Live := by rwa [Point.Live, step.machine]
      rw [result_cut live, result_cut cut]
      exact .of_eq rfl

/-- A function that mirrors another one can stand in its place. -/
theorem Graph.Mirrors.run (watched : ∀ p, program.Comes entry args input p → p.graph = g → holds p) :
    Covers strict Eq (program.run entry args input)
      (Module.run { program with graphs := before ++ g' :: after } entry args input) := by
  have related : Option.Rel (fun h h' => h' = h ∨ (h = g ∧ h' = g')) _ _ :=
    graph?_rel listed mirrors.alike.name (fun _ => .inl rfl) (.inr ⟨rfl, rfl⟩) entry
  rw [run_eq_result, run_eq_result]
  refine (Covers.of_eq rfl).bind_eq fun m started => ?_
  generalize found : program.graph? entry = one at related
  generalize Module.graph? { program with graphs := before ++ g' :: after } entry = other at related
  cases related with
  | none => exact .of_eq rfl
  | @some h h' related =>
    refine (Covers.of_eq (mirrors.enter related args)).bind_eq fun frame entered => ?_
    have step : InStep g g' (.start [] h m frame) (.start [] h' m frame) := .start mirrors related ..
    have same := step.result mirrors listed (fun r visits => watched r ⟨m, h, frame, started, found, entered, visits⟩)
      (stepLimit + 1)
    exact same.bind_eq fun a _ => .of_eq rfl

end Mirrors

/-! ## Recasting -/

/-- The second function does at each spot exactly what the first does there, as long as what is known there holds
and the quadruple is run under fair conditions. -/
structure Graph.Recasts (strings : StringPool) (fair : Machine → Quad → Prop) (knows : Spot → Machine → Prop)
    (g g' : Graph) : Prop where
  alike : g.Alike g'
  entry : g'.entry = g.entry
  start : ∀ b ∈ g.layout, ∀ m, knows ⟨b, 0⟩ m
  quad : ∀ (s : Spot) (m : Machine) (q : Quad), s.block ∈ g.layout → (g.body s.block)[s.index]? = some q →
    m.Shaped g → knows s m → fair m q →
    ∃ q', (g'.body s.block)[s.index]? = some q' ∧ m.StandsIn True strings g q q'
  step : ∀ (s : Spot) (m n : Machine) (q : Quad) (x : Option Value), s.block ∈ g.layout →
    (g.body s.block)[s.index]? = some q → knows s m → m.Carries strings g q x n → knows s.next n
  ended : ∀ (s : Spot), s.block ∈ g.layout → (g.body s.block)[s.index]? = none → (g'.body s.block)[s.index]? = none
  tail : ∀ (s : Spot) (m : Machine), s.block ∈ g.layout → (g.body s.block)[s.index]? = none →
    m.Shaped g → knows s m → m.tick.next g (g'.tail s.block) = m.tick.next g (g.tail s.block)

/-- What is asked of a point of the first run: its pointers are confined, and its quadruple is run under fair
conditions. -/
def Point.Orderly (fair : Machine → Quad → Prop) (g : Graph) (p : Point) : Prop :=
  p.Confined ∧ (p.graph = g → ∀ q ∈ p.quad?, fair p.machine q)

/-- What is known at a point of the function holds. -/
def Point.Knows (knows : Spot → Machine → Prop) (g : Graph) (p : Point) : Prop :=
  p.graph = g → p.block ∈ g.layout ∧ p.machine.Shaped g ∧ knows p.spot p.machine

section Recasts

variable {before after : List Graph} {fair : Machine → Quad → Prop} {knows : Spot → Machine → Prop} {p r : Point}
  {k : Machine}

namespace Point

/-- What a quadruple other than a call does to the state. -/
theorem Confined.carries (confined : p.Confined) (framed : p.Framed) (next : p.quad? = some q)
    (safe : p.graph.StoresToMemory q) (acted : p.machine.tick.act program.strings p.graph q = .ok k) :
    ∃ x, p.machine.Carries program.strings p.graph q x k := by
  obtain ⟨e, d, done, delivered, same⟩ := act_eq_ok.1 acted
  exact ⟨e.result?, (confined.fenced ∅).passed framed next safe done acted, fun _ => ⟨e, done, rfl⟩,
    (act_room acted :), declared_of_destination delivered⟩

theorem Spared.carries {name : Label} {y : Option Value} (spared : Spared ∅ (p.callers ++ [p.graph]) p.machine k)
    (framed : p.Framed) (call : q.op = .call name xs) (back : k.destination p.graph q.result y = .ok d)
    (strings : StringPool) :
    p.machine.Carries strings p.graph q y (k.deliver d) where
  toPassed := spared.passed framed back
  yields plain := by cases (congrArg Op.isCall call).symm.trans plain
  room := (deliver_room _ _).trans spared.room
  declared := declared_of_destination back

end Point

variable (recasts : g.Recasts program.strings fair knows g') (listed : program.graphs = before ++ g :: after)
include recasts

theorem Point.Knows.advance (here : p.Knows knows g) (next : p.quad? = some q)
    (carries : p.graph = g → ∃ x, p.machine.Carries program.strings p.graph q x k) : (p.advance k).Knows knows g := by
  intro same
  obtain rfl : p.graph = g := same
  obtain ⟨laid, shaped, holds⟩ := here rfl
  obtain ⟨x, carried⟩ := carries rfl
  exact ⟨laid, shaped.of_room carried.size carried.room, recasts.step p.spot p.machine k q x laid next holds carried⟩

variable (linked : g.Linked)
include linked

theorem Graph.Recasts.knows_start {frame : Frame} (entered : Frame.enter h args = .ok frame) (callers : List Graph)
    (m : Machine) :
    (Point.start callers h m frame).Knows knows g := by
  rintro rfl
  exact ⟨linked.entry_mem, Frame.enter_shaped m entered, recasts.start _ linked.entry_mem _⟩

variable (stores : ∀ q ∈ g.bodies, g.StoresToMemory q)
include stores

/-- What is known holds wherever a confined run comes. -/
theorem Point.Knows.visits (visits : Visits program p r) (framed : p.Framed) (here : p.Knows knows g)
    (confined : ∀ r, Visits program p r → r.Confined) : r.Knows knows g := by
  induction visits with
  | here => exact here
  | @jump p r b next live jumped _ ih =>
    refine ih (framed.goto b) (fun same => ?_) fun r later => confined r (.jump next live jumped later)
    obtain rfl : p.graph = g := same
    obtain ⟨laid, shaped, -⟩ := here rfl
    have laid' := linked.target_mem laid (next_target jumped)
    exact ⟨laid', shaped, recasts.start b laid' _⟩
  | @act p r q k next plain live acted _ ih =>
    have size : k.frames.size = p.machine.frames.size := (act_frames_size acted :)
    refine ih (framed.advance size) (here.advance recasts next fun same => ?_) fun r later =>
      confined r (.act next plain live acted later)
    obtain rfl : p.graph = g := same
    have safe := stores q (mem_flatMap.2 ⟨p.block, (here rfl).1, mem_of_getElem? next⟩)
    exact (confined p .here).carries framed next safe acted
  | into next call live evaluated found entered _ ih =>
    exact ih (framed.into _ _) (recasts.knows_start linked entered _ _) fun r later =>
      confined r (.into next call live evaluated found entered later)
  | @past p r q name xs args h frame y k d next call live evaluated found entered run back _ ih =>
    have contained (r : Point) (visits : Visits program (p.into h frame) r) : r.Contained ∅ program.strings :=
      ((confined r (.into next call live evaluated found entered visits)).fenced ∅).contained _
    have spared := (run.spares (framed.into h frame) contained).pop framed
    have size : (k.pop.deliver d).frames.size = p.machine.frames.size :=
      (deliver_frames_size _ _).trans spared.size
    exact ih (framed.advance size) (here.advance recasts next fun _ => ⟨y, spared.carries framed call back _⟩)
      fun r later => confined r (.past next call live evaluated found entered run back later)

omit linked stores in
theorem Graph.Recasts.mirrors : g.Mirrors True program.strings (fun p => p.Knows knows g ∧ p.Orderly fair g) g' where
  alike := recasts.alike
  entry := recasts.entry
  quad p q here holds next := by
    subst here
    obtain ⟨knows, -, even⟩ := holds
    obtain ⟨laid, shaped, known⟩ := knows rfl
    exact recasts.quad p.spot p.machine q laid next shaped known (even rfl q next)
  tail p here holds ended := by
    subst here
    obtain ⟨laid, shaped, known⟩ := holds.1 rfl
    exact ⟨recasts.ended p.spot laid ended, .of_eq (recasts.tail p.spot p.machine laid ended shaped known)⟩

include listed in
/-- A function that recasts another one can stand in its place: every run gives exactly what it gave. -/
theorem Graph.Recasts.run (orderly : ∀ p, program.Comes entry args input p → p.Orderly fair g) :
    Module.run { program with graphs := before ++ g' :: after } entry args input = program.run entry args input := by
  refine (recasts.mirrors.run listed fun p comes _ => ⟨?_, orderly p comes⟩).eq
  obtain ⟨m, h, frame, started, found, entered, visits⟩ := comes
  refine Point.Knows.visits recasts linked stores visits (framed_start started h frame)
    (recasts.knows_start linked entered [] m) fun r later => ?_
  exact (orderly r ⟨m, h, frame, started, found, entered, later⟩).1

end Recasts

end Quadcode
