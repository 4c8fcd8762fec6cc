import Quadcode.Proofs.Graph.Rebuilding

/-!
# Running a function that was rebuilt

A function and what is rebuilt from its flat form go through the same quadruples and the same tests.
They differ in the number of steps only: a jump to the next block is gone from the flat form, and a
block that was cut in two takes a step more.
-/

namespace Quadcode

open List Quadcode.Graph Segment Quadcode.Module

variable {g h : Graph} {program : Module}

/-! ## Programs that differ in one function -/

/-- A function stays, or gives way to another one. -/
def Replaced (g h k k' : Graph) : Prop := k' = k ∨ (k = g ∧ k' = h)

theorem Module.parallel_replace {before after : List Graph}
    (listed : program.graphs = before ++ g :: after) (alike : g.Alike h) :
    Module.Parallel (Replaced g h) program { program with graphs := before ++ h :: after } where
  strings := rfl
  graphs := graph?_rel listed alike.name (fun _ => .inl rfl) (.inr ⟨rfl, rfl⟩)
  alike paired := by
    rcases paired with rfl | ⟨rfl, rfl⟩
    · exact .refl _
    · exact alike

namespace Machine

variable {m n : Machine}

theorem Same.test (same : m.Same n) (c : Comparison) (x y : Arg) : n.test g c x y = m.test g c x y := by
  obtain ⟨steps, rfl⟩ := same
  rfl

theorem Same.returned (same : m.Same n) (x : Option Arg) : n.returned g x = m.returned g x := by
  obtain ⟨steps, rfl⟩ := same
  rfl

/-- Two ways on that go by one value agree if they do so for each outcome of it. -/
theorem Agree.map {α β γ δ : Type} {x : Except Stop α} {go : α → β} {go' : α → γ}
    {next : β → Machine → Except Stop δ × Machine} {next' : γ → Machine → Except Stop δ × Machine} (same : m.Same n)
    (each : ∀ a, Agree (next (go a) m) (next' (go' a) n)) :
    Agree (Machine.andThen (go <$> x, m) next) (Machine.andThen (go' <$> x, n) next') := by
  cases x with
  | error e => exact .of_same same _
  | ok a => exact each a

end Machine

/-! ## Places that correspond -/

namespace Graph

open Build Machine

variable {s : Supply} {labels : List Label} {b c : BlockId} {more : List BlockId}

theorem Renders.alike (renders : h.Renders g.toFunction labels) : g.Alike h :=
  ⟨renders.vars, renders.params, renders.name⟩

/-- The flat code from a place inside a block on. -/
def restCode (g : Graph) (more : List BlockId) (b : BlockId) (rest : List Quad) : List Quad :=
  rest ++ (g.tailQuads more.head? (g.tail b) ++ g.linearFrom more)

theorem linearFrom_eq : g.linearFrom (b :: more) = .effect (.label (g.label b)) :: g.restCode more b (g.body b) := by
  rw [linearFrom_cons, blockCode, append_assoc, cons_append]
  rfl

variable {rest rest' : List Quad} {t' : Tail}

theorem restCode_suffix (place : b :: more <:+ g.layout) (inside : rest <:+ g.body b) :
    g.restCode more b rest <:+ g.toFunction.quads := by
  obtain ⟨front, body⟩ := inside
  have whole := code_suffix place
  rw [linearFrom_eq, restCode, ← body, append_assoc] at whole
  exact ((suffix_append front _).trans (suffix_cons _ _)).trans whole

/-- Code of two functions that does the same: equal code of one function, or what is left of a block of
`g` and of the block of `h` in which the flat code of `g` goes on. -/
inductive Twin (g h : Graph) (labels : List Label) : Graph → List Quad → Tail → Graph → List Quad → Tail → Prop
  | same {k : Graph} {rest : List Quad} {t : Tail} : Twin g h labels k rest t k rest t
  | moved {b : BlockId} {more : List BlockId} {rest rest' : List Quad} {t' : Tail}
      (place : b :: more <:+ g.layout) (inside : rest <:+ g.body b)
      (stands : Stands g.toFunction labels (split (g.restCode more b rest)) rest' t') :
      Twin g h labels g rest (g.tail b) h rest' t'

/-- Behind its label, the code of a block corresponds to the block. -/
theorem Twin.of_at (place : c :: more <:+ g.layout)
    (at_ : At g.toFunction labels (split (g.linearFrom (c :: more))) rest' t') :
    Twin g h labels g (g.body c) (g.tail c) h rest' t' := by
  have suffix := tail_split_suffix (code_suffix place)
  rw [linearFrom_eq, split_cons] at at_ suffix
  exact .moved place suffix_rfl (at_.label rfl suffix)

theorem Twin.of_label (renders : h.Renders g.toFunction labels) (member : c ∈ g.layout)
    (resolved : resolve g.toFunction labels (g.label c) = .ok b) :
    Twin g h labels g (g.body c) (g.tail c) h (h.body b) (h.tail b) := by
  obtain ⟨more, place⟩ := exists_suffix member
  have suffix := code_suffix place
  refine .of_at place ?_
  rw [linearFrom_eq] at suffix ⊢
  exact at_label renders resolved suffix rfl

theorem Twin.entry (orderly : g.Orderly s) (renders : h.Renders g.toFunction labels) :
    Twin g h labels g (g.body g.entry) (g.tail g.entry) h (h.body h.entry) (h.tail h.entry) := by
  obtain ⟨more, layout⟩ := orderly.layout_eq
  have start := at_entry renders
  change At _ _ (split (g.linearFrom g.layout)) _ _ at start
  rw [layout] at start
  exact .of_at (layout ▸ suffix_rfl) start

/-! ## One step of both -/

/-- With so much fuel, corresponding code agrees in two programs. -/
def Simulates (g h : Graph) (labels : List Label) (program program' : Module) (fuel : Nat) : Prop :=
  ∀ ⦃fuel' : Nat⦄ ⦃k k' : Graph⦄ ⦃rest rest' : List Quad⦄ ⦃t t' : Tail⦄ ⦃m n : Machine⦄,
    Twin g h labels k rest t k' rest' t' → m.Same n →
      Agree (m.exec program fuel k rest t) (n.exec program' fuel' k' rest' t')

variable {program' : Module}

namespace Simulates

variable {fuel fuel' : Nat} {m n : Machine} (simulates : g.Simulates h labels program program' fuel)
  (renders : h.Renders g.toFunction labels)
include simulates renders

/-- The code for a jump goes to the block, by itself or because that comes next. -/
theorem goto (place : b :: more <:+ g.layout) (member : c ∈ g.layout)
    (stands : Stands g.toFunction labels (split (tailQuads.goto g more.head? c ++ g.linearFrom more)) rest' t')
    (same : m.Same n) : Agree (m.exec program fuel g (g.body c) (g.tail c)) (n.exec program' fuel' h rest' t') := by
  refine stands.agree renders same fun {fuel' rest' t' n} at_ same => ?_
  rw [tailQuads.goto] at at_
  split at at_
  next follows =>
    obtain ⟨rest, rfl⟩ := head?_eq_some follows
    exact simulates (.of_at ((suffix_cons b _).trans place) at_) same
  · rw [singleton_append, split_cons] at at_
    obtain ⟨rfl, ended⟩ := at_.leaving rfl
    simp only [Build.tail, bind_eq_ok, pure_eq_ok] at ended
    obtain ⟨d, resolved, rfl⟩ := ended
    rw [exec_nil]
    exact .stepped_right same fun same => simulates (.of_label renders member resolved) same

variable (orderly : g.Orderly s) {k : Graph}
include orderly

/-- A function agrees with the one that takes its place. -/
theorem entered {k' : Graph} (replaced : Replaced g h k k') (same : m.Same n) :
    Agree (m.exec program fuel k (k.body k.entry) (k.tail k.entry))
      (n.exec program' fuel' k' (k'.body k'.entry) (k'.tail k'.entry)) := by
  rcases replaced with rfl | ⟨rfl, rfl⟩
  · exact simulates .same same
  · exact simulates (.entry orderly renders) same

/-- Code that stands in both programs agrees with itself. -/
theorem same_code (parallel : Module.Parallel (Replaced g h) program program') {t : Tail} (same : m.Same n) :
    Agree (m.exec program (fuel + 1) k rest t) (n.exec program' (fuel' + 1) k rest t) := by
  cases rest with
  | nil =>
    rw [exec_nil, exec_nil]
    refine .stepped same fun same => ?_
    rw [same.next]
    refine .andThen (.of_same same _) fun way _ _ same => ?_
    cases way with
    | inl b => exact simulates .same same
    | inr x => exact .of_same same _
  | cons q rest =>
    rw [exec_cons, exec_cons]
    refine .stepped same fun same => ?_
    exact .andThen (.quad parallel (.refl k) (fun replaced _ _ same =>
      simulates.entered renders orderly replaced same) same) fun _ _ _ same => simulates .same same

variable (place : b :: more <:+ g.layout)
include place

/-- A test leads both to the same block. -/
theorem branch {k : Comparison} {x y : Arg} {onTrue onFalse : BlockId}
    (tail_b : g.tail b = .branch k x y onTrue onFalse)
    (at_ : At g.toFunction labels (split (g.restCode more b [])) rest' t') (same : m.Same n) :
    Agree (m.exec program (fuel + 1) g [] (.branch k x y onTrue onFalse)) (n.exec program' (fuel' + 1) h rest' t') := by
  have member : b ∈ g.layout := place.subset mem_cons_self
  have leads : ∀ c ∈ [onTrue, onFalse], c ∈ g.layout := by
    intro c edge
    refine orderly.target_mem member ?_
    rw [targets, tail_b]
    exact edge
  have suffix := tail_split_suffix (restCode_suffix place (nil_suffix (l := g.body b)))
  rw [restCode, nil_append, tail_b, tailQuads] at at_ suffix
  -- The code jumps on a failed test if the block for a true one comes next. Otherwise it jumps on a
  -- true one, and the code for a jump follows.
  split at at_
  next follows =>
    rw [if_pos follows] at suffix
    rw [singleton_append, split_cons] at at_ suffix
    rw [cons_leaving rfl] at suffix
    obtain ⟨rest, rfl⟩ := head?_eq_some follows
    obtain ⟨rfl, ended⟩ := at_.leaving rfl
    simp only [Build.tail, bind_eq_ok, pure_eq_ok] at ended
    obtain ⟨d, next, d', resolved, rfl⟩ := ended
    rw [exec_nil, exec_nil]
    refine .stepped same fun same => ?_
    rw [next_branch, next_branch, renders.alike.test, same.test]
    refine .map same fun taken => ?_
    cases taken with
    | true =>
      exact simulates (.of_at ((suffix_cons b _).trans place) (at_following renders suffix next)) same
    | false => exact simulates (.of_label renders (leads onFalse (by simp)) resolved) same
  next other =>
    rw [if_neg other] at suffix
    rw [cons_append, split_cons] at at_ suffix
    rw [cons_leaving rfl] at suffix
    obtain ⟨rfl, ended⟩ := at_.leaving rfl
    simp only [Build.tail, bind_eq_ok, pure_eq_ok] at ended
    obtain ⟨d, resolved, d', next, rfl⟩ := ended
    rw [exec_nil, exec_nil]
    refine .stepped same fun same => ?_
    rw [next_branch, next_branch, renders.alike.test, same.test]
    refine .map same fun taken => ?_
    cases taken with
    | true => exact simulates (.of_label renders (leads onTrue (by simp)) resolved) same
    | false =>
      exact simulates.goto renders place (leads onFalse (by simp)) (.here (at_following renders suffix next)) same

/-- A tail and the code for it agree. -/
theorem tail (stands : Stands g.toFunction labels (split (g.restCode more b [])) rest' t') (same : m.Same n) :
    Agree (m.exec program (fuel + 1) g [] (g.tail b)) (n.exec program' fuel' h rest' t') := by
  have member : b ∈ g.layout := place.subset mem_cons_self
  cases tail_b : g.tail b with
  | jump c | fall c =>
    have leads : c ∈ g.layout := by
      refine orderly.target_mem member ?_
      rw [targets, tail_b]
      exact mem_singleton.2 rfl
    rw [restCode, nil_append, tail_b] at stands
    rw [exec_nil]
    exact .stepped_left same fun same => simulates.goto renders place leads stands same
  | branch k x y onTrue onFalse =>
    exact stands.agree renders same fun at_ same =>
      simulates.branch renders orderly place tail_b at_ same
  | ret x =>
    refine stands.agree renders same fun {fuel' rest' t' n} at_ same => ?_
    rw [restCode, nil_append, tail_b, tailQuads, singleton_append, split_cons] at at_
    obtain ⟨rfl, ended⟩ := at_.leaving rfl
    obtain rfl : .ret x = t' := pure_eq_ok.1 ended
    rw [exec_nil, exec_nil]
    refine .stepped same fun same => ?_
    rw [next_ret, next_ret, renders.alike.returned, same.returned]
    exact .map same fun x => .of_same same _

/-- A quadruple of a block and the same one in the code agree. -/
theorem quad (parallel : Module.Parallel (Replaced g h) program program') {q : Quad} (inside : q :: rest <:+ g.body b)
    (stands : Stands g.toFunction labels (split (g.restCode more b (q :: rest))) rest' t') (same : m.Same n) :
    Agree (m.exec program (fuel + 1) g (q :: rest) (g.tail b)) (n.exec program' fuel' h rest' t') := by
  have plain : q.op.isControl = false :=
    orderly.plain b (place.subset mem_cons_self) q (inside.subset mem_cons_self)
  have suffix := tail_split_suffix (restCode_suffix place inside)
  refine stands.agree renders same fun {fuel' rest' t' n} at_ same => ?_
  rw [restCode, cons_append, split_cons] at at_ suffix
  obtain ⟨rest', rfl, stands⟩ := at_.other plain suffix
  rw [exec_cons, exec_cons]
  refine .stepped same fun same => ?_
  refine .andThen (.quad parallel renders.alike (fun replaced _ _ same =>
    simulates.entered renders orderly replaced same) same) fun _ _ _ same => ?_
  exact simulates (.moved place ((suffix_cons q rest).trans inside) stands) same

end Simulates

/-- Wherever the code of two such programs corresponds, it goes on alike. -/
theorem simulates_all (parallel : Module.Parallel (Replaced g h) program program') (orderly : g.Orderly s)
    (renders : h.Renders g.toFunction labels) (fuel : Nat) : g.Simulates h labels program program' fuel := by
  -- Only the fuel of the old program goes down at each step: the rebuilt one may stand still where
  -- a jump is gone, so its fuel is arbitrary throughout.
  induction fuel with (intro fuel' k k' rest rest' t t' m n twin same)
  | zero =>
    exact .inl rfl
  | succ fuel ih =>
    cases twin with
    | same =>
      cases fuel' with
      | zero => exact .inr (.inl rfl)
      | succ fuel' => exact ih.same_code renders orderly parallel same
    | moved place inside stands =>
      cases rest with
      | nil => exact ih.tail renders orderly place stands same
      | cons q rest => exact ih.quad renders orderly place parallel inside stands same

end Graph

/-- A function can be rebuilt from its flat form. The rebuilt one has the same quadruples in the same
order, and every program in which it takes the place of the old one does what it did: calls and runs
end with the same value or error and the same output, unless the limit of steps cuts one of the two
off. -/
theorem Graph.rebuild_agrees {g : Graph} {s : Supply} (orderly : g.Orderly s) :
    ∃ h s', Graph.build g.toFunction s = .ok (h, s') ∧ h.linearize.filter (!·.op.isControl) = g.bodies ∧
      ∀ (program : Module) (before after : List Graph), program.graphs = before ++ g :: after →
        let rebuilt : Module := { program with graphs := before ++ h :: after }
        (∀ (m : Machine) (name : Label) (args : List Value),
          Machine.Agree (m.call program name args) (m.call rebuilt name args)) ∧
        ∀ (entry : Label) (args : List Value) (input : List Int32), program.run entry args input = .error .outOfSteps ∨
            rebuilt.run entry args input = .error .outOfSteps ∨
            rebuilt.run entry args input = program.run entry args input := by
  obtain ⟨h, s', built⟩ := orderly.build_ok
  have renders := build_renders built
  refine ⟨h, s', built, orderly.filter_linearize built, fun program before after listed => ?_⟩
  have parallel := parallel_replace listed renders.alike
  have calls : ∀ (m : Machine) (name : Label) (args : List Value), Machine.Agree (m.call program name args)
        (m.call { program with graphs := before ++ h :: after } name args) := by
    intro m name args
    refine .enter parallel (fun replaced _ _ same => ?_) (.refl m) name args
    exact (simulates_all parallel orderly renders _).entered renders orderly replaced same
  exact ⟨calls, fun entry args input => run_agree rfl fun m => calls m entry args⟩

/-- Counts down and prints. A call stands in the middle of the block `start`, which runs on into the
next one, and the last block is a test. The variables `n` and `t` are 0 and 1. -/
def shuffled : Graph where
  name := "shuffled"
  ret := some .int
  vars := #[.declare "n" .int .param, .declare "t" .int .temporary]
  params := [0]
  blocks := #[
    { label := "start", body := [⟨some 1, .call "less" [.var 0]⟩, ⟨some 0, .assign (.var 1)⟩], tail := .jump 3 },
    { label := "done", tail := .ret (some (.var 0)) },
    { label := "test", tail := .branch .gt (.var 0) (.const (.int 0)) 0 1 },
    { label := ".B3", body := [.effect (.print (.var 0))], tail := .jump 2 }]
  layout := [0, 3, 1, 2]
  entry := 0

theorem shuffled_orderly : shuffled.Orderly ⟨4⟩ where
  entry_first := rfl
  layout_nodup := by decide
  mem_layout b := by
    have inside : shuffled.Inside := inside_of_targets (by decide) (by decide)
    rw [← inside.mem_liveLayout, show shuffled.liveLayout = shuffled.layout by decide +kernel]
  labels := by decide
  drawn b member n same := by
    have written : ∀ b ∈ shuffled.layout, b = 3 ∨ (shuffled.label b).toList.head? ≠ some '.' := by
      decide
    rcases written b member with rfl | other
    · have third : shuffled.label 3 = blockStem ++ toString 3 := by decide +kernel
      exact drawn_inj (third.symm.trans same) ▸ Nat.lt_succ_self 3
    · rw [same, String.toList_append] at other
      exact absurd rfl other
  plain := by decide

/-- The rebuilt function has two blocks more: one behind the call, and one for a way out of the test. -/
theorem shuffled_rebuild_agrees : shuffled.Orderly ⟨4⟩ ∧
    Module.run ⟨[], .empty, [less.graph, shuffled]⟩ "shuffled" [.int 2] [] = .ok ⟨some (.int 0), "10"⟩ ∧
    ∃ h s', Graph.build shuffled.toFunction ⟨4⟩ = .ok (h, s') ∧ h.layout.length = 6 ∧
      h.linearize.filter (!·.op.isControl) = shuffled.bodies ∧
      Module.run ⟨[], .empty, [less.graph, h]⟩ "shuffled" [.int 2] [] = .ok ⟨some (.int 0), "10"⟩ := by
  have ran : Module.run ⟨[], .empty, [less.graph, shuffled]⟩ "shuffled" [.int 2] [] =
      .ok ⟨some (.int 0), "10"⟩ := by decide +kernel
  have answers : ((Graph.build shuffled.toFunction ⟨4⟩).toOption.map fun r =>
      (r.1.layout.length, (Module.run ⟨[], .empty, [less.graph, r.1]⟩ "shuffled" [.int 2] []).isOk)) =
        some (6, true) := by decide +kernel
  obtain ⟨h, s', built, order, runs⟩ := rebuild_agrees shuffled_orderly
  obtain ⟨-, outcome⟩ := runs ⟨[], .empty, [less.graph, shuffled]⟩ [less.graph] [] rfl
  simp only [built, Except.toOption, Option.map_some, Option.some.injEq, Prod.mk.injEq] at answers
  refine ⟨shuffled_orderly, ran, h, s', built, answers.1, order, ?_⟩
  rcases outcome "shuffled" [.int 2] [] with cut | cut | same
  · cases ran.symm.trans cut
  · have ok : (Module.run ⟨[], .empty, [less.graph, h]⟩ "shuffled" [.int 2] []).isOk := answers.2
    have cut : Module.run ⟨[], .empty, [less.graph, h]⟩ "shuffled" [.int 2] [] = _ := cut
    rw [cut] at ok
    cases ok
  · exact same.trans ran

end Quadcode
