import Quadcode.Proofs.Eval.Agreement
import Quadcode.Proofs.Graph.Segments

/-!
# What flat code means

Flat code is run one quadruple after the other, and a jump goes on at the label of its name. The block
form of a function does what its flat code does; it only takes fewer steps where a label stands in the
code, and more where control runs on from one block into the next.
-/

namespace Quadcode

open Segment Tail

variable {g : Graph} {m : Machine}

/-! ## Running flat code -/

/-- Where control goes from a quadruple. -/
inductive Move where
  | on
  | jump (l : Label)
  | leave (x : Option Value)

namespace Machine

/-- The outcome of a comparison of two arguments. -/
def test (m : Machine) (g : Graph) (c : Comparison) (x y : Arg) : Except Stop Bool := do
  let x ← m.arg g x
  let y ← m.arg g y
  c.apply g x y

/-- The value a return hands over. -/
def returned (m : Machine) (g : Graph) : Option Arg → Except Stop (Option Value)
  | none => .ok none
  | some x => some <$> m.arg g x

/-- Runs one quadruple of flat code. -/
def move (program : Module) (fuel : Nat) (g : Graph) (q : Quad) (m : Machine) : Except Stop Move × Machine :=
  match q.op with
  | .label _ => (.ok .on, m)
  | .goto l => (.ok (.jump l), m)
  | .jumpIf c x y l => ((fun taken => if taken then .jump l else .on) <$> m.test g c x y, m)
  | .jumpIfNot c x y l => ((fun taken => if taken then .on else .jump l) <$> m.test g c x y, m)
  | .ret x => (.leave <$> m.returned g x, m)
  | _ => andThen (m.quad program fuel g q) fun _ m => (.ok .on, m)

end Machine

namespace Function

/-- The function with its variables and without its code. -/
def shell (f : Function) : Graph :=
  { name := f.name, ret := f.ret, vars := f.vars, params := f.params, blocks := #[], layout := [], entry := 0 }

/-- Where the label of a name stands. -/
def index? (f : Function) (l : Label) : Option Nat := f.quads.findIdx? (·.op = .label l)

/-- Goes where the quadruple at an index leads; there is no result where no label has the name. -/
def follow (f : Function) (exec : Nat → Machine → Option Ended) (pc : Nat) : Except Stop Move × Machine → Option Ended
  | (.error e, m) => some (.error e, m)
  | (.ok .on, m) => exec (pc + 1) m
  | (.ok (.jump l), m) => (f.index? l).bind fun pc => exec pc m
  | (.ok (.leave x), m) => some (.ok x, m)

/-- Runs flat code from an index on. -/
def exec (f : Function) (program : Module) : (fuel pc : Nat) → Machine → Option Ended
  | 0, _, m => some (.error .outOfSteps, m)
  | fuel + 1, pc, m =>
    match f.quads[pc]? with
    | none => some (.ok none, m)
    | some q =>
      if m.tick.steps > stepLimit then some (.error .outOfSteps, m.tick)
      else f.follow (f.exec program fuel) pc (m.tick.move program fuel f.shell q)

/-- Runs the flat code of a function. -/
def run (f : Function) (program : Module) (m : Machine) : Option Ended := f.exec program (stepLimit + 1) 0 m

end Function

/-- Runs the blocks of a function. -/
def Graph.execute (g : Graph) (program : Module) (m : Machine) : Ended :=
  m.exec program (stepLimit + 1) g (g.body g.entry) (g.tail g.entry)

/-! ## Quadruples and tails -/

namespace Machine

theorem next_branch {c : Comparison} {x y : Arg} {onTrue onFalse : BlockId} : m.next g (.branch c x y onTrue onFalse) =
      (fun taken => .inl (if taken then onTrue else onFalse)) <$> m.test g c x y := by
  simp only [next, test, map_eq_pure_bind, bind_assoc]

theorem next_ret {x : Option Arg} : m.next g (.ret x) = .inr <$> m.returned g x := by
  cases x with
  | none => rfl
  | some x => simp only [next, returned, map_eq_pure_bind, bind_assoc, pure_bind]

end Machine

namespace Graph.Alike

variable {h : Graph} (alike : g.Alike h) (m : Machine) (program : Module) (fuel : Nat)
include alike

theorem test (c : Comparison) (x y : Arg) : m.test h c x y = m.test g c x y := by
  simp only [Machine.test, alike.akin.arg, alike.akin.comparison]

theorem returned (x : Option Arg) : m.returned h x = m.returned g x := by
  cases x <;> simp only [Machine.returned, alike.akin.arg]

theorem quad (q : Quad) : m.quad program fuel h q = m.quad program fuel g q := by
  simp only [Machine.quad, alike.akin.args, alike.akin.effect, alike.akin.destination]

theorem move (q : Quad) : m.move program fuel h q = m.move program fuel g q := by
  simp only [Machine.move, alike.test, alike.returned, alike.quad]

end Graph.Alike

/-! ## Where flat code and blocks stand -/

variable {l : Label} {b : BlockId} {op : Op} {rest : List Quad} {t : Tail} {q : Quad} {labels : List Label}
  {program : Module} {f : Function} {n : Machine} {r : Ended} {fuel : Nat}

namespace Build

/-- What is left of a block when flat code stands in front of some segments. -/
inductive At (f : Function) (labels : List Label) : List Segment → List Quad → Tail → Prop
  | past : At f labels [] [] (.ret none)
  | within {s : Segment} {more : List Segment} {t : Tail}
      (ended : tail f labels (after f more) s.stop = .ok t) : At f labels (s :: more) s.body t

/-- The same, or a block has ended that runs on into the one of the first segment. -/
inductive Stands (f : Function) (labels : List Label) : List Segment → List Quad → Tail → Prop
  | here {segments : List Segment} {rest : List Quad} {t : Tail} (at_ : At f labels segments rest t) :
      Stands f labels segments rest t
  | before {segments : List Segment} (nonempty : segments ≠ []) (suffix : segments <:+ f.segments) :
      Stands f labels segments [] (.fall (f.segments.length - segments.length))

variable {segments : List Segment} {code : List Quad}

/-- The block of a segment is all left to run where the segment starts. -/
theorem at_block (renders : g.Renders f labels) (nonempty : segments ≠ []) (suffix : segments <:+ f.segments) :
    At f labels segments (g.body (f.segments.length - segments.length))
      (g.tail (f.segments.length - segments.length)) := by
  obtain ⟨heads, whole⟩ := suffix
  have index : f.segments.length - segments.length = heads.length := by
    rw [← whole, List.length_append]
    omega
  cases segments with
  | nil => contradiction
  | cons s more =>
    obtain ⟨body, ended⟩ := renders.block heads s more whole
    rw [index, body]
    exact .within ended

/-- Both start at the same place. -/
theorem at_entry (renders : g.Renders f labels) : At f labels (split f.quads) (g.body g.entry) (g.tail g.entry) := by
  rw [renders.entry]
  by_cases empty : f.quads = []
  · rw [empty]
    obtain ⟨body, ended⟩ := renders.block [] {} [] (Function.segments_of_nil empty).symm
    have ret : .ret none = g.tail 0 := pure_eq_ok.1 ended
    rw [List.length_nil] at body
    rw [body, ← ret]
    exact .past
  · have start := at_block renders f.segments_ne_nil List.suffix_rfl
    rwa [Nat.sub_self, Function.segments_eq empty] at start

/-- A segment without a stop runs on. -/
theorem stands_of_tail {more : List Segment} (suffix : more <:+ f.segments)
    (ended : tail f labels (after f more) none = .ok t) : Stands f labels more [] t := by
  cases more with
  | nil =>
    obtain rfl : ret none = t := by simpa [tail, after] using ended
    exact .here .past
  | cons s more =>
    obtain rfl : fall _ = t := by simpa [tail, after] using ended
    exact .before (List.cons_ne_nil s more) suffix

theorem stands_continuing {following : List Segment} (suffix : (continuing following).2 <:+ f.segments)
    (ended : tail f labels (after f (continuing following).2) (continuing following).1.stop = .ok t) :
    Stands f labels following (continuing following).1.body t := by
  cases following with
  | nil => exact stands_of_tail suffix ended
  | cons s more =>
    cases label : s.label with
    | none =>
      simp only [continuing, label, Option.isNone_none, if_true] at ended ⊢
      exact .here (.within ended)
    | some l =>
      simp only [continuing, label, Option.isNone_some, Bool.false_eq_true, if_false]
        at ended suffix ⊢
      exact stands_of_tail suffix ended

/-- The block of a label is the one that starts where the label stands. -/
theorem block_of_label (renders : g.Renders f labels) (resolved : resolve f labels l = .ok b)
    (suffix : q :: code <:+ f.quads) (label : q.op = .label l) :
    split (q :: code) <:+ f.segments ∧ f.segments.length - (split (q :: code)).length = b := by
  obtain ⟨s, more, first, labelled⟩ : ∃ s more, split (q :: code) = s :: more ∧ s.label = some l := by
    rw [split_cons, cons_label label]
    exact ⟨_, _, rfl, rfl⟩
  obtain ⟨front, whole⟩ := suffix
  have suffix : s :: more <:+ f.segments := by
    rw [Function.segments_eq (by simp [← whole]), ← whole]
    exact labelled_suffix_split_append front first labelled
  obtain ⟨heads, whole⟩ := id suffix
  have named : labels[heads.length]? = some l := renders.named heads.length s l (by simp [← whole]) labelled
  have carries := resolve_eq resolved
  -- Two blocks of one label are one block.
  have same : heads.length = b := (List.getElem?_inj (List.getElem?_eq_some_iff.1 named).1 renders.nodup).1
      (named.trans carries.symm)
  refine ⟨first ▸ suffix, ?_⟩
  rw [first, ← whole, List.length_append]
  omega

/-- A jump goes to the block that starts at its label. -/
theorem at_label (renders : g.Renders f labels) (resolved : resolve f labels l = .ok b) (suffix : q :: code <:+ f.quads)
    (label : q.op = .label l) : At f labels (split (q :: code)) (g.body b) (g.tail b) := by
  obtain ⟨suffix, rfl⟩ := block_of_label renders resolved suffix label
  exact at_block renders (split_ne_nil (List.cons_ne_nil q code)) suffix

/-- The block behind a conditional jump is the one that the rest of the code starts with. -/
theorem at_following (renders : g.Renders f labels) (suffix : segments <:+ f.segments)
    (next : following f (after f segments) = .ok b) : At f labels segments (g.body b) (g.tail b) := by
  have next := following_eq next
  unfold after at next
  split at next
  · cases next
  next nonempty =>
    cases next
    exact at_block renders (by simpa using nonempty) suffix

namespace At

variable {following : List Segment}

variable (at_ : At f labels (cons q following) rest t)
include at_

theorem leaving (leaving : q.op.leaving? = some op) :
    rest = [] ∧ tail f labels (after f following) (some op) = .ok t := by
  rw [cons_leaving leaving] at at_
  cases at_ with
  | within ended => exact ⟨rfl, ended⟩

theorem label (label : q.op = .label l) (suffix : (cons q following).tail <:+ f.segments) :
    Stands f labels following rest t := by
  rw [cons_label label] at at_ suffix
  cases at_ with
  | within ended => exact stands_continuing suffix ended

theorem other (other : q.op.isControl = false) (suffix : (cons q following).tail <:+ f.segments) :
    ∃ rest', rest = q :: rest' ∧ Stands f labels following rest' t := by
  rcases cons_other other following with eq | eq <;> rw [eq] at at_ suffix
  · cases at_ with
    | within ended => exact ⟨[], rfl, stands_of_tail suffix ended⟩
  · cases at_ with
    | within ended => exact ⟨_, rfl, stands_continuing suffix ended⟩

end At

/-- Blocks agree with something wherever they stand before some segments if they do so inside the block
of the first one. -/
theorem Stands.agree (renders : g.Renders f labels) (stands : Stands f labels segments rest t) (same : m.Same n)
    (inside : ∀ {fuel rest t} {n : Machine}, At f labels segments rest t → m.Same n →
      Machine.Agree r (n.exec program (fuel + 1) g rest t)) :
    Machine.Agree r (n.exec program fuel g rest t) := by
  cases fuel with
  | zero => exact .inr (.inl rfl)
  | succ fuel =>
    cases stands with
    | here at_ => exact inside at_ same
    | before nonempty suffix =>
      rw [Machine.exec_nil]
      refine .stepped_right same fun same => ?_
      cases fuel with
      | zero => exact .inr (.inl rfl)
      | succ fuel => exact inside (at_block renders nonempty suffix) same

end Build

namespace Function

open Build Machine

/-- With so much fuel, flat code agrees with the blocks wherever the two stand at the same place. -/
def Agrees (f : Function) (labels : List Label) (g : Graph) (program : Module) (fuel : Nat) : Prop :=
  ∀ {fuel' pc : Nat} {rest : List Quad} {t : Tail} {m n : Machine} {r : Ended},
    Stands f labels (split (f.quads.drop pc)) rest t → m.Same n →
      f.exec program fuel pc m = some r → Agree r (n.exec program fuel' g rest t)

variable {fuel' pc : Nat}

theorem Agrees.jump (agrees : f.Agrees labels g program fuel) (renders : g.Renders f labels)
    (resolved : resolve f labels l = .ok b) (same : m.Same n)
    (ran : ((f.index? l).bind fun pc => f.exec program fuel pc m) = some r) :
    Agree r (n.exec program fuel' g (g.body b) (g.tail b)) := by
  obtain ⟨pc, index, ran⟩ := Option.bind_eq_some_iff.1 ran
  obtain ⟨bound, label, -⟩ := List.findIdx?_eq_some_iff_getElem.1 index
  have code := List.drop_eq_getElem_cons bound
  refine agrees (.here ?_) same ran
  rw [code]
  exact at_label renders resolved (code ▸ List.drop_suffix pc f.quads) (of_decide_eq_true label)

theorem Agrees.following (agrees : f.Agrees labels g program fuel) (renders : g.Renders f labels)
    (suffix : split (f.quads.drop pc) <:+ f.segments)
    (next : Build.following f (after f (split (f.quads.drop pc))) = .ok b) (same : m.Same n)
    (ran : f.exec program fuel pc m = some r) :
    Agree r (n.exec program fuel' g (g.body b) (g.tail b)) := by
  exact agrees (.here (at_following renders suffix next)) same ran

/-- A quadruple and a tail that go by one value agree if they do so for each outcome of it. -/
theorem follow_map {α : Type} {x : Except Stop α} {go : α → Move} {way : α → BlockId ⊕ Option Value}
    {exec : Nat → Machine → Option Ended} {next : BlockId ⊕ Option Value → Machine → Ended} (same : m.Same n)
    (each : ∀ a, f.follow exec pc (.ok (go a), m) = some r → Agree r (next (way a) n))
    (ran : f.follow exec pc (go <$> x, m) = some r) : Agree r (andThen (way <$> x, n) next) := by
  cases x with
  | error e =>
    obtain rfl : (.error e, m) = r := Option.some.inj ran
    exact .of_same same _
  | ok a => exact each a ran

/-- A jump or return does what the tail does that it becomes. -/
theorem Agrees.leaving (agrees : f.Agrees labels g program fuel) (renders : g.Renders f labels)
    (leaving : q.op.leaving? = some op) (suffix : split (f.quads.drop (pc + 1)) <:+ f.segments)
    (ended : tail f labels (after f (split (f.quads.drop (pc + 1)))) (some op) = .ok t) (same : m.Same n)
    (ran : f.follow (f.exec program fuel) pc (m.move program fuel g q) = some r) :
    Agree r (n.exec program (fuel' + 1) g [] t) := by
  rw [exec_nil]
  refine .stepped_right same fun {n} same => ?_
  rw [same.next]
  unfold move at ran
  revert leaving ran
  generalize q.op = kind
  cases kind with
  | goto l =>
    rintro ⟨⟩ ran
    simp only [tail, bind_eq_ok, pure_eq_ok] at ended
    obtain ⟨b, resolved, rfl⟩ := ended
    exact agrees.jump renders resolved same ran
  | jumpIf c x y l =>
    rintro ⟨⟩ ran
    simp only [tail, bind_eq_ok, pure_eq_ok] at ended
    obtain ⟨onTrue, resolved, onFalse, next, rfl⟩ := ended
    rw [next_branch]
    refine follow_map same (fun taken ran => ?_) ran
    cases taken with
    | true => exact agrees.jump renders resolved same ran
    | false => exact agrees.following renders suffix next same ran
  | jumpIfNot c x y l =>
    rintro ⟨⟩ ran
    simp only [tail, bind_eq_ok, pure_eq_ok] at ended
    obtain ⟨onTrue, next, onFalse, resolved, rfl⟩ := ended
    rw [next_branch]
    refine follow_map same (fun taken ran => ?_) ran
    cases taken with
    | true => exact agrees.following renders suffix next same ran
    | false => exact agrees.jump renders resolved same ran
  | ret x =>
    rintro ⟨⟩ ran
    simp only [tail, pure_eq_ok] at ended
    subst ended
    rw [next_ret]
    refine follow_map same (fun x ran => ?_) ran
    obtain rfl : (.ok x, m) = r := Option.some.inj ran
    exact .of_same same _
  | _ => rintro ⟨⟩

theorem move_of_not_control (other : q.op.isControl = false) :
    m.move program fuel g q = andThen (m.quad program fuel g q) fun _ m => (.ok .on, m) := by
  unfold move
  revert other
  generalize q.op = kind
  cases kind <;> first | exact fun _ => rfl | exact nofun

/-- Any other quadruple does the same in both. -/
theorem Agrees.other (agrees : f.Agrees labels g program fuel) (other : q.op.isControl = false)
    (stands : Stands f labels (split (f.quads.drop (pc + 1))) rest t) (same : m.Same n)
    (ran : f.follow (f.exec program fuel) pc (m.move program fuel g q) = some r) :
    Agree r (n.exec program (fuel' + 1) g (q :: rest) t) := by
  rw [exec_cons]
  refine .stepped_right same fun {n} same => ?_
  rw [move_of_not_control other] at ran
  have first : Agree (m.quad program fuel g q) (n.quad program fuel' g q) :=
    .quad (.refl program) (.refl g) (fun paired _ _ same => paired ▸ .exec same) same
  generalize m.quad program fuel g q = x at ran first
  generalize n.quad program fuel' g q = y at first
  obtain ⟨x, m⟩ := x
  obtain ⟨y, n⟩ := y
  rcases first with cut | cut | ⟨value, same⟩
  · obtain rfl : x = .error .outOfSteps := cut
    obtain rfl : (.error .outOfSteps, m) = r := Option.some.inj ran
    exact .inl rfl
  · obtain rfl : y = .error .outOfSteps := cut
    exact .inr (.inl rfl)
  · obtain rfl : x = y := value
    cases x with
    | error e =>
      obtain rfl : (.error e, m) = r := Option.some.inj ran
      exact .of_same same _
    | ok u => exact agrees stands same ran

/-- With one step more, flat code agrees with a block at any place inside it. -/
theorem Agrees.step (agrees : f.Agrees labels g program fuel) (renders : g.Renders f labels)
    (at_ : At f labels (split (f.quads.drop pc)) rest t) (same : m.Same n)
    (ran : f.exec program (fuel + 1) pc m = some r) : Agree r (n.exec program (fuel' + 1) g rest t) := by
  rw [exec] at ran
  cases found : f.quads[pc]? with
  | none =>
    have past : f.quads.drop pc = [] := List.drop_eq_nil_of_le (List.getElem?_eq_none_iff.1 found)
    rw [found] at ran
    obtain rfl : (.ok none, m) = r := Option.some.inj ran
    rw [past] at at_
    cases at_
    rw [exec_nil]
    exact .stepped_right same fun same => .of_same same _
  | some q =>
    obtain ⟨bound, here⟩ := List.getElem?_eq_some_iff.1 found
    have code : f.quads.drop pc = q :: f.quads.drop (pc + 1) := here ▸ List.drop_eq_getElem_cons bound
    have shell : f.shell.Alike g := ⟨renders.vars, renders.params, renders.name⟩
    have suffix := tail_split_suffix (List.drop_suffix pc f.quads)
    rw [code, split_cons] at at_ suffix
    rw [found] at ran
    dsimp only at ran
    split at ran
    · obtain rfl : (.error .outOfSteps, m.tick) = r := Option.some.inj ran
      exact .inl rfl
    · rw [← shell.move] at ran
      rcases q.op.kind_cases with ⟨l, label⟩ | ⟨op, leaving⟩ | other
      · unfold move at ran
        rw [label] at ran
        exact agrees (at_.label label suffix) same.tick_left ran
      · obtain ⟨rfl, ended⟩ := at_.leaving leaving
        rw [cons_leaving leaving] at suffix
        exact agrees.leaving renders leaving suffix ended same.tick_left ran
      · obtain ⟨rest, rfl, stands⟩ := at_.other other suffix
        exact agrees.other other stands same.tick_left ran

/-- Wherever flat code and blocks stand at the same place, they go on alike. -/
theorem agrees (renders : g.Renders f labels) (fuel : Nat) : f.Agrees labels g program fuel := by
  induction fuel with (intro fuel' pc rest t m n r stands same ran)
  | zero =>
    cases ran
    exact .inl rfl
  | succ fuel ih =>
    exact stands.agree renders same fun at_ same => ih.step renders at_ same ran

/-! ## Jumps that lead somewhere -/

/-- A jump that ends a block leads to the block that its label stands for. -/
theorem resolve_of_tail {next : Option BlockId} (target : op.target? = some l)
    (ended : tail f labels next (some op) = .ok t) : ∃ b ∈ t.targets, resolve f labels l = .ok b := by
  cases op <;> cases target
  all_goals simp only [tail, bind_eq_ok, pure_eq_ok] at ended
  · obtain ⟨b, resolved, rfl⟩ := ended
    exact ⟨b, by simp [targets, successors], resolved⟩
  · obtain ⟨b, resolved, _, -, rfl⟩ := ended
    exact ⟨b, by simp [targets, successors], resolved⟩
  · obtain ⟨_, -, b, resolved, rfl⟩ := ended
    exact ⟨b, by simp [targets, successors], resolved⟩

/-- Every jump of a function that builds goes to a block. -/
theorem target_mem_labels (renders : g.Renders f labels) (member : q ∈ f.quads) (target : q.op.target? = some l) :
    l ∈ labels := by
  have leaving : q.op.leaving? = some q.op := by
    revert target
    cases q.op <;> simp [Op.target?, Op.leaving?]
  obtain ⟨s, found, stop⟩ := exists_stop member leaving
  rw [← Function.segments_eq (List.ne_nil_of_mem member)] at found
  obtain ⟨heads, more, whole⟩ := List.append_of_mem found
  obtain ⟨-, ended⟩ := renders.block heads s more whole.symm
  obtain ⟨b, -, resolved⟩ := resolve_of_tail target (stop ▸ ended)
  exact List.mem_of_getElem? (resolve_eq resolved)

/-- Its label stands in the code, unless that is a name such as the blocks without a label get. -/
theorem exists_index (renders : g.Renders f labels) (member : q ∈ f.quads) (target : q.op.target? = some l)
    (written : ¬Segment.Generated l) : ∃ pc, f.index? l = some pc := by
  rcases renders.labelled l (target_mem_labels renders member target) with ⟨s, found, label⟩ | generated
  · obtain ⟨q, member, op⟩ := exists_label found label
    have found : (f.quads.findIdx? (·.op = .label l)).isSome := by
      rw [List.findIdx?_isSome]
      exact List.any_eq_true.2 ⟨q, member, by simpa using op⟩
    exact Option.isSome_iff_exists.1 found
  · exact absurd generated written

theorem target_of_move {m' : Machine} (jump : m.move program fuel g q = (.ok (.jump l), m')) :
    q.op.target? = some l := by
  unfold move at jump
  revert jump
  generalize q.op = kind
  cases kind with
  | goto l => rintro ⟨⟩; rfl
  | jumpIf c x y l | jumpIfNot c x y l =>
    dsimp only
    rcases m.test g c x y with e | _ | _ <;> rintro ⟨⟩
    rfl
  | ret x =>
    dsimp only
    rcases m.returned g x with e | x <;> rintro ⟨⟩
  | label => rintro ⟨⟩
  | _ =>
    dsimp only
    rcases m.quad program fuel g q with ⟨e | u, m⟩ <;> rintro ⟨⟩

/-- Flat code whose jumps all lead somewhere comes to a result. -/
theorem exists_exec (leads : ∀ q ∈ f.quads, ∀ l, q.op.target? = some l → ∃ pc, f.index? l = some pc) (fuel pc : Nat)
    (m : Machine) : ∃ r, f.exec program fuel pc m = some r := by
  induction fuel generalizing pc m with
  | zero => exact ⟨_, rfl⟩
  | succ fuel ih =>
    rw [exec]
    cases found : f.quads[pc]? with
    | none => exact ⟨_, rfl⟩
    | some q =>
      dsimp only
      split
      · exact ⟨_, rfl⟩
      · rcases moved : m.tick.move program fuel f.shell q with ⟨e | _ | l | x, m'⟩
        · exact ⟨_, rfl⟩
        · exact ih (pc + 1) m'
        · obtain ⟨pc, index⟩ := leads q (List.mem_of_getElem? found) l (target_of_move moved)
          rw [follow, index]
          exact ih pc m'
        · exact ⟨_, rfl⟩

end Function

/-- The block form of a function does what its flat code does: it ends with the same value or error, in
the same state but for the number of steps, unless the limit of steps cuts one of the two off. No two
labels of the code are the same, and where no jump goes to a name such as the blocks without a label
get, the flat code comes to a result. -/
theorem Graph.build_agrees {f : Function} {s s' : Supply} {g : Graph} (built : Graph.build f s = .ok (g, s'))
    (program : Module) (m : Machine) :
    (∀ r, f.run program m = some r → Machine.Agree r (g.execute program m)) ∧ (f.quads.filterMap (·.op.label?)).Nodup ∧
        ((∀ q ∈ f.quads, ∀ l, q.op.target? = some l → ¬Segment.Generated l) → ∃ r, f.run program m = some r) := by
  have renders := Graph.build_renders built
  refine ⟨fun r ran => ?_, renders.written.nodup renders.nodup, fun written => ?_⟩
  · have start : Build.Stands f _ (split (f.quads.drop 0)) _ _ :=
      .here (Build.at_entry renders)
    exact Function.agrees renders _ start (.refl m) ran
  · exact Function.exists_exec (fun q member l target => Function.exists_index renders member target
        (written q member l target)) _ _ _

/-- Counts down and prints; two labels at one place, a call inside the loop and one at the end. -/
def countdown : Function where
  name := "countdown"
  vars := #[.declare "n" .int .param, .declare "t" .int .temporary]
  params := [0]
  quads := [
    .effect (.label "again"),
    .effect (.label "test"),
    .effect (.jumpIfNot .gt (.var 0) (.const (.int 0)) "done"),
    .effect (.print (.var 0)),
    ⟨some 1, .call "less" [.var 0]⟩,
    ⟨some 0, .assign (.var 1)⟩,
    .effect (.goto "again"),
    .effect (.label "done"),
    .effect (.call "less" [.var 0])]

/-- One less than its argument. -/
def less : Function where
  name := "less"
  ret := some .int
  vars := #[.declare "n" .int .param]
  params := [0]
  quads := [⟨some 0, .binOp .sub (.var 0) (.const (.int 1))⟩, .effect (.ret (some (.var 0)))]

def counting : Module := ⟨[], .empty, [countdown.graph, less.graph]⟩

def started : Machine := { frames := #[#[#[.int 2], #[.undef]]] }

theorem countdown_agrees : ∃ r, countdown.run counting started = some r ∧ r.1.toOption = some none ∧ r.2.output = "21" ∧
      Machine.Agree r (countdown.graph.execute counting started) := by
  have built : Graph.build countdown {} = .ok (countdown.graph, ⟨2⟩) := by rfl
  have output : ((countdown.run counting started).map fun r => (r.1.toOption, r.2.output)) =
    some (some none, "21") := by decide +kernel
  obtain ⟨r, ran, eq⟩ := Option.map_eq_some_iff.1 output
  obtain ⟨value, printed⟩ := Prod.mk.inj eq
  exact ⟨r, ran, value, printed, (Graph.build_agrees built counting started).1 r ran⟩

end Quadcode
