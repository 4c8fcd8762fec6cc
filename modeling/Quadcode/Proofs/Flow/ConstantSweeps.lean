import Quadcode.Proofs.Flow.Constants

/-!
# When the sweeps for constants only raise facts

Whether something is known of a variable at a point depends on the path taken there, and on nothing
that meeting facts forgets. In a settled function the paths to an arithmetic quadruple agree on
which of its operands are known. There the facts of all sweeps agree with them too, so its result
never falls back from varying to a constant.
-/

namespace Quadcode

open List Problem Facts

namespace Constants

variable {g : Graph} {escaping addressTaken : List VarId} {q : Quad} {m n : Facts} {v : VarId} {b c : BlockId}
  {value : BlockId → Facts} {transfer : Facts → Facts}

/-- The variables whose states an arithmetic quadruple folds. -/
def folded (q : Quad) : List VarId :=
  match q.result, q.op with
  | some _, .binOp .. | some _, .unOp .. | some _, .cmp .. => q.op.args.filterMap Arg.var?
  | _, _ => []

/-! ## Monotone quadruples -/

theorem spoiled_le (le : m.Le n) : (spoiled escaping addressTaken q m).Le (spoiled escaping addressTaken q n) := by
  have clobbered : ∀ vs, (m.clobber vs).Le (n.clobber vs) := by
    intro vs v
    rw [lookup_clobber, lookup_clobber]
    split
    · exact .refl _
    · exact le v
  unfold spoiled
  split
  · exact clobbered _
  · exact clobbered _
  · exact le

/-- An operand known to both facts or to neither is the same constant, or none to the upper ones. -/
theorem operand_of_le (x : Arg) (le : m.Le n) (agree : ∀ u ∈ x.var?, m.Known u ↔ n.Known u) :
    eval.c n x = eval.c m x ∨ eval.c n x = none := by
  cases x with
  | const _ | str _ => exact .inl rfl
  | var u =>
    have both := agree u rfl
    have below := le u
    unfold Facts.Known at both
    simp only [eval.c, ofArg]
    cases left : m.lookup u <;> cases right : n.lookup u <;>
      simp_all [ConstState.Le, ConstState.const?]

theorem known_le {o o' : Option Const} (h : o' = o ∨ o' = none) : (eval.known o).Le (eval.known o') := by
  rcases h with rfl | rfl
  · exact .refl _
  · cases o <;> simp [eval.known, ConstState.Le]

theorem bind_weaker {o o' : Option Const} {f f' : Const → Option Const} (h : o' = o ∨ o' = none)
    (h' : ∀ a, f' a = f a ∨ f' a = none) : o'.bind f' = o.bind f ∨ o'.bind f' = none := by
  rcases h with rfl | rfl
  · cases o' with
    | none => exact .inl rfl
    | some a => exact h' a
  · exact .inr rfl

theorem eval_le {r : VarId} {op : Op} (le : m.Le n) (agree : ∀ u ∈ folded ⟨some r, op⟩, m.Known u ↔ n.Known u) :
    (m.eval op).Le (n.eval op) := by
  cases op with
  | assign x =>
    cases x with
    | var u => exact le u
    | const _ | str _ => exact .refl _
  | binOp _ x y | cmp _ x y =>
    have left := operand_of_le x le fun u read => agree u (by simp_all [folded, Op.args])
    have right := operand_of_le y le fun u read => agree u (by simp_all [folded, Op.args])
    exact known_le (bind_weaker left fun a => bind_weaker right fun b => .inl rfl)
  | unOp op x =>
    have operand := operand_of_le x le fun u read => agree u (by simp_all [folded, Op.args])
    exact known_le (bind_weaker operand fun a => .inl rfl)
  | _ => exact .refl _

/-- A quadruple respects the order between facts that know the same of what it folds. -/
theorem after_le (le : m.Le n) (agree : ∀ u ∈ folded q, m.Known u ↔ n.Known u) :
    (after escaping addressTaken q m).Le (after escaping addressTaken q n) := by
  intro v
  rw [lookup_after, lookup_after]
  split
  next result =>
    obtain ⟨_, op⟩ := q
    subst result
    cases op with
    | call | derefStore => exact .refl _
    | _ => exact eval_le le agree
  · exact spoiled_le le v

/-! ## Where knowledge comes from -/

/-- What is known afterwards of each variable is known always, or goes back to one variable. -/
def Traced (step : Facts → Facts) : Prop := ∀ v, (∀ m, (step m).Known v) ∨ ∃ u, ∀ m, (step m).Known v ↔ m.Known u

theorem Traced.comp {first second : Facts → Facts} (h : Traced first) (h' : Traced second) :
    Traced fun m => second (first m) := by
  intro v
  rcases h' v with always | ⟨u, from_u⟩
  · exact .inl fun m => always (first m)
  · rcases h u with always | ⟨w, from_w⟩
    · exact .inl fun m => (from_u _).2 (always m)
    · exact .inr ⟨w, fun m => (from_u _).trans (from_w m)⟩

theorem known_ne_unknown (o : Option Const) : eval.known o ≠ .unknown := by
  cases o <;> simp [eval.known]

/-- Only a copy can leave its result unknown. -/
theorem eval_known (op : Op) : (∀ m : Facts, m.eval op ≠ .unknown) ∨ ∃ u, op = .assign (.var u) := by
  cases op with
  | assign x => cases x <;> simp [eval, ofArg]
  | binOp | unOp | cmp => exact .inl fun m => known_ne_unknown _
  | _ => exact .inl fun m => by simp [eval]

theorem traced_spoiled (escaping addressTaken : List VarId) (q : Quad) : Traced (spoiled escaping addressTaken q) := by
  have clobbered : ∀ vs, Traced fun m => m.clobber vs := by
    intro vs v
    by_cases member : v ∈ vs
    · exact .inl fun m => known_clobber.2 (.inl member)
    · exact .inr ⟨v, fun m => by simp [known_clobber, member]⟩
  unfold spoiled
  split
  · exact clobbered _
  · exact clobbered _
  · exact fun v => .inr ⟨v, fun _ => .rfl⟩

theorem traced_after (escaping addressTaken : List VarId) (q : Quad) : Traced (after escaping addressTaken q) := by
  intro v
  unfold Facts.Known
  simp only [lookup_after]
  split
  · rcases eval_known q.op with always | ⟨u, copy⟩
    · exact .inl fun m => always _
    · exact .inr ⟨u, fun m => by simp [spoiled, copy, eval, ofArg]⟩
  · exact traced_spoiled escaping addressTaken q v

theorem traced_upTo (g : Graph) (front : List Quad) : Traced (upTo g front) := by
  induction front with
  | nil => exact fun v => .inr ⟨v, fun _ => .rfl⟩
  | cons q rest ih => exact (traced_after _ _ q).comp ih

/-! ## Paths -/

/-- The facts at the start of a block along one path from the entry. -/
inductive Along (g : Graph) : BlockId → Facts → Prop
  | entry : Along g g.entry (problem g).boundary
  | step {b c : BlockId} {m : Facts} : Along g b m → c ∈ g.targets b → Along g c ((problem g).through g b m)

/-- All paths to an arithmetic quadruple agree on which of its operands have been assigned. -/
def Settled (g : Graph) : Prop := ∀ b front q back, g.body b = front ++ q :: back → ∀ u ∈ folded q, ∀ m n, Along g b m →
    Along g b n → ((upTo g front m).Known u → (upTo g front n).Known u)

theorem along_of_reaches (path : g.Reaches g.entry b) : ∃ m, Along g b m := by
  induction path with
  | refl => exact ⟨_, .entry⟩
  | tail _ edge ih =>
    obtain ⟨m, along⟩ := ih
    exact ⟨_, along.step edge⟩

/-- Facts at a block know what some path knows, and all that every path knows. `transfer` takes the
facts of a path to the point meant. -/
structure Between (g : Graph) (b : BlockId) (transfer : Facts → Facts) (m : Facts) : Prop where
  some_path : ∀ v, m.Known v → ∃ n, Along g b n ∧ (transfer n).Known v
  all_paths : ∀ v, (∀ n, Along g b n → (transfer n).Known v) → m.Known v

theorem Between.step {step : Facts → Facts} (traced : Traced step) (path : ∃ n, Along g b n)
    (between : Between g b transfer m) : Between g b (fun n => step (transfer n)) (step m) where
  some_path v known := by
    rcases traced v with always | ⟨u, origin⟩
    · exact path.imp fun n along => ⟨along, always _⟩
    · obtain ⟨n, along, before⟩ := between.some_path u ((origin m).1 known)
      exact ⟨n, along, (origin _).2 before⟩
  all_paths v known := by
    rcases traced v with always | ⟨u, origin⟩
    · exact always m
    · exact (origin m).2 (between.all_paths u fun n along => (origin _).1 (known n along))

/-- Where the paths agree on a variable, all facts between them do. -/
theorem Between.agree {u : VarId} (first : Between g b transfer m) (second : Between g b transfer n)
    (paths : ∀ k l, Along g b k → Along g b l → (transfer k).Known u → (transfer l).Known u) (known : m.Known u) :
    n.Known u := by
  obtain ⟨k, along, before⟩ := first.some_path u known
  exact second.all_paths u fun l along' => paths k l along along' before

/-- The code of a block respects the order between facts that agree with its paths. -/
theorem through_le (settled : Settled g) (path : ∃ k, Along g b k) (first : Between g b id m)
    (second : Between g b id n) (le : m.Le n) : ((problem g).through g b m).Le ((problem g).through g b n) := by
  suffices general : ∀ back front, g.body b = front ++ back →
      (upTo g front m).Le (upTo g front n) → ((problem g).through g b m).Le
        ((problem g).through g b n) from general (g.body b) [] rfl le
  intro back
  induction back with
  | nil =>
    intro front split le
    rw [through_eq, through_eq, split, append_nil]
    exact le
  | cons q back ih =>
    intro front split le
    have traced := traced_upTo g front
    have agree := settled b front q back split
    refine ih (front ++ [q]) (by simp [split]) ?_
    rw [upTo_snoc, upTo_snoc]
    exact after_le le fun u member =>
      ⟨(first.step traced path).agree (second.step traced path) (agree u member),
        (second.step traced path).agree (first.step traced path) (agree u member)⟩

/-! ## Definite assignment -/

instance (m : Facts) (v : VarId) : Decidable (m.Known v) := inferInstanceAs (Decidable (_ ≠ _))

theorem Traced.mono {step : Facts → Facts} (traced : Traced step) (sub : ∀ v, m.Known v → n.Known v)
    (known : (step m).Known v) : (step n).Known v := by
  rcases traced v with always | ⟨u, origin⟩
  · exact always n
  · exact (origin n).2 (sub u ((origin m).1 known))

/-- `table` lists variables that are assigned on every path to a block, and all operands of
arithmetic are among them where they are read. -/
structure Assigned (g : Graph) (table : BlockId → List VarId) : Prop where
  entry : ∀ v ∈ table g.entry, (problem g).boundary.Known v
  edge : ∀ b ∈ g.layout, ∀ c ∈ g.targets b, ∀ v ∈ table c, ((problem g).through g b (clobber ∅ (table b))).Known v
  operand : ∀ b ∈ g.layout, ∀ i < (g.body b).length, ∀ u ∈ folded ((g.body b).getD i default),
    (upTo g ((g.body b).take i) (clobber ∅ (table b))).Known u

namespace Assigned

variable {table : BlockId → List VarId}

theorem along (linked : g.Linked) (assigned : Assigned g table) (path : Along g b m) :
    b ∈ g.layout ∧ ∀ v, (clobber ∅ (table b)).Known v → m.Known v := by
  have listed : ∀ b v, (clobber ∅ (table b)).Known v → v ∈ table b := fun b v known =>
    (known_clobber.1 known).resolve_right not_known_empty
  induction path with
  | entry => exact ⟨linked.entry_mem, fun v known => assigned.entry v (listed _ v known)⟩
  | @step b c m _ edge ih =>
    refine ⟨linked.target_mem ih.1 edge, fun v known => ?_⟩
    exact (traced_upTo g (g.body b)).mono ih.2 (assigned.edge b ih.1 c edge v (listed c v known))

/-- Where operands are assigned before they are read, paths cannot disagree on them. -/
theorem settled (linked : g.Linked) (assigned : Assigned g table) : Settled g := by
  intro b front q back split u member m n _ path _
  obtain ⟨inside, below⟩ := assigned.along linked path
  have here := assigned.operand b inside front.length (by simp [split]) u
  simp only [split, take_left, getD_eq_getElem?_getD, getElem?_append_right le_rfl,
    Nat.sub_self, getElem?_cons_zero, Option.getD_some] at here
  exact (traced_upTo g front).mono below (here member)

end Assigned

/-! ## The ascent -/

/-- The variables that a function can know something of. -/
def assignable (g : Graph) : List VarId := g.params ++ (g.globals ++ g.addressTaken.toList) ++
    g.layout.flatMap fun b => (g.body b).filterMap Quad.result

theorem known_of_after (known : (after escaping addressTaken q m).Known v) :
    q.result = some v ∨ v ∈ escaping ∨ v ∈ addressTaken ∨ m.Known v := by
  by_cases result : q.result = some v
  · exact .inl result
  · unfold Facts.Known at known
    rw [lookup_after, if_neg result] at known
    change (spoiled escaping addressTaken q m).Known v at known
    unfold spoiled at known
    split at known
    · rcases known_clobber.1 known with member | before
      · exact .inr (.inl member)
      · exact .inr (.inr (.inr before))
    · rcases known_clobber.1 known with member | before
      · exact .inr (.inr (.inl member))
      · exact .inr (.inr (.inr before))
    · exact .inr (.inr (.inr known))

theorem through_assignable (member : b ∈ g.layout) (within : ∀ v, m.Known v → v ∈ assignable g) :
    ∀ v, ((problem g).through g b m).Known v → v ∈ assignable g := by
  rw [through_eq]
  suffices general : ∀ body : List Quad, (∀ q ∈ body, q ∈ g.body b) → ∀ m : Facts,
      (∀ v, m.Known v → v ∈ assignable g) → ∀ v, (upTo g body m).Known v → v ∈ assignable g from
    general _ (fun _ inside => inside) m within
  intro body
  induction body with
  | nil => exact fun _ _ within => within
  | cons q rest ih =>
    intro inside m within
    refine ih (fun r later => inside r (mem_cons_of_mem q later)) _ fun v known => ?_
    rcases known_of_after known with result | escapes | taken | before
    · simp only [assignable, mem_append, mem_flatMap, mem_filterMap]
      exact .inr ⟨b, member, q, inside q mem_cons_self, result⟩
    · exact mem_append_left _ (mem_append_right _ escapes)
    · exact mem_append_left _ (mem_append_right _ (mem_append_right _ taken))
    · exact within v before

theorem along_assignable (linked : g.Linked) (along : Along g b m) :
    b ∈ g.layout ∧ ∀ v, m.Known v → v ∈ assignable g := by
  induction along with
  | entry =>
    refine ⟨linked.entry_mem, fun v known => ?_⟩
    rcases known_clobber.1 known with member | empty
    · exact mem_append_left _ member
    · exact absurd empty not_known_empty
  | step _ edge ih => exact ⟨linked.target_mem ih.1 edge, through_assignable ih.1 ih.2⟩

/-- How high the facts stand. -/
def rank (g : Graph) (m : Facts) : Nat := ((assignable g).map fun v => (m.lookup v).level).sum

theorem rank_le (g : Graph) (m : Facts) : rank g m ≤ (assignable g).length * 2 := by
  have each : ∀ x ∈ (assignable g).map fun v => (m.lookup v).level, x ≤ 2 := by
    simp only [mem_map]
    rintro x ⟨v, -, rfl⟩
    exact ConstState.level_le_two _
  simpa [rank] using sum_le_card_nsmul _ _ each

theorem rank_lt (proper : m.Proper) (proper' : n.Proper) (within : ∀ v, n.Known v → v ∈ assignable g) (le : m.Le n)
    (different : m ≠ n) : rank g m < rank g n := by
  have raised : ∃ v, m.lookup v ≠ n.lookup v := by
    by_contra none
    push Not at none
    exact different (proper.ext proper' none)
  obtain ⟨v, changed⟩ := raised
  have higher := (le v).level_lt changed
  have known : n.Known v := by
    intro unknown
    rw [unknown] at higher
    exact Nat.not_lt_zero _ higher
  exact sum_lt_sum _ _ (fun u _ => (le u).level_le) ⟨v, within v known, higher⟩

theorem known_inflow : ((problem g).inflow g value b).Known v ↔
      (b = g.entry ∧ (problem g).boundary.Known v) ∨ ∃ c ∈ g.preds b, (value c).Known v := by
  have fold : ∀ (cs : List BlockId) (m : Facts), (cs.foldl (fun m c => (problem g).meet m (value c)) m).Known v ↔
        m.Known v ∨ ∃ c ∈ cs, (value c).Known v := by
    intro cs
    induction cs with
    | nil => simp
    | cons c rest ih =>
      intro m
      rw [foldl_cons, ih, show (problem g).meet m (value c) = m.meet (value c) from rfl, known_meet]
      simp [or_assoc]
  unfold Problem.inflow
  rw [fold]
  refine or_congr ?_ .rfl
  by_cases here : b = g.entry
  · simp [Problem.atBoundary, problem, here]
  · simp [Problem.atBoundary, problem, here, not_known_empty]

/-- Facts gathered at a block agree with the paths to it once a path has been visited. -/
theorem between_inflow (linked : g.Linked) (member : b ∈ g.layout)
    (visited : b = g.entry ∨ ∃ c ∈ g.layout, b ∈ g.targets c ∧ Between g c ((problem g).through g c) (value c))
    (all : ∀ c ∈ g.layout, Between g c ((problem g).through g c) (value c) ∨ value c = (problem g).initial) :
    Between g b id ((problem g).inflow g value b) where
  some_path v known := by
    rcases known_inflow.1 known with ⟨rfl, start⟩ | ⟨c, edge, far⟩
    · exact ⟨_, .entry, start⟩
    · obtain ⟨inside, target⟩ := (linked.mem_preds b member c).1 edge
      rcases all c inside with between | initial
      · obtain ⟨n, along, passed⟩ := between.some_path v far
        exact ⟨_, along.step target, passed⟩
      · rw [initial] at far
        exact absurd far not_known_empty
  all_paths v known := by
    rcases visited with rfl | ⟨c, inside, target, between⟩
    · exact known_inflow.2 (.inl ⟨rfl, known _ .entry⟩)
    · refine known_inflow.2 (.inr ⟨c, linked.pred_of_target inside target, ?_⟩)
      exact between.all_paths v fun n along => known _ (along.step target)

/-- The facts of a settled function only rise. -/
def ascent (linked : g.Linked) (settled : Settled g) : (problem g).Ascent g where
  le := Facts.Le
  rank := rank g
  top := (assignable g).length * 2
  fit b m := b ∈ g.layout ∧ m.Proper ∧ Between g b id m
  settled b m := b ∈ g.layout ∧ m.Proper ∧ Between g b ((problem g).through g b) m
  le_refl m v := .refl _
  le_trans first second v := (first v).trans (second v)
  initial_le m v := by simp [problem, ConstState.Le]
  meet_le := Facts.Le.meet
  through_le first second le :=
    through_le settled (along_of_reaches ((linked.mem_layout _).1 first.1)) first.2.2 second.2.2 le
  fit_inflow {value front b back} at_b earlier all := by
    have member : b ∈ g.layout := (mem_order linked).1 (by rw [at_b]; simp)
    refine ⟨member, ?_, between_inflow linked member ?_ fun c inside => ?_⟩
    · refine inflow_holds _ ?_ fun c edge m proper => proper.meet _
      split
      · exact proper_empty.clobber _
      · exact proper_empty
    · rcases linked.inside.explored.hangs.before at_b with root | ⟨c, before, target⟩
      · exact .inl (mem_singleton.1 root)
      · have := earlier c before
        exact .inr ⟨c, this.1, target, this.2.2⟩
    · exact (all c ((mem_order linked).2 inside)).imp_left fun h => h.2.2
  settled_through {b m} fit := by
    refine ⟨fit.1, ?_, fit.2.2.step (traced_upTo g (g.body b)) ?_⟩
    · exact List.foldlRecOn (motive := Facts.Proper) _ _ fit.2.1 fun _ proper _ _ =>
        proper_after proper
    · exact along_of_reaches ((linked.mem_layout b).1 fit.1)
  rank_lt {b m n} before after le different := by
    refine rank_lt ?_ after.2.1 (fun v known => ?_) le different
    · rcases before with before | rfl
      · exact before.2.1
      · exact proper_empty
    · obtain ⟨k, along, passed⟩ := after.2.2.some_path v known
      obtain ⟨inside, within⟩ := along_assignable linked along
      exact through_assignable inside within v passed
  rank_le_top := rank_le g

end Constants

end Quadcode
