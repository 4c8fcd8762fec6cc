import Quadcode.Proofs.Optimizer.ConstantParameters

/-!
# Runs without constant parameters

A call that does not pass constants, to a function that sets them itself, comes to the same frame. From
there on the two functions do the same, so the whole program does.
-/

namespace Quadcode

open List Quadcode.Frame

namespace Parameters

open Machine

variable {values : List Value} {graphs : List Graph} {args : List Arg} {program : Module} {fuel : Nat} {m n : Machine}
  {b : BlockId} {h g : Graph}

/-! ## Values for parameters that are gone -/

section Values

variable {consts : List (Nat × Const)} {params : List VarId}

/-- Constants can be left out before or after the arguments are evaluated. -/
theorem args_dropAt (ascend : (consts.map (·.1)).Pairwise (· < ·))
    (passed : ∀ k c, (k, c) ∈ consts → args[k]? = some (.const c)) :
    m.args g (dropAt (consts.map (·.1)) args) = dropAt (consts.map (·.1)) <$> m.args g args := by
  induction consts with
  | nil => exact (id_map (m.args g args)).symm
  | cons first rest ih =>
    obtain ⟨k, c⟩ := first
    rw [map_cons, pairwise_cons] at ascend
    have there : (dropAt (rest.map (·.1)) args)[k]? = some (.const c) := by
      rw [getElem?_dropAt _ ascend.1]
      exact passed k c mem_cons_self
    have one : m.args g ((dropAt (rest.map (·.1)) args).eraseIdx k) =
        (·.eraseIdx k) <$> m.args g (dropAt (rest.map (·.1)) args) :=
      mapM_eraseIdx there rfl
    rw [map_cons, dropAt_cons, one, ih ascend.2 fun k c later => passed k c (.tail _ later)]
    cases m.args g args <;> rfl

/-- The values for parameters are those that are still passed, and the constants. -/
theorem zip_perm (ascend : (consts.map (·.1)).Pairwise (· < ·)) (bound : ∀ k ∈ consts.map (·.1), k < params.length)
    (passed : ∀ k c, (k, c) ∈ consts → values[k]? = some (.ofConst c)) :
    (params.zip values).Perm (dropAt (consts.map (·.1)) (params.zip values) ++
      (setup consts params).map fun (p, c) => (p, .ofConst c)) := by
  induction consts with
  | nil => simp [setup, dropAt]
  | cons first rest ih =>
    obtain ⟨k, c⟩ := first
    rw [map_cons, pairwise_cons] at ascend
    rw [map_cons, forall_mem_cons] at bound
    obtain ⟨p, param⟩ : ∃ p, params[k]? = some p := ⟨_, getElem?_eq_getElem bound.1⟩
    have there : (dropAt (rest.map (·.1)) (params.zip values))[k]? = some (p, .ofConst c) := by
      rw [getElem?_dropAt _ ascend.1, getElem?_zip_eq_some]
      exact ⟨param, passed k c mem_cons_self⟩
    obtain ⟨inside, here⟩ := List.getElem?_eq_some_iff.1 there
    have taken := getElem_cons_eraseIdx_perm inside
    rw [here] at taken
    have others := ih ascend.2 bound.2 fun k c later => passed k c (.tail _ later)
    rw [map_cons, dropAt_cons, setup_cons param, map_cons]
    exact others.trans ((taken.symm.append_right _).trans perm_middle.symm)

theorem zip_fst_sublist (params : List VarId) (values : List Value) :
    ((params.zip values).map (·.1)).Sublist params := by
  induction params generalizing values with
  | nil => exact .slnil
  | cons p rest ih =>
    cases values with
    | nil => exact nil_sublist _
    | cons x values => exact (ih values).cons_cons p

theorem value_of_const (evaluated : m.args g args = .ok values) {k : Nat} {c : Const}
    (passed : args[k]? = some (.const c)) : values[k]? = some (.ofConst c) := by
  obtain ⟨length, each⟩ := forall₂_iff_get.1 (mapM_eq_ok.1 evaluated)
  obtain ⟨bound, here⟩ := List.getElem?_eq_some_iff.1 passed
  have value := each k bound (length ▸ bound)
  rw [get_eq_getElem, get_eq_getElem, here] at value
  rw [getElem?_eq_getElem (length ▸ bound)]
  exact congrArg some (Except.ok.inj value).symm

theorem mem_params_of_setup {pair : VarId × Const} (member : pair ∈ setup consts params) : pair.1 ∈ params := by
  obtain ⟨⟨k, c⟩, -, here⟩ := mem_filterMap.1 member
  obtain ⟨p, param, rfl⟩ := Option.map_eq_some_iff.1 here
  exact mem_of_getElem? param

/-- A constant parameter of the function is of a type without slots, so that no argument can come in. -/
def Slotless (graphs : List Graph) (g : Graph) : Prop := ∃ p c, (p, c) ∈ setup (plan graphs g.name) g.params ∧
    ∃ x, g.vars[p]? = some x ∧ x.ty.slots? = some 0

/-- A function that is called without its constants gets a frame that only lacks them. -/
theorem enter_cases (specialized : Specialized graphs g h) (owns : g.OwnsParams)
    (bound : ∀ k ∈ places graphs g.name, k < g.params.length)
    (passed : ∀ k c, (k, c) ∈ plan graphs g.name → values[k]? = some (.ofConst c)) :
    (∃ e, enter g values = .error e ∧ enter h (dropAt (places graphs g.name) values) = .error e) ∨
    (enter g values = .error .fault ∧ Slotless graphs g) ∨
    ∃ frame frame', enter g values = .ok frame ∧ enter h (dropAt (places graphs g.name) values) = .ok frame' ∧
      frame'.fill ((setup (plan graphs g.name) g.params).map fun (p, c) => (p, .ofConst c)) = some frame := by
  have entered := enter_eq g values
  have entered' := enter_eq h (dropAt (places graphs g.name) values)
  rw [blank_akin specialized.akin, specialized.params, zip_dropAt] at entered'
  cases blanked : blank g with
  | error e =>
    rw [blanked] at entered entered'
    exact .inl ⟨e, entered, entered'⟩
  | ok start =>
    -- No parameter is named twice, so the constants may as well be written behind all other values.
    have order := fill_perm (zip_perm (places_ascend graphs g.name) bound passed)
      (owns.distinct.sublist (zip_fst_sublist g.params values)) start
    rw [fill_append, ← places] at order
    rw [blanked] at entered entered'
    change enter g values = (fill _ start).elim _ _ at entered
    change enter h _ = (fill _ start).elim _ _ at entered'
    rw [order] at entered
    cases passing : fill (dropAt (places graphs g.name) (g.params.zip values)) start with
    | none =>
      rw [passing] at entered entered'
      exact .inl ⟨.fault, entered, entered'⟩
    | some frame' =>
      rw [passing] at entered entered'
      rw [Option.bind_some] at entered
      cases setting : frame'.fill ((setup (plan graphs g.name) g.params).map fun (p, c) => (p, .ofConst c)) with
      | none =>
        rw [setting] at entered
        obtain ⟨_, member, none⟩ := exists_of_fill_eq_none setting
        obtain ⟨⟨p, c⟩, planned, rfl⟩ := mem_map.1 member
        obtain ⟨x, declared, -⟩ := owns.owned p (mem_params_of_setup planned)
        have blank : ¬start.HasSlot p := fun slot => none ((hasSlot_fill passing).2 slot)
        exact .inr (.inl ⟨entered, p, c, planned, x, declared, slots_of_blank blanked declared blank⟩)
      | some frame =>
        rw [setting] at entered
        exact .inr (.inr ⟨frame, frame', entered, entered', setting⟩)

end Values

/-! ## Code without constant parameters -/

section Code

variable {c : BlockId}

/-- An edge leads to the same code; where a function does something first, none leads. -/
theorem Specialized.target (specialized : Specialized graphs g h) (linked : g.Linked) (laid : b ∈ g.layout)
    (edge : c ∈ g.targets b) : List.Forall₂ (Retold graphs) (g.body c) (h.body c) ∧ h.tail c = g.tail c := by
  have laid' := linked.target_mem laid edge
  cases specialized.begins with
  | inside entry layout once body tail =>
    obtain ⟨code, retold, same⟩ := body c laid'
    refine ⟨?_, tail c laid'⟩
    split at same
    next first =>
      rcases once with nothing | never
      · rw [same, nothing]
        exact retold
      · exact absurd (first ▸ edge) (never b laid)
    · exact same ▸ retold
  | before layout body_entry tail_entry body tail => exact ⟨body c laid', tail c laid'⟩

/-- A function that was entered sets what it was not given, and then does what it did, or is cut off. -/
theorem exec_entry (specialized : Specialized graphs g h) (linked : g.Linked) (owns : g.OwnsParams)
    {frame frame' : Frame}
    (setting : frame'.fill ((setup (plan graphs g.name) g.params).map fun (p, c) => (p, .ofConst c)) = some frame)
    (same : (m.push frame').Same n) :
    (exec program fuel h (h.body h.entry) (h.tail h.entry) n).1 = .error .outOfSteps ∨
      ∃ fuel' n' code, (m.push frame).Same n' ∧ List.Forall₂ (Retold graphs) (g.body g.entry) code ∧
        exec program fuel h (h.body h.entry) (h.tail h.entry) n = exec program fuel' h code (g.tail g.entry) n' := by
  have owned : ∀ pair ∈ setup (plan graphs g.name) g.params, ∃ x, h.vars[pair.1]? = some x ∧ x.isGlobal = false := by
    intro pair member
    obtain ⟨x, declared, own⟩ := owns.owned pair.1 (mem_params_of_setup member)
    exact specialized.akin.owned declared own
  cases specialized.begins with
  | inside entry layout once body tail =>
    obtain ⟨code, retold, first⟩ := body g.entry linked.entry_mem
    rw [if_pos rfl] at first
    rw [entry, first, tail g.entry linked.entry_mem]
    rcases exec_settings owned setting same with cut | ⟨fuel', n', same', eq⟩
    · exact .inl cut
    · exact .inr ⟨fuel', n', code, same', retold, eq⟩
  | before layout body_entry tail_entry body tail =>
    rw [body_entry, tail_entry, ← append_nil (settings _)]
    rcases exec_settings owned setting same with cut | ⟨fuel', n', same', eq⟩
    · exact .inl cut
    · rw [eq]
      -- What is left of the new block is its jump to the old entry.
      cases fuel' with
      | zero => exact .inl rfl
      | succ fuel' =>
        rw [exec_nil, stepped]
        split
        · exact .inl rfl
        · refine .inr ⟨fuel', n'.tick, h.body g.entry, same'.tick_right, body g.entry linked.entry_mem, ?_⟩
          rw [← tail g.entry linked.entry_mem]
          rfl

end Code

/-! ## Whole programs -/

/-- A program, and what is left of it without constant parameters. -/
structure Propagated (program program' : Module) : Prop where
  distinct : (program.graphs.map (·.name)).Nodup
  linked : ∀ g ∈ program.graphs, g.Linked
  owns : ∀ g ∈ program.graphs, g.OwnsParams
  globals : program'.globals = program.globals
  strings : program'.strings = program.strings
  graphs : List.Forall₂ (Specialized program.graphs) program.graphs program'.graphs

namespace Propagated

variable {program' : Module} (propagated : Propagated program program')
include propagated

theorem graph? (name : Label) :
    Option.Rel (fun g h => g ∈ program.graphs ∧ g.name = name ∧ Specialized program.graphs g h)
      (program.graph? name) (program'.graph? name) := by
  suffices general : ∀ {gs hs : List Graph}, (∀ g ∈ gs, g ∈ program.graphs) →
      List.Forall₂ (Specialized program.graphs) gs hs → Option.Rel _ (gs.find? (·.name == name))
        (hs.find? (·.name == name)) from general (fun _ => id) propagated.graphs
  intro gs hs members related
  induction related with
  | nil => exact .none
  | @cons g h gs hs specialized _ ih =>
    obtain ⟨member, others⟩ := forall_mem_cons.1 members
    rw [find?_cons, find?_cons, specialized.akin.name]
    cases named : g.name == name with
    | true => exact .some ⟨member, beq_iff_eq.1 named, specialized⟩
    | false => exact ih others

/-- With so much fuel, a function and what has become of it agree wherever they are in step. -/
def Simulates (program program' : Module) (fuel : Nat) : Prop :=
  ∀ ⦃fuel' : Nat⦄ ⦃g h : Graph⦄ ⦃b : BlockId⦄ ⦃code code' : List Quad⦄ ⦃m n : Machine⦄,
    g ∈ program.graphs → Specialized program.graphs g h → b ∈ g.layout →
    List.Forall₂ (Retold program.graphs) code code' → m.Same n →
      AgreeUnless (∃ g ∈ program.graphs, Slotless program.graphs g) (m.exec program fuel g code (g.tail b))
        (n.exec program' fuel' h code' (g.tail b))

variable {fuel' : Nat} (simulates : Simulates program program' fuel) {callee : Label}
include simulates

theorem enter (passed : ∀ k c, (k, c) ∈ plan program.graphs callee → values[k]? = some (.ofConst c)) (same : m.Same n) :
    AgreeUnless (∃ g ∈ program.graphs, Slotless program.graphs g)
      (m.enter (fun g m => exec program fuel g (g.body g.entry) (g.tail g.entry) m) program callee values)
      (n.enter (fun g m => exec program' fuel' g (g.body g.entry) (g.tail g.entry) m) program' callee
        (dropAt (places program.graphs callee) values)) := by
  unfold Machine.enter
  have related := propagated.graph? callee
  generalize program.graph? callee = found at related
  generalize program'.graph? callee = found' at related
  cases related with
  | none => exact .of_same same _
  | @some g h paired =>
    obtain ⟨member, rfl, specialized⟩ := paired
    have owns := propagated.owns g member
    rcases enter_cases specialized owns (fun _ => places_lt propagated.distinct member) passed with
      ⟨e, entered, entered'⟩ | ⟨entered, slotless⟩ | ⟨frame, frame', entered, entered', setting⟩
    · simp only [entered, entered']
      exact .of_same same _
    · simp only [entered]
      exact .inl ⟨⟨g, member, slotless⟩, rfl⟩
    · have runs : AgreeUnless (∃ g ∈ program.graphs, Slotless program.graphs g)
          (exec program fuel g (g.body g.entry) (g.tail g.entry) (m.push frame))
          (exec program' fuel' h (h.body h.entry) (h.tail h.entry) (n.push frame')) := by
        have linked := propagated.linked g member
        rcases exec_entry specialized linked owns setting (same.push frame') with
          cut | ⟨fuel', n', code, same', retold, eq⟩
        · exact .cut_right cut
        · rw [eq]
          exact simulates member specialized linked.entry_mem retold same'
      simp only [entered, entered']
      rcases runs with excuse | cut | cut | ⟨value, same⟩
      · exact .inl excuse
      · exact .cut_left cut
      · exact .cut_right cut
      · exact .inr (.inr (.inr ⟨value, same.pop⟩))

theorem quad {q q' : Quad} (specialized : Specialized program.graphs g h) (retold : Retold program.graphs q q')
    (same : m.Same n) :
    AgreeUnless (∃ g ∈ program.graphs, Slotless program.graphs g) (m.quad program fuel g q)
      (n.quad program' fuel' h q') := by
  have akin := specialized.akin
  cases retold with
  | other plain =>
    rw [quad_act plain, quad_act plain, propagated.strings, akin.effect, same.effect]
    refine .andThen (.of_same same _) fun e _ _ _ same => ?_
    rw [akin.destination, (same.perform e).destination]
    exact .andThen (.of_same (same.perform e) _) fun d _ _ _ same => .of_same (same.deliver d) _
  | @call callee args op listed =>
    have passed (k : Nat) (c : Const) (planned : (k, c) ∈ plan program.graphs callee) :
        args[k]? = some (.const c) := passed_of_plan propagated.distinct listed planned
    have dropped := args_dropAt (g := g) (m := m) (places_ascend program.graphs callee) passed
    rw [quad_call op, quad_call rfl, akin.args, same.args, places, dropped]
    cases evaluated : m.args g args with
    | error e => exact .of_same same _
    | ok values =>
      change AgreeUnless _ (andThen (m.enter _ program callee values) _)
        (andThen (n.enter _ program' callee (dropAt (places program.graphs callee) values)) _)
      refine .andThen (propagated.enter simulates
        (fun k c planned => value_of_const evaluated (passed k c planned)) same) fun x _ _ _ same => ?_
      rw [akin.destination, same.destination]
      exact .andThen (.of_same same _) fun d _ _ _ same => .of_same (same.deliver d) _

omit simulates

theorem simulates_all (fuel : Nat) : Simulates program program' fuel := by
  -- The new program takes more steps where a function begins, so its fuel is arbitrary throughout.
  induction fuel with (intro fuel' g h b code code' m n member specialized laid retold same)
  | zero =>
    exact .cut_left rfl
  | succ fuel ih =>
    cases fuel' with
    | zero => exact .cut_right rfl
    | succ fuel' =>
      cases retold with
      | nil =>
        rw [exec_nil, exec_nil]
        refine .stepped same fun same => ?_
        rw [specialized.akin.next, same.next]
        refine .andThen (.of_same same _) fun way _ _ went same => ?_
        cases way with
        | inr x => exact .of_same same _
        | inl c =>
          have edge : c ∈ g.targets b := next_target (congrArg Prod.fst went)
          have linked := propagated.linked g member
          obtain ⟨retold, tail⟩ := specialized.target linked laid edge
          dsimp only
          rw [tail]
          exact ih member specialized (linked.target_mem laid edge) retold same
      | cons here later =>
        rw [exec_cons, exec_cons]
        refine .stepped same fun same => ?_
        exact .andThen (propagated.quad ih specialized here same) fun _ _ _ _ same =>
          ih member specialized laid later same

theorem call (args : List Value) (m : Machine) :
    AgreeUnless (∃ g ∈ program.graphs, Slotless program.graphs g) (m.call program "main" args)
      (m.call program' "main" args) :=
  propagated.enter (propagated.simulates_all _) (fun _ _ planned => nomatch planned) (.refl m)

/-- A call that passed as many arguments as its callee has parameters still does. -/
theorem counted (found : program.graph? callee = some g) (counted : args.length = g.params.length) :
    ∃ h, program'.graph? callee = some h ∧ (dropAt (places program.graphs callee) args).length = h.params.length := by
  obtain ⟨h, found', -, rfl, specialized⟩ := Module.graph?_paired (propagated.graph? callee) found
  refine ⟨h, found', ?_⟩
  rw [specialized.params]
  exact length_dropAt_congr counted

end Propagated

/-- The pass comes to an end, and keeps what the main function gives and whether calls pass as many
arguments as there are parameters. Only where a parameter without slots is gone, a run may do something
else than fault for the argument that could not come in. -/
theorem pass_keeps_program {m : Module} (distinct : (m.graphs.map (·.name)).Nodup) (normal : ∀ g ∈ m.graphs, g.Normal)
    (owns : ∀ g ∈ m.graphs, g.OwnsParams) (s : Supply) :
    ∃ m' s' n, pass m s = .ok (m', s', n) ∧
      (∀ args input, (∃ g ∈ m.graphs, Slotless m.graphs g) ∧ m.run "main" args input = .error .fault ∨
        m.run "main" args input = .error .outOfSteps ∨ m'.run "main" args input = .error .outOfSteps ∨
        m'.run "main" args input = m.run "main" args input) ∧
      List.Forall₂ (fun site site' => site'.1 = site.1 ∧
        ∀ callee, m.graph? site.1 = some callee → site.2.length = callee.params.length →
          ∃ callee', m'.graph? site.1 = some callee' ∧ site'.2.length = callee'.params.length)
        (calls m.graphs) (calls m'.graphs) := by
  have linked : ∀ g ∈ m.graphs, g.Linked := fun g member => (normal g member).toLinked
  obtain ⟨m', s', n, passed, globals, strings, graphs⟩ := pass_ok distinct linked owns s
  have propagated : Propagated m m' := ⟨distinct, linked, owns, globals, strings, graphs⟩
  refine ⟨m', s', n, passed, fun args input => Module.run_agreeUnless globals (propagated.call args), ?_⟩
  rw [calls_specialized graphs, forall₂_map_right_iff, forall₂_same]
  exact fun site _ => ⟨rfl, fun callee found counted => propagated.counted found counted⟩

end Parameters

/-- Goes up to 9 in steps and prints on the way. It starts with its loop, and calls itself there. The
variables `n` and `step` are 0 and 1. -/
def climbing : Function where
  name := "climbing"
  ret := some .int
  vars := #[.declare "n" .int .param, .declare "step" .int .param]
  params := [0, 1]
  quads := [
    .effect (.label "test"),
    .effect (.jumpIf .ge (.var 0) (.const (.int 9)) "done"),
    .effect (.print (.var 0)),
    .effect (.call "climbing" [.const (.int 9), .const (.int 3)]),
    ⟨some 0, .binOp .add (.var 0) (.var 1)⟩,
    .effect (.goto "test"),
    .effect (.label "done"),
    .effect (.ret (some (.var 0)))]

def climber : Function where
  name := "main"
  vars := #[.declare "n" .int .param, .declare "r" .int .temporary]
  params := [0]
  quads := [⟨some 1, .call "climbing" [.var 0, .const (.int 3)]⟩, .effect (.ret (some (.var 1)))]

def climbers : Module := ⟨[], .empty, [climber.graph, climbing.graph]⟩

theorem climbers_normal : ∀ g ∈ climbers.graphs, g.Normal := by
  rw [climbers, forall_mem_cons, forall_mem_singleton]
  exact ⟨climber.graph_normal rfl (by decide), climbing.graph_normal rfl (by decide)⟩

/-- The size of the steps is set in a new block in front of the loop, and every call still passes as many
arguments as there are parameters. -/
theorem climbers_keep_program : (climbers.graphs.map (·.name)).Nodup ∧
    (∀ g ∈ climbers.graphs, g.Normal) ∧ (∀ g ∈ climbers.graphs, g.OwnsParams) ∧
    ∃ m s n, Parameters.pass climbers ⟨9⟩ = .ok (m, s, n) ∧
      m.graphs.map (fun g => (g.layout, g.params)) = [([0, 1], [0]), ([4, 0, 1, 2, 3], [0])] ∧
      m.run "main" [.int 4] [] = .ok ⟨some (.int 10), "47"⟩ ∧
      ∀ call ∈ Parameters.calls m.graphs, ∃ callee, m.graph? call.1 = some callee ∧
        call.2.length = callee.params.length := by
  have distinct : (climbers.graphs.map (·.name)).Nodup := by decide +kernel
  have owns : ∀ g ∈ climbers.graphs, g.OwnsParams := by decide +kernel
  have before : climbers.run "main" [.int 4] [] = .ok ⟨some (.int 10), "47"⟩ := by decide +kernel
  have after : ((Parameters.pass climbers ⟨9⟩).toOption.map fun r =>
      (r.1.graphs.map (fun g => (g.layout, g.params)), (r.1.run "main" [.int 4] []).isOk)) =
        some ([([0, 1], [0]), ([4, 0, 1, 2, 3], [0])], true) := by decide +kernel
  obtain ⟨m, s, n, passed, runs, sites⟩ :=
    Parameters.pass_keeps_program distinct climbers_normal owns ⟨9⟩
  rw [passed] at after
  obtain ⟨shape, ends⟩ := Prod.mk.inj (Option.some.inj after)
  refine ⟨distinct, climbers_normal, owns, m, s, n, passed, shape, ?_, fun call member => ?_⟩
  · rcases runs [.int 4] [] with ⟨-, fault⟩ | cut | cut | same
    · cases before.symm.trans fault
    · cases before.symm.trans cut
    · rw [cut] at ends
      cases ends
    · exact same.trans before
  · obtain ⟨site, listed, named, counted⟩ := exists_of_forall₂ sites.flip member
    have once : ∀ site ∈ Parameters.calls climbers.graphs, ∃ callee ∈ climbers.graph? site.1,
        site.2.length = callee.params.length := by decide +kernel
    obtain ⟨callee, found, passes⟩ := once site listed
    rw [named]
    exact counted callee found passes

/-- Has a parameter that nothing can be passed for. -/
def hollow : Function where
  name := "hollow"
  vars := #[.declare "a" (.array .int 0) .param]
  params := [0]
  quads := [.effect (.ret none)]

def overfilling : Function where
  name := "main"
  vars := #[]
  quads := [.effect (.call "hollow" [.const (.int 5)]), .effect (.ret none)]

def hollows : Module := ⟨[], .empty, [overfilling.graph, hollow.graph]⟩

/-- Without the parameter, the call succeeds, and the function itself finds no room for the constant. -/
theorem hollows_change : (hollows.graphs.map (·.name)).Nodup ∧ (∀ g ∈ hollows.graphs, g.Normal) ∧
    (∀ g ∈ hollows.graphs, g.OwnsParams) ∧ hollows.run "main" [] [] = .error .fault ∧
    ∃ m s n, Parameters.pass hollows ⟨9⟩ = .ok (m, s, n) ∧
      m.run "main" [] [] = .error (.error (.outOfBounds "hollow")) := by
  refine ⟨by decide +kernel, ?_, by decide +kernel, by decide +kernel, ?_⟩
  · rw [hollows, forall_mem_cons, forall_mem_singleton]
    exact ⟨overfilling.graph_normal rfl (by decide), hollow.graph_normal rfl (by decide)⟩
  · have after : ((Parameters.pass hollows ⟨9⟩).toOption.map fun r => r.1.run "main" [] []) =
        some (.error (.error (.outOfBounds "hollow"))) := by decide +kernel
    obtain ⟨⟨m, s, n⟩, passed, ran⟩ := toOption_map_eq_some.1 after
    exact ⟨m, s, n, passed, ran⟩

end Quadcode
