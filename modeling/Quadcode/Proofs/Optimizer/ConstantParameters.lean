import Mathlib.Data.List.Perm.Basic
import Quadcode.Optimizer.Parameters
import Quadcode.Proofs.Eval.Arguments
import Quadcode.Proofs.Graph.Edits

/-!
# What becomes of constant parameters

A parameter is constant if every call passes as many arguments as there are parameters, and the same
constant in its place. Such a function loses the parameter, sets a variable to the constant first, and is
called without it everywhere.
-/

namespace Quadcode

open List Option Array Quadcode.Graph ConstState

variable {k : Nat} {graphs : List Graph} {c : Const} {args : List Arg} {g : Graph}

namespace Parameters

/-! ## Items taken out by their places -/

section Places

variable {α β ε : Type} {places : List Nat} {xs : List α} {ys : List β}

/-- Takes items out by their places, which ascend. -/
def dropAt (places : List Nat) (xs : List α) : List α := places.foldr (fun k xs => xs.eraseIdx k) xs

theorem dropAt_cons : dropAt (k :: places) xs = (dropAt places xs).eraseIdx k := rfl

/-- What stands before all of the places stays where it is. -/
theorem getElem?_dropAt (xs : List α) (before : ∀ j ∈ places, k < j) : (dropAt places xs)[k]? = xs[k]? := by
  induction places with
  | nil => rfl
  | cons j rest ih =>
    rw [dropAt_cons, getElem?_eraseIdx_of_lt (before j mem_cons_self)]
    exact ih fun i member => before i (.tail _ member)

theorem length_dropAt_congr (same : xs.length = ys.length) : (dropAt places xs).length = (dropAt places ys).length := by
  induction places with
  | nil => exact same
  | cons j rest ih => rw [dropAt_cons, dropAt_cons, length_eraseIdx, length_eraseIdx, ih]

theorem zip_eraseIdx (xs : List α) (ys : List β) (k : Nat) :
    (xs.eraseIdx k).zip (ys.eraseIdx k) = (xs.zip ys).eraseIdx k := by
  induction xs generalizing ys k with
  | nil => rfl
  | cons x xs ih =>
    cases ys with
    | nil => simp
    | cons y ys =>
      cases k with
      | zero => rfl
      | succ k => simp [ih]

theorem zip_dropAt (places : List Nat) (xs : List α) (ys : List β) :
    (dropAt places xs).zip (dropAt places ys) = dropAt places (xs.zip ys) := by
  induction places with
  | nil => rfl
  | cons k rest ih => rw [dropAt_cons, dropAt_cons, dropAt_cons, zip_eraseIdx, ih]

/-- What an item gives need not be known where it does not fail. -/
theorem mapM_eraseIdx {f : α → Except ε β} {x : α} {y : β} (here : xs[k]? = some x) (done : f x = .ok y) :
    (xs.eraseIdx k).mapM f = (·.eraseIdx k) <$> xs.mapM f := by
  induction xs generalizing k with
  | nil => cases here
  | cons a rest ih =>
    cases k with
    | zero =>
      obtain rfl : a = x := Option.some.inj here
      rw [eraseIdx_cons_zero, mapM_cons, done]
      cases rest.mapM f <;> rfl
    | succ k =>
      rw [eraseIdx_cons_succ, mapM_cons, mapM_cons, ih here]
      cases f a with
      | error e => rfl
      | ok b => cases rest.mapM f <;> rfl

end Places

/-! ## What calls pass -/

section Incoming

variable {states : List ConstState} {name : Label} {start : Incoming}

theorem length_join : (join states args).length = states.length := by
  unfold join
  split
  · simp
  next same => simp [not_not.1 same]

theorem join_cases {s : ConstState} (here : (join states args)[k]? = some s) :
    s = .notConstant ∨ args.length = states.length ∧
      ∃ t a, states[k]? = some t ∧ args[k]? = some a ∧ t.meet (ofArg a) = s := by
  unfold join at here
  split at here
  · rw [List.getElem?_map, Option.map_eq_some_iff] at here
    obtain ⟨_, -, rfl⟩ := here
    exact .inl rfl
  next counted =>
    rw [List.getElem?_zipWith] at here
    split at here
    next t a known passed => exact .inr ⟨(not_not.1 counted).symm, t, a, known, passed, Option.some.inj here⟩
    · cases here

/-- After a call, only a parameter that may have been this constant before still may be. -/
theorem of_join (known : (join states args)[k]? = some (.constant c)) :
    args.length = states.length ∧ args[k]? = some (.const c) ∧
      (states[k]? = some .unknown ∨ states[k]? = some (.constant c)) := by
  rcases join_cases known with other | ⟨counted, t, a, before, passed, met⟩
  · cases other
  · refine ⟨counted, ?_⟩
    rw [before, passed]
    cases a with
    | const d =>
      cases t with
      | unknown =>
        cases met
        exact ⟨rfl, .inl rfl⟩
      | notConstant => cases met
      | constant e =>
        rw [ofArg, meet] at met
        split at met
        next same =>
          cases met
          exact ⟨by rw [same], .inr rfl⟩
        · cases met
    | var | str => cases t <;> simp [ofArg, meet] at met

theorem join_ne_unknown : (join states args)[k]? ≠ some .unknown := by
  intro unknown
  rcases join_cases unknown with other | ⟨-, t, a, -, -, met⟩
  · cases other
  · cases a <;> cases t <;> simp [ofArg, meet] at met
    split at met <;> cases met

/-- If a parameter is known to be constant after a number of calls, all of them have passed that. -/
theorem of_foldl_join {calls : List (List Arg)} (known : (calls.foldl join states)[k]? = some (.constant c)) :
    (states[k]? = some .unknown ∨ states[k]? = some (.constant c)) ∧
      ∀ args ∈ calls, args.length = states.length ∧ args[k]? = some (.const c) := by
  induction calls generalizing states with
  | nil => exact ⟨.inr known, nofun⟩
  | cons args rest ih =>
    obtain ⟨start, others⟩ := ih known
    obtain ⟨counted, passed, before⟩ := of_join (start.resolve_left join_ne_unknown)
    rw [length_join] at others
    exact ⟨before, forall_mem_cons.2 ⟨⟨counted, passed⟩, others⟩⟩

theorem incoming_start_of_not_mem (absent : name ∉ graphs.map (·.name)) :
    (graphs.foldl (fun m g => m.insert g.name (g.params.map fun _ => .unknown)) start)[name]? = start[name]? := by
  induction graphs generalizing start with
  | nil => rfl
  | cons g rest ih =>
    rw [map_cons, mem_cons, not_or] at absent
    rw [List.foldl_cons, ih absent.2, Std.ExtTreeMap.getElem?_insert]
    simp [Ne.symm absent.1]

theorem incoming_start (distinct : (graphs.map (·.name)).Nodup) (member : g ∈ graphs) :
    (graphs.foldl (fun m g => m.insert g.name (g.params.map fun _ => .unknown)) start)[g.name]? =
      some (g.params.map fun _ => .unknown) := by
  induction graphs generalizing start with
  | nil => cases member
  | cons h rest ih =>
    rw [map_cons, nodup_cons] at distinct
    rw [foldl_cons]
    rcases mem_cons.1 member with rfl | later
    · rw [incoming_start_of_not_mem distinct.1]
      simp
    · exact ih distinct.2 later

/-- What is known of a function is what its own calls say. -/
theorem incoming_calls (calls : List (Label × List Arg)) (start : Incoming) (name : Label) :
    (calls.foldl (fun m (callee, args) => m.modify callee (join · args)) start)[name]? =
      start[name]?.map (((calls.filter (·.1 = name)).map (·.2)).foldl join ·) := by
  induction calls generalizing start with
  | nil => simp
  | cons call rest ih =>
    obtain ⟨callee, args⟩ := call
    rw [List.foldl_cons, ih, Std.ExtTreeMap.getElem?_modify]
    by_cases same : callee = name
    · subst same
      simp [Function.comp_def]
    · simp [same]

/-- The constant parameters of a function by their places; those of the main function stay. -/
def plan (graphs : List Graph) (name : Label) : List (Nat × Const) :=
  if name = "main" then [] else constants ((incoming graphs)[name]?.getD [])

/-- The places of the parameters that a function loses. -/
def places (graphs : List Graph) (name : Label) : List Nat := (plan graphs name).map (·.1)

theorem mem_constants : (k, c) ∈ constants states ↔ states[k]? = some (.constant c) := by
  simp only [constants, List.mem_filterMap, Prod.exists, List.mem_zipIdx_iff_getElem?,
    Option.map_eq_some_iff, Prod.mk.injEq]
  constructor
  · rintro ⟨s, j, here, d, known, rfl, rfl⟩
    cases s <;> simp_all [const?]
  · exact fun here => ⟨_, k, here, c, rfl, rfl, rfl⟩

theorem constants_ascend (states : List ConstState) : ((constants states).map (·.1)).Pairwise (· < ·) := by
  rw [constants, pairwise_map, pairwise_filterMap]
  have places : (states.zipIdx.map (·.2)).Pairwise (· < ·) := by
    rw [List.zipIdx_map_snd]
    exact pairwise_lt_range'
  rw [pairwise_map] at places
  refine places.imp fun {x y} before a first b second => ?_
  obtain ⟨_, -, rfl⟩ := map_eq_some_iff.1 first
  obtain ⟨_, -, rfl⟩ := map_eq_some_iff.1 second
  exact before

theorem places_ascend (graphs : List Graph) (name : Label) : (places graphs name).Pairwise (· < ·) := by
  unfold places plan
  split
  · exact .nil
  · exact constants_ascend _

theorem plan_eq_nil (absent : name ∉ graphs.map (·.name)) : plan graphs name = [] := by
  unfold plan
  split
  · rfl
  · rw [incoming, incoming_calls, incoming_start_of_not_mem absent]
    rfl

theorem exists_of_plan (some : plan graphs name ≠ []) : ∃ g ∈ graphs, g.name = name := by
  by_contra unknown
  exact some (plan_eq_nil fun named => unknown (mem_map.1 named))

variable (distinct : (graphs.map (·.name)).Nodup)
include distinct

/-- A constant parameter is one of the function, and every call passes it among as many arguments as
there are parameters. -/
theorem of_mem_plan (member : g ∈ graphs) (planned : (k, c) ∈ plan graphs g.name) :
    k < g.params.length ∧ ∀ args, (g.name, args) ∈ calls graphs →
        args.length = g.params.length ∧ args[k]? = some (.const c) := by
  unfold plan at planned
  split at planned
  · cases planned
  · rw [incoming, incoming_calls, incoming_start distinct member, mem_constants] at planned
    obtain ⟨start, passed⟩ := of_foldl_join planned
    refine ⟨?_, fun args call => ?_⟩
    · rcases start with unknown | known
      · simpa using (List.getElem?_eq_some_iff.1 unknown).1
      · simpa using (List.getElem?_eq_some_iff.1 known).1
    · have listed := passed args (mem_map.2 ⟨_, mem_filter.2 ⟨call, by simp⟩, rfl⟩)
      simpa using listed

theorem places_lt (member : g ∈ graphs) (lost : k ∈ places graphs g.name) : k < g.params.length := by
  obtain ⟨⟨k, c⟩, planned, rfl⟩ := mem_map.1 lost
  exact (of_mem_plan distinct member planned).1

/-- A call passes the constants of its callee. -/
theorem passed_of_plan (listed : (name, args) ∈ calls graphs) (planned : (k, c) ∈ plan graphs name) :
    args[k]? = some (.const c) := by
  obtain ⟨g, member, rfl⟩ := exists_of_plan (ne_nil_of_mem planned)
  exact ((of_mem_plan distinct member planned).2 args listed).2

end Incoming

end Parameters

/-- The parameters are variables of the function, each named once, none of them global. -/
structure Graph.OwnsParams (g : Graph) : Prop where
  distinct : g.params.Nodup
  owned : ∀ p ∈ g.params, ∃ x, g.vars[p]? = some x ∧ x.isGlobal = false

instance (g : Graph) : Decidable g.OwnsParams :=
  decidable_of_iff (g.params.Nodup ∧ ∀ p ∈ g.params, g.vars[p]?.any (!·.isGlobal))
    ⟨fun ⟨distinct, owned⟩ => ⟨distinct, by simpa [Option.any_eq_true] using owned⟩,
      fun owns => ⟨owns.distinct, by simpa [Option.any_eq_true] using owns.owned⟩⟩

namespace Parameters

open Machine (settings)

/-! ## Functions that lose parameters -/

section Functions

variable {h : Graph} {entry : BlockId} {consts : List (Nat × Const)} {s : Supply} {p : VarId}

/-- The variables of constant parameters, with the constants. -/
def setup (consts : List (Nat × Const)) (params : List VarId) : List (VarId × Const) :=
  consts.filterMap fun (k, c) => params[k]?.map (·, c)

/-- Parameters have become locals that one block sets first. -/
structure Localized (entry : BlockId) (consts : List (Nat × Const)) (g h : Graph) : Prop where
  akin : g.Akin h
  params : h.params = dropAt (consts.map (·.1)) g.params
  body : ∀ b, h.body b = if entry = b then settings (setup consts g.params) ++ g.body b else g.body b
  tail : ∀ b, h.tail b = g.tail b
  layout : h.layout = g.layout
  entry : h.entry = g.entry
  size : h.blocks.size = g.blocks.size

theorem setup_cons {params : List VarId} (param : params[k]? = some p) :
    setup ((k, c) :: consts) params = (p, c) :: setup consts params := by
  simp [setup, param]

theorem localize_ok {x : Variable} (inside : entry < g.blocks.size) (param : g.params[k]? = some p)
    (declared : g.vars[p]? = some x) (owned : x.isGlobal = false) :
    ∃ h, localize entry g k c = .ok h ∧ Localized entry [(k, c)] g h := by
  let moved : Graph := { g with
    params := g.params.eraseIdx k
    vars := g.vars.setIfInBounds p { x with scope := .local } }
  have outline (v : VarId) : moved.vars[v]?.map Variable.outline = g.vars[v]?.map Variable.outline := by
    rw [getElem?_setIfInBounds]
    split
    next same =>
      subst same
      obtain ⟨bound, -⟩ := Array.getElem?_eq_some_iff.1 declared
      rw [if_pos bound, declared]
      simp only [map_some, Variable.outline, owned]
      rfl
    · rfl
  refine ⟨moved.setBody entry (⟨some p, .assign (.const c)⟩ :: moved.body entry), ?_, ⟨rfl, outline⟩, rfl,
    fun b => ?_, setBody_tail, rfl, rfl, modifyBlock_size⟩
  · simp only [localize, bind_eq_ok, orFault_eq_ok, pure_eq_ok]
    exact ⟨p, param, x, declared, rfl⟩
  · rw [setBody_body (g := moved) inside, setup_cons param]
    split
    next same =>
      subst same
      rfl
    · rfl

theorem localize_all (inside : entry < g.blocks.size) (owns : g.OwnsParams)
    (ascend : (consts.map (·.1)).Pairwise (· < ·)) (bound : ∀ k ∈ consts.map (·.1), k < g.params.length) :
    ∃ h, consts.reverse.foldlM (fun g (k, c) => localize entry g k c) g = .ok h ∧ Localized entry consts g h := by
  rw [List.foldlM_reverse]
  induction consts with
  | nil => exact ⟨g, rfl, .refl g, rfl, fun b => by simp [setup, settings], fun _ => rfl, rfl, rfl, rfl⟩
  | cons first rest ih =>
    obtain ⟨k, c⟩ := first
    rw [map_cons, pairwise_cons] at ascend
    rw [map_cons, forall_mem_cons] at bound
    obtain ⟨h, done, localized⟩ := ih ascend.2 bound.2
    obtain ⟨p, param⟩ : ∃ p, g.params[k]? = some p := ⟨_, getElem?_eq_getElem bound.1⟩
    -- The places that are already gone come later.
    have param' : h.params[k]? = some p := by rw [localized.params, getElem?_dropAt _ ascend.1, param]
    obtain ⟨x, declared, owned⟩ := owns.owned p (mem_of_getElem? param)
    obtain ⟨y, declared', owned'⟩ := localized.akin.owned declared owned
    obtain ⟨h', one, localized'⟩ := localize_ok (localized.size ▸ inside) param' declared' owned'
    refine ⟨h', by rw [foldrM_cons, done]; exact one, localized.akin.trans localized'.akin, ?_, fun b => ?_,
      fun b => (localized'.tail b).trans (localized.tail b), localized'.layout.trans localized.layout,
      localized'.entry.trans localized.entry, localized'.size.trans localized.size⟩
    · rw [localized'.params, localized.params]
      rfl
    · rw [localized'.body, localized.body, setup_cons param, setup_cons param']
      split <;> rfl

/-- A function does something first: in its entry, if no edge leads back there, or in a new block in front
of it. Elsewhere its code is related to the old one block by block. -/
inductive Begins (rel : List Quad → List Quad → Prop) (first : List Quad) (g h : Graph) : Prop where
  | inside (entry : h.entry = g.entry) (layout : h.layout = g.layout)
      (once : first = [] ∨ ∀ b ∈ g.layout, g.entry ∉ g.targets b)
      (body : ∀ b ∈ g.layout, ∃ code, rel (g.body b) code ∧ h.body b = if g.entry = b then first ++ code else code)
      (tail : ∀ b ∈ g.layout, h.tail b = g.tail b)
  | before (layout : h.layout = h.entry :: g.layout) (body_entry : h.body h.entry = first)
      (tail_entry : h.tail h.entry = .jump g.entry) (body : ∀ b ∈ g.layout, rel (g.body b) (h.body b))
      (tail : ∀ b ∈ g.layout, h.tail b = g.tail b)

/-- What a function without its constant parameters has to do with the old one. -/
structure Settled (consts : List (Nat × Const)) (g h : Graph) : Prop where
  akin : g.Akin h
  params : h.params = dropAt (consts.map (·.1)) g.params
  begins : Begins Eq (settings (setup consts g.params)) g h
  layout_nodup : h.layout.Nodup
  layout_lt : ∀ b ∈ h.layout, b < h.blocks.size

theorem settled_nil (linked : g.Linked) : Settled [] g g where
  akin := .refl g
  params := rfl
  begins := .inside rfl rfl (.inl rfl) (fun b _ => ⟨g.body b, rfl, by simp [setup, settings]⟩) fun _ _ => rfl
  layout_nodup := linked.layout_nodup
  layout_lt _ := linked.lt_size

theorem settled_inside (linked : g.Linked) (alone : g.preds g.entry = []) (localized : Localized g.entry consts g h) :
    Settled consts g h where
  akin := localized.akin
  params := localized.params
  begins := by
    refine .inside localized.entry localized.layout (.inr fun b member edge => ?_)
      (fun b _ => ⟨g.body b, rfl, localized.body b⟩) fun b _ => localized.tail b
    have pred := linked.pred_of_target member edge
    rw [alone] at pred
    cases pred
  layout_nodup := localized.layout ▸ linked.layout_nodup
  layout_lt b member := by
    rw [localized.layout] at member
    rw [localized.size]
    exact linked.lt_size member

/-- A block comes in front of the entry. -/
def prefaced (g : Graph) (x : Block) : Graph :=
  { (g.addBlock x).2 with entry := g.blocks.size, layout := g.blocks.size :: g.layout }

section Prefaced

variable {x : Block} {b : BlockId} (linked : g.Linked)

theorem prefaced_block_entry : (prefaced g x).block g.blocks.size = x := Graph.Draft.addBlock_self

include linked

theorem prefaced_block (member : b ∈ g.layout) : (prefaced g x).block b = g.block b :=
  Graph.Draft.addBlock_of_ne (linked.lt_size member).ne

variable (jump : x.tail = .jump g.entry)
include jump

theorem prefaced_mem_layout (b : BlockId) :
    b ∈ (prefaced g x).layout ↔ (prefaced g x).Reaches (prefaced g x).entry b := by
  have first : (prefaced g x).targets g.blocks.size = [g.entry] := by
    rw [Graph.targets, Graph.tail, prefaced_block_entry, jump]
    rfl
  have old {c : BlockId} (member : c ∈ g.layout) : (prefaced g x).targets c = g.targets c := by
    rw [Graph.targets, Graph.tail, prefaced_block linked member]
    rfl
  constructor
  · intro listed
    rcases mem_cons.1 listed with rfl | member
    · exact .refl
    · have path := (linked.mem_layout b).1 member
      clear listed member
      induction path with
      | refl => exact .single (first ▸ mem_singleton.2 rfl)
      | @tail c d path edge ih => exact ih.tail (old ((linked.mem_layout c).2 path) ▸ edge)
  · intro path
    induction path with
    | refl => exact mem_cons_self
    | @tail c d _ edge ih =>
      refine .tail _ ?_
      rcases mem_cons.1 ih with rfl | member
      · rw [first] at edge
        obtain rfl := mem_singleton.1 edge
        exact linked.entry_mem
      · rw [old member] at edge
        exact linked.target_mem member edge

theorem prefaced_inside : (prefaced g x).Inside := by
  intro b path
  have size : (prefaced g x).blocks.size = g.blocks.size + 1 := size_push x
  rw [size]
  rcases mem_cons.1 ((prefaced_mem_layout linked jump b).2 path) with rfl | member
  · exact Nat.lt_succ_self _
  · exact Nat.lt_succ_of_lt (linked.lt_size member)

theorem settled_before (empty : x.body = []) (localized : Localized g.blocks.size consts (prefaced g x).relink h) :
    Settled consts g h := by
  have inside := prefaced_inside linked jump
  have layout : (prefaced g x).relink.layout = g.blocks.size :: g.layout :=
    inside.liveLayout_eq (prefaced_mem_layout linked jump)
  have new {b : BlockId} (member : b ∈ g.layout) : g.blocks.size ≠ b := (linked.lt_size member).ne'
  have linked' : (prefaced g x).relink.Linked :=
    inside.relink_linked (nodup_cons.2 ⟨fun member => new member rfl, linked.layout_nodup⟩)
  have entry : h.entry = g.blocks.size := localized.entry
  have body (b : BlockId) (member : b ∈ g.layout) : h.body b = g.body b := by
    rw [localized.body, if_neg (new member), relink_body, Graph.body, prefaced_block linked member]
    rfl
  have tail (b : BlockId) (member : b ∈ g.layout) : h.tail b = g.tail b := by
    rw [localized.tail, relink_tail, Graph.tail, prefaced_block linked member]
    rfl
  refine ⟨⟨localized.akin.name, localized.akin.outline⟩, localized.params, .before ?_ ?_ ?_
    (fun b member => (body b member).symm) tail, ?_, fun b member => ?_⟩
  · rw [localized.layout, layout, entry]
  · rw [entry, localized.body, if_pos rfl, relink_body, Graph.body, prefaced_block_entry, empty, append_nil]
    rfl
  · rw [entry, localized.tail, relink_tail, Graph.tail, prefaced_block_entry, jump]
  · exact localized.layout ▸ linked'.layout_nodup
  · rw [localized.layout] at member
    rw [localized.size]
    exact linked'.lt_size member

end Prefaced

theorem localizeAll_ok (linked : g.Linked) (owns : g.OwnsParams) (ascend : (consts.map (·.1)).Pairwise (· < ·))
    (bound : ∀ k ∈ consts.map (·.1), k < g.params.length) (s : Supply) :
    ∃ h s', localizeAll g consts s = .ok (h, s') ∧ Settled consts g h := by
  simp only [localizeAll, bind_eq_ok, pure_eq_ok, Prod.mk.injEq]
  by_cases alone : (g.preds g.entry).isEmpty
  · obtain ⟨h, done, localized⟩ := localize_all (linked.lt_size linked.entry_mem) owns ascend bound
    rw [freshEntry, if_pos alone]
    exact ⟨h, s, ⟨h, done, rfl, rfl⟩, settled_inside linked (isEmpty_iff.1 alone) localized⟩
  · let x : Block := { (Block.fresh s).1 with tail := .jump g.entry }
    have owns' : (prefaced g x).relink.OwnsParams := ⟨owns.distinct, owns.owned⟩
    have there : g.blocks.size < (prefaced g x).relink.blocks.size := by
      rw [relink_size]
      exact Nat.lt_of_lt_of_eq (Nat.lt_succ_self _) (size_push x).symm
    obtain ⟨h, done, localized⟩ := localize_all there owns' ascend bound
    rw [freshEntry, if_neg alone]
    exact ⟨h, (Block.fresh s).2, ⟨h, done, rfl, rfl⟩, settled_before linked rfl rfl localized⟩

end Functions

/-! ## Calls without constants -/

section Calls

variable {h : Graph} {q : Quad}

variable {pairs : List (VarId × Const)} {removed : Removed}

/-- The calls of a piece of code. -/
def callsIn (code : List Quad) : List (Label × List Arg) := code.filterMap fun q =>
    match q.op with
    | .call callee args => some (callee, args)
    | _ => none

theorem calls_eq (graphs : List Graph) :
    calls graphs = graphs.flatMap fun g => g.layout.flatMap fun b => callsIn (g.body b) := by
  change callsIn (graphs.flatMap fun g => g.layout.flatMap g.body) = _
  simp only [callsIn, List.filterMap_flatMap]

theorem callsIn_settings (pairs : List (VarId × Const)) : callsIn (settings pairs) = [] := by
  simp [callsIn, settings]

theorem mem_calls {callee : Label} : (callee, args) ∈ calls graphs ↔
    ∃ g ∈ graphs, ∃ b ∈ g.layout, ∃ q ∈ g.body b, q.op = .call callee args := by
  simp only [calls_eq, List.mem_flatMap, callsIn, List.mem_filterMap]
  have told (q : Quad) : (match q.op with
      | .call callee args => some (callee, args)
      | _ => none) = some (callee, args) ↔ q.op = .call callee args := by
    cases q.op <;> simp
  simp only [told]

/-- Where the code of a function is related to other code with the same calls, its calls are the same. -/
theorem Begins.calls {rel : List Quad → List Quad → Prop} {f : Label × List Arg → Label × List Arg}
    (begins : Begins rel (settings pairs) g h)
    (told : ∀ {code code'}, rel code code' → callsIn code' = (callsIn code).map f) : calls [h] = (calls [g]).map f := by
  simp only [calls_eq, List.flatMap_singleton, List.map_flatMap]
  cases begins with
  | inside entry layout once body tail =>
    rw [layout]
    refine List.flatMap_congr fun b laid => ?_
    obtain ⟨code, related, same⟩ := body b laid
    rw [← told related, same]
    split
    · rw [callsIn, List.filterMap_append, ← callsIn, ← callsIn, callsIn_settings, List.nil_append]
    · rfl
  | before layout body_entry tail_entry body tail =>
    rw [layout, List.flatMap_cons, body_entry, callsIn_settings, List.nil_append]
    exact flatMap_congr fun b laid => told (body b laid)

/-- A call passes nothing for the parameters that are gone. -/
inductive Retold (graphs : List Graph) : Quad → Quad → Prop where
  | other {q : Quad} (plain : ∀ callee args, q.op ≠ .call callee args) : Retold graphs q q
  | call {q : Quad} {callee : Label} {args : List Arg} (op : q.op = .call callee args)
      (listed : (callee, args) ∈ calls graphs) :
      Retold graphs q { q with op := .call callee (dropAt (places graphs callee) args) }

theorem Retold.refl (listed : ∀ callee args, q.op = .call callee args →
    plan graphs callee = [] ∧ (callee, args) ∈ calls graphs) : Retold graphs q q := by
  by_cases called : ∃ callee args, q.op = .call callee args
  · obtain ⟨callee, args, op⟩ := called
    obtain ⟨none, listed⟩ := listed callee args op
    have retold := Retold.call op listed
    rw [places, none] at retold
    rwa [show { q with op := .call callee (dropAt (([] : List (Nat × Const)).map (·.1)) args) } = q from
      congrArg (Quad.mk q.result) op.symm] at retold
  · exact .other fun callee args op => called ⟨callee, args, op⟩

theorem dropArgs_ok {places : List Nat} (ascend : places.Pairwise (· < ·)) (bound : ∀ k ∈ places, k < args.length) :
    dropArgs places args = .ok (dropAt places args) := by
  rw [dropArgs, List.foldlM_reverse]
  induction places with
  | nil => rfl
  | cons k rest ih =>
    rw [pairwise_cons] at ascend
    obtain ⟨here, later⟩ := forall_mem_cons.1 bound
    have there : k < (dropAt rest args).length := by
      have item := getElem?_dropAt args ascend.1
      rw [List.getElem?_eq_getElem here] at item
      exact (List.getElem?_eq_some_iff.1 item).1
    rw [foldrM_cons, ih ascend.2 later]
    exact if_pos there

/-- Which functions have lost which parameters. -/
def Records (graphs : List Graph) (removed : Removed) : Prop :=
  ∀ name, removed[name]? = if plan graphs name = [] then none else some (places graphs name)

theorem adjustQuad_ok (distinct : (graphs.map (·.name)).Nodup) (records : Records graphs removed)
    (listed : ∀ callee args, q.op = .call callee args → (callee, args) ∈ calls graphs) :
    ∃ q', adjustQuad removed q = .ok q' ∧ Retold graphs q q' := by
  unfold adjustQuad
  split
  next callee args op =>
    have listed := listed callee args op
    rw [records]
    by_cases none : plan graphs callee = []
    · refine ⟨q, by simp [none], .refl fun callee' args' op' => ?_⟩
      cases op.symm.trans op'
      exact ⟨none, listed⟩
    · have passed : ∀ k ∈ places graphs callee, k < args.length := by
        intro k lost
        obtain ⟨⟨k, c⟩, planned, rfl⟩ := mem_map.1 lost
        exact (List.getElem?_eq_some_iff.1 (passed_of_plan distinct listed planned)).1
      have dropped : dropArgs (places graphs callee) args = .ok (dropAt (places graphs callee) args) :=
        dropArgs_ok (places_ascend graphs callee) passed
      exact ⟨_, by simp [none, dropped], .call op listed⟩
  next plain => exact ⟨q, rfl, .other plain⟩

/-- The calls of every block have been retold. -/
def Adjusted (graphs : List Graph) (h k : Graph) : Prop :=
  h.Reworked (fun _ x y => List.Forall₂ (Retold graphs) x.body y.body ∧ y.tail = x.tail) h.layout k

theorem adjust_ok (distinct : (graphs.map (·.name)).Nodup) (records : Records graphs removed)
    (layout_nodup : h.layout.Nodup) (layout_lt : ∀ b ∈ h.layout, b < h.blocks.size)
    (listed : ∀ b ∈ h.layout, ∀ q ∈ h.body b, ∀ callee args, q.op = .call callee args → (callee, args) ∈ calls graphs) :
    ∃ k, adjust removed h = .ok k ∧ Adjusted graphs h k := by
  refine foldlM_succeeds (h.Reworked _) (.refl _ h) fun done b rest k split before => ?_
  have member : b ∈ h.layout := by simp [split]
  have new : b ∉ done := by
    rw [split, nodup_append] at layout_nodup
    exact fun before => layout_nodup.2.2 b before b mem_cons_self rfl
  obtain ⟨code, mapped, retold⟩ := mapM_succeeds fun q here => adjustQuad_ok distinct records (listed b member q here)
  have same : k.body b = h.body b := congrArg Block.body (before.others b new)
  exact ⟨k.setBody b code, by simp [same, mapped], before.modifyBlock (layout_lt b member) new ⟨retold, rfl⟩⟩

/-- Quadruples that set variables are no calls. -/
theorem retold_settings {code code' : List Quad}
    (retold : List.Forall₂ (Retold graphs) (settings pairs ++ code) code') :
    ∃ rest, code' = settings pairs ++ rest ∧ List.Forall₂ (Retold graphs) code rest := by
  induction pairs generalizing code' with
  | nil => exact ⟨code', rfl, retold⟩
  | cons pair pairs ih =>
    obtain ⟨_, rest, here, later, rfl⟩ := forall₂_cons_left_iff.1 retold
    obtain ⟨rest, rfl, others⟩ := ih later
    cases here with
    | other => exact ⟨rest, rfl, others⟩
    | call op => cases op

/-- What becomes of a function when every function of a module loses its constant parameters. -/
structure Specialized (graphs : List Graph) (g h : Graph) : Prop where
  akin : g.Akin h
  params : h.params = dropAt (places graphs g.name) g.params
  begins : Begins (List.Forall₂ (Retold graphs)) (settings (setup (plan graphs g.name) g.params)) g h

theorem specialize {k : Graph} (settled : Settled (plan graphs g.name) g h) (adjusted : Adjusted graphs h k) :
    Specialized graphs g k where
  akin := settled.akin.trans adjusted.alike.akin
  params := adjusted.alike.params.trans settled.params
  begins := by
    have body' {b : BlockId} (laid : b ∈ h.layout) : List.Forall₂ (Retold graphs) (h.body b) (k.body b) :=
      (adjusted.blocks b laid).1
    have tail' {b : BlockId} (laid : b ∈ h.layout) : k.tail b = h.tail b := (adjusted.blocks b laid).2
    cases settled.begins with
    | inside entry layout once body tail =>
      refine .inside (adjusted.entry.trans entry) (adjusted.layout.trans layout) once
        (fun b member => ?_) fun b member => (tail' (layout ▸ member)).trans (tail b member)
      obtain ⟨_, rfl, same⟩ := body b member
      have retold := body' (layout ▸ member)
      rw [same] at retold
      split at retold
      next first =>
        obtain ⟨code, eq, retold⟩ := retold_settings retold
        exact ⟨code, retold, by rw [if_pos first, eq]⟩
      next later => exact ⟨k.body b, retold, by rw [if_neg later]⟩
    | before layout body_entry tail_entry body tail =>
      have first : h.entry ∈ h.layout := layout ▸ mem_cons_self
      have old {b : BlockId} (member : b ∈ g.layout) : b ∈ h.layout := layout ▸ .tail _ member
      refine .before ?_ ?_ ?_ (fun b member => ?_) fun b member => (tail' (old member)).trans (tail b member)
      · rw [adjusted.layout, adjusted.entry, layout]
      · have retold := body' first
        rw [body_entry, ← append_nil (settings _)] at retold
        obtain ⟨code, eq, nothing⟩ := retold_settings retold
        rw [adjusted.entry, eq, forall₂_nil_left_iff.1 nothing, append_nil]
      · rw [adjusted.entry, tail' first, tail_entry]
      · exact body b member ▸ body' (old member)

theorem specialized_refl (none : ∀ name, plan graphs name = []) (member : g ∈ graphs) : Specialized graphs g g where
  akin := .refl g
  params := by rw [places, none]; rfl
  begins := by
    refine .inside rfl rfl (.inl (by rw [none]; rfl)) (fun b laid => ⟨g.body b, ?_, ?_⟩) fun _ _ => rfl
    · exact forall₂_same.2 fun q inside => .refl fun callee args op =>
        ⟨none callee, mem_calls.2 ⟨g, member, b, laid, q, inside, op⟩⟩
    · rw [none]
      simp [setup, settings]

/-- A call without the constants of its callee. -/
def retell (graphs : List Graph) (call : Label × List Arg) : Label × List Arg :=
  (call.1, dropAt (places graphs call.1) call.2)

theorem callsIn_retold {code code' : List Quad} (retold : List.Forall₂ (Retold graphs) code code') :
    callsIn code' = (callsIn code).map (retell graphs) := by
  induction retold with
  | nil => rfl
  | @cons q _ _ _ here _ ih =>
    cases here with
    | other plain =>
      have none (code : List Quad) : callsIn (q :: code) = callsIn code := by
        refine filterMap_cons_none ?_
        split
        next op => exact absurd op (plain _ _)
        · rfl
      rw [none, none, ih]
    | @call callee args op listed =>
      have some (code : List Quad) : callsIn (q :: code) = (callee, args) :: callsIn code :=
        filterMap_cons_some (by rw [op])
      rw [some, map_cons, ← ih]
      rfl

/-- The calls of a module are the same as before, without the constants. -/
theorem calls_specialized {gs hs : List Graph} (specialized : List.Forall₂ (Specialized graphs) gs hs) :
    calls hs = (calls gs).map (retell graphs) := by
  have split (g : Graph) (gs : List Graph) : calls (g :: gs) = calls [g] ++ calls gs := by simp [calls_eq]
  induction specialized with
  | nil => rfl
  | @cons g h gs hs here _ ih => rw [split h, split g, here.begins.calls callsIn_retold, ih, List.map_append]

end Calls

/-! ## The whole module -/

section Modules

variable {gs : List Graph}

theorem settle_ok (distinct : (graphs.map (·.name)).Nodup) (linked : ∀ g ∈ graphs, g.Linked)
    (owns : ∀ g ∈ graphs, g.OwnsParams) (members : ∀ g ∈ gs, g ∈ graphs) (removed : Removed) (s : Supply) :
    ∃ hs removed' s', settle (incoming graphs) gs removed s = .ok (hs, removed', s') ∧
      List.Forall₂ (fun g h => Settled (plan graphs g.name) g h) gs hs ∧
      ∀ name, removed'[name]? = if name ∈ gs.map (·.name) ∧ plan graphs name ≠ [] then
        some (places graphs name) else removed[name]? := by
  induction gs generalizing removed s with
  | nil => exact ⟨[], removed, s, rfl, .nil, fun name => by simp⟩
  | cons g rest ih =>
    obtain ⟨member, others⟩ := forall_mem_cons.1 members
    have consts : (if g.name = "main" then [] else constants ((incoming graphs)[g.name]?.getD [])) =
        plan graphs g.name := rfl
    rw [settle, consts]
    by_cases none : plan graphs g.name = []
    · obtain ⟨hs, removed', s', done, settled, recorded⟩ := ih others removed s
      refine ⟨g :: hs, removed', s', by simp [none, done], .cons ?_ settled, fun name => ?_⟩
      · rw [none]
        exact settled_nil (linked g member)
      · rw [recorded]
        by_cases same : name = g.name
        · simp [same, none]
        · simp [same]
    · obtain ⟨h, t, here, settled⟩ := localizeAll_ok (linked g member) (owns g member) (places_ascend graphs g.name)
          (fun _ => places_lt distinct member) s
      obtain ⟨hs, removed', s', done, settled', recorded⟩ := ih others (removed.insert g.name (places graphs g.name)) t
      refine ⟨h :: hs, removed', s', ?_, .cons settled settled', fun name => ?_⟩
      · rw [if_neg (by simpa using none)]
        simp only [bind_eq_ok, pure_eq_ok]
        exact ⟨(h, t), here, (hs, removed', s'), done, rfl⟩
      · rw [recorded, Std.ExtTreeMap.getElem?_insert]
        by_cases same : name = g.name
        · simp [same, none]
        · simp [same, Ne.symm same]

/-- The pass comes to an end, with all functions of the module in their order. -/
theorem pass_ok {m : Module} (distinct : (m.graphs.map (·.name)).Nodup) (linked : ∀ g ∈ m.graphs, g.Linked)
    (owns : ∀ g ∈ m.graphs, g.OwnsParams) (s : Supply) :
    ∃ m' s' n, pass m s = .ok (m', s', n) ∧ m'.globals = m.globals ∧ m'.strings = m.strings ∧
      List.Forall₂ (Specialized m.graphs) m.graphs m'.graphs := by
  obtain ⟨hs, removed, s', done, settled, recorded⟩ := settle_ok distinct linked owns (fun _ => id) ∅ s
  have records : Records m.graphs removed := by
    intro name
    rw [recorded]
    by_cases none : plan m.graphs name = []
    · simp [none]
    · have known : name ∈ m.graphs.map (·.name) := mem_map.2 (exists_of_plan none)
      simp only [known, none, ne_eq, not_false_eq_true, and_self, if_true, if_false]
  by_cases empty : removed.isEmpty
  · have none (name : Label) : plan m.graphs name = [] := by
      by_contra some
      have recorded := records name
      rw [if_neg some, Std.ExtTreeMap.isEmpty_iff.1 empty] at recorded
      cases recorded
    refine ⟨m, s', .none, ?_, rfl, rfl, List.forall₂_same.2 fun g member => specialized_refl none member⟩
    simp only [pass, bind_eq_ok]
    exact ⟨(hs, removed, s'), done, by simp [empty]⟩
  · obtain ⟨ks, mapped, adjusted⟩ : ∃ ks, hs.mapM (adjust removed) = .ok ks ∧
        List.Forall₂ (fun h k => Adjusted m.graphs h k) hs ks := by
      refine mapM_succeeds fun h member => ?_
      obtain ⟨g, listed, settled⟩ := exists_of_forall₂ settled.flip member
      refine adjust_ok distinct records settled.layout_nodup settled.layout_lt
        fun b laid q inside callee args op => ?_
      have call : (callee, args) ∈ calls [h] := mem_calls.2 ⟨h, by simp, b, laid, q, inside, op⟩
      rw [settled.begins.calls (f := id) fun same => by simp [same], List.map_id] at call
      obtain ⟨_, same, there⟩ := mem_calls.1 call
      exact mem_calls.2 ⟨g, listed, mem_singleton.1 same ▸ there⟩
    have specialized : List.Forall₂ (Specialized m.graphs) m.graphs ks := by
      refine forall₂_trans ?_ settled adjusted
      exact fun _ _ _ first second => specialize first second
    refine ⟨{ m with graphs := ks }, s', some (removed.foldl (fun n _ places => n + places.length) 0), ?_,
      rfl, rfl, specialized⟩
    simp only [pass, bind_eq_ok]
    exact ⟨(hs, removed, s'), done, by simp [empty, mapped]⟩

end Modules

end Parameters

end Quadcode
