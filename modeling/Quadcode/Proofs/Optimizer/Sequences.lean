import Quadcode.Proofs.Optimizer.NormalForm

/-!
# Passes in any order

A module goes from step to step, each of them one pass on one of its functions or on the whole module.
Functions are edited or deleted, in order, and no step takes one out of normal form. So after any
sequence of steps every function with labels written by hand is in normal form.
-/

namespace Quadcode

open List EmptyFunctions

variable {w : Work} {p : Pass}

/-- A match of a list into another one, element by element in order, goes on to a third. -/
theorem sublistForall₂_comp {α β γ : Type} {R : α → β → Prop} {S : β → γ → Prop} {T : α → γ → Prop} {as : List α}
    {bs : List β} {cs : List γ} (compose : ∀ a b c, R a b → S b c → T a c) (first : List.SublistForall₂ R as bs)
    (second : List.SublistForall₂ S bs cs) : List.SublistForall₂ T as cs := by
  induction second generalizing as with
  | nil =>
    cases first
    exact .nil
  | cons here _ ih =>
    cases first with
    | nil => exact .nil
    | cons before rest => exact .cons (compose _ _ _ before here) (ih rest)
    | cons_right rest => exact .cons_right (ih rest)
  | cons_right _ ih => exact .cons_right (ih first)

theorem sublistForall₂_of_forall₂ {α β : Type} {R : α → β → Prop} {as : List α} {bs : List β}
    (all : List.Forall₂ R as bs) : List.SublistForall₂ R as bs :=
  sublistForall₂_iff.2 ⟨bs, all, .refl bs⟩

namespace Graph

variable {g h k : Graph} {s s' s'' : Supply}

/-- What a step makes of a function, between two states of the supply. -/
structure Follows (s s' : Supply) (h g : Graph) : Prop where
  name : h.name = g.name
  whole : g.Whole s → h.Whole s'

namespace Follows

theorem refl (later : s.next ≤ s'.next) (g : Graph) : Follows s s' g g := ⟨rfl, fun whole => whole.later later⟩

theorem trans (second : Follows s' s'' k h) (first : Follows s s' h g) : Follows s s'' k g :=
  ⟨second.name.trans first.name, fun whole => second.whole (first.whole whole)⟩

theorem ofShape (shape : g.SameShape h) : Follows s s h g := ⟨shape.name, shape.whole⟩

end Follows

end Graph

/-! ## Passes on a function -/

/-- A pass with coherent analyses keeps what all edits keep, whatever its outcome. -/
theorem Kept.outcome {I : Graph → Supply → Prop} (keeping : Kept I I) (member : p ∈ Pass.all)
    (kept : I w.graph w.supply) (current : w.context.analyses.Match w.graph) :
    I (outcome p.run w).2.graph (outcome p.run w).2.supply := by
  have ran := keeping.pass member w ⟨kept, current, rfl, fun _ => .inl⟩
  have ends : Ensures p.run w (fun _ w => I w.graph w.supply) fun w => I w.graph w.supply :=
    ran.mono (fun _ _ settled => settled.kept) fun _ left => left.kept
  exact ends.outcome

theorem Pass.follows (member : p ∈ Pass.all) (current : w.context.analyses.Match w.graph) :
    w.supply.next ≤ (outcome p.run w).2.supply.next ∧
      Graph.Follows w.supply (outcome p.run w).2.supply (outcome p.run w).2.graph w.graph := by
  have named := (kept_named w.graph.name w.supply.next).outcome member ⟨rfl, le_refl _⟩ current
  exact ⟨named.drawn, named.name, fun whole => kept_whole.outcome member whole current⟩

/-! ## Passes on a module -/

namespace Parameters

variable {g h : Graph} {s s' : Supply} {removed : Removed}

theorem freshEntry_follows (g : Graph) (s : Supply) : s.next ≤ (freshEntry g s).2.2.next ∧
      Graph.Follows s (freshEntry g s).2.2 (freshEntry g s).2.1 g := by
  unfold freshEntry
  split
  · exact ⟨le_refl _, .refl (le_refl _) g⟩
  · refine ⟨Nat.le_succ _, rfl, fun whole => ?_⟩
    have added := whole.toDraft.addBlock
      (x := { label := blockStem ++ toString s.next, tail := .jump g.entry }) rfl (fun t target => by
        obtain rfl := mem_singleton.1 target
        exact whole.entry_lt)
    have first : (g.blocks.size :: g.layout).head? = some g.blocks.size := rfl
    refine Graph.Draft.relink (added.relaid first ?_ ?_)
    · exact nodup_cons.2 ⟨whole.size_not_mem, whole.layout_nodup⟩
    · intro b listed
      rcases mem_cons.1 listed with rfl | old
      · exact Nat.lt_of_lt_of_eq (Nat.lt_succ_self _) (Array.size_push _).symm
      · exact added.layout_lt b old

theorem localize_sameShape {entry : BlockId} {k : Nat} {c : Const} (done : localize entry g k c = .ok h) :
    g.SameShape h := by
  simp only [localize, bind_eq_ok, pure_eq_ok] at done
  obtain ⟨p, -, x, -, rfl⟩ := done
  exact (Graph.SameShape.redeclare g _ _).trans (.setBody _ entry _)

theorem localizeAll_follows {constants : List (Nat × Const)} (done : localizeAll g constants s = .ok (h, s')) :
    s.next ≤ s'.next ∧ Graph.Follows s s' h g := by
  simp only [localizeAll, bind_eq_ok, pure_eq_ok, Prod.mk.injEq] at done
  obtain ⟨h, run, rfl, rfl⟩ := done
  obtain ⟨later, first⟩ := freshEntry_follows g s
  have shape : (freshEntry g s).2.1.SameShape h := foldlM_ok (fun _ h => (freshEntry g s).2.1.SameShape h) (.refl _)
      (fun _ _ _ _ _ _ before step => before.trans (localize_sameShape step)) run
  exact ⟨later, (Graph.Follows.ofShape shape).trans first⟩

theorem settle_follows {incoming : Incoming} {gs hs : List Graph} {removed' : Removed}
    (done : settle incoming gs removed s = .ok (hs, removed', s')) :
    s.next ≤ s'.next ∧ List.Forall₂ (Graph.Follows s s') hs gs := by
  induction gs generalizing hs removed s with
  | nil =>
    simp only [settle, pure_eq_ok, Prod.mk.injEq] at done
    obtain ⟨rfl, -, rfl⟩ := done
    exact ⟨le_refl _, .nil⟩
  | cons g rest ih =>
    simp only [settle] at done
    generalize (if g.name = "main" then [] else constants (incoming[g.name]?.getD [])) = cs at done
    split at done
    · simp only [bind_eq_ok, pure_eq_ok, Prod.mk.injEq] at done
      obtain ⟨⟨more, r, t⟩, others, rfl, rfl, rfl⟩ := done
      obtain ⟨later, follow⟩ := ih others
      exact ⟨later, .cons (.refl later g) follow⟩
    · simp only [bind_eq_ok, pure_eq_ok, Prod.mk.injEq] at done
      obtain ⟨⟨h, t⟩, here, ⟨more, r, u⟩, others, rfl, rfl, rfl⟩ := done
      obtain ⟨soon, first⟩ := localizeAll_follows here
      obtain ⟨later, follow⟩ := ih others
      refine ⟨soon.trans later, .cons ((Graph.Follows.refl later h).trans first) ?_⟩
      exact follow.imp fun k j follows => follows.trans (.refl soon j)

theorem adjust_sameShape (done : adjust removed g = .ok h) : g.SameShape h := by
  refine foldlM_ok (fun _ h => g.SameShape h) (.refl g) (fun _ b _ h k _ before step => ?_) done
  simp only [bind_eq_ok, pure_eq_ok] at step
  obtain ⟨body, -, rfl⟩ := step
  exact before.trans (.setBody h b body)

theorem pass_follows {m m' : Module} {n : Option Nat} (done : pass m s = .ok (m', s', n)) :
    s.next ≤ s'.next ∧ List.SublistForall₂ (Graph.Follows s s') m'.graphs m.graphs := by
  simp only [pass, bind_eq_ok] at done
  obtain ⟨⟨gs, removed, t⟩, settled, done⟩ := done
  obtain ⟨later, follow⟩ := settle_follows settled
  dsimp only at done
  split at done
  · simp only [pure_eq_ok, Prod.mk.injEq] at done
    obtain ⟨rfl, rfl, -⟩ := done
    exact ⟨later, sublistForall₂_of_forall₂ (forall₂_same.2 fun g _ => .refl later g)⟩
  · simp only [bind_eq_ok, pure_eq_ok, Prod.mk.injEq] at done
    obtain ⟨hs, adjusted, rfl, rfl, -⟩ := done
    refine ⟨later, sublistForall₂_comp (fun k h g adjust follows => ?_)
      (sublistForall₂_of_forall₂ (List.Forall₂.flip (mapM_eq_ok.1 adjusted)))
      (sublistForall₂_of_forall₂ follow)⟩
    exact (Graph.Follows.ofShape (adjust_sameShape adjust)).trans follows

end Parameters

namespace EmptyFunctions

theorem dropCalls_sameShape (empty : Std.ExtTreeSet Label) (g : Graph) : g.SameShape (dropCalls empty g) :=
  List.foldlRecOn (motive := g.SameShape) _ _ (.refl g) fun h before b _ =>
    before.trans (.setBody h b _)

theorem pass_follows (m : Module) (s : Supply) :
    List.SublistForall₂ (Graph.Follows s s) (pass m).1.graphs m.graphs := by
  unfold pass
  dsimp only
  split
  · exact sublistForall₂_of_forall₂ (forall₂_same.2 fun g _ => .refl (le_refl _) g)
  · have edited : List.SublistForall₂ (Graph.Follows s s) (m.graphs.map (dropCalls (empty m.graphs)))
        m.graphs := by
      rw [sublistForall₂_map_left_iff]
      exact sublistForall₂_of_forall₂ (forall₂_same.2 fun g _ => .ofShape (dropCalls_sameShape _ g))
    have kept : List.SublistForall₂ Eq ((m.graphs.map (dropCalls (empty m.graphs))).filter
        fun g => g.name ∉ empty m.graphs) (m.graphs.map (dropCalls (empty m.graphs))) :=
      filter_sublist.sublistForall₂
    refine sublistForall₂_comp ?_ kept edited
    rintro h _ g rfl follows
    exact follows

end EmptyFunctions

/-! ## Sequences -/

namespace Module

/-- One pass of any kind on a module. A pass on a function may be given any analyses that match the
function as it is, and its edits stay when it fails. -/
inductive Step : Module × Supply → Module × Supply → Prop where
  | function {m : Module} {s : Supply} {before after : List Graph} {g : Graph} {p : Pass} {c : Context}
      (member : p ∈ Pass.all) (graphs : m.graphs = before ++ g :: after)
      (current : c.analyses.Match g) :
      Step (m, s)
        ({ m with graphs := before ++ (outcome p.run ⟨g, c, s⟩).2.graph :: after }, (outcome p.run ⟨g, c, s⟩).2.supply)
  | parameters {m m' : Module} {s s' : Supply} {n : Option Nat}
      (done : Parameters.pass m s = .ok (m', s', n)) : Step (m, s) (m', s')
  | emptyFunctions (m : Module) (s : Supply) : Step (m, s) ((pass m).1, s)

theorem Step.follows {x y : Module × Supply} (step : Step x y) :
    List.SublistForall₂ (Graph.Follows x.2 y.2) y.1.graphs x.1.graphs := by
  cases step with
  | parameters done => exact (Parameters.pass_follows done).2
  | emptyFunctions m s => exact pass_follows m s
  | @function m s before after g p c member graphs current =>
    obtain ⟨later, follows⟩ := Pass.follows member (w := ⟨g, c, s⟩) current
    have others (gs : List Graph) : List.Forall₂ (Graph.Follows s (outcome p.run ⟨g, c, s⟩).2.supply) gs gs :=
      forall₂_same.2 fun h _ => .refl later h
    dsimp only
    rw [graphs]
    exact sublistForall₂_of_forall₂ (rel_append (others before) (.cons follows (others after)))

/-- A graph in a module that goes back to a function: it has kept the name, and the normal form if the
labels of the function are written. -/
structure Carries (s : Supply) (g : Graph) (f : Function) : Prop where
  name : g.name = f.name
  whole : f.Written → g.Whole s

theorem carries_of_steps {x y : Module × Supply} {fs : List Function}
    (start : List.SublistForall₂ (Carries x.2) x.1.graphs fs) (run : Relation.ReflTransGen Step x y) :
    List.SublistForall₂ (Carries y.2) y.1.graphs fs := by
  induction run with
  | refl => exact start
  | tail _ step ih =>
    refine sublistForall₂_comp (fun h g f follows carries => ?_) step.follows ih
    exact ⟨follows.name.trans carries.name, fun written => follows.whole (carries.whole written)⟩

/-- Whatever passes are run on the functions of a module or on the module as a whole, in whatever order,
the functions that are left are functions of the start, in order and under their names, and those that
were built from code without generated labels are in normal form. The other functions of the module may
be any graphs. -/
theorem normal_of_steps {m m' : Module} {s s' : Supply} {fs : List Function}
    (start : List.Forall₂ (fun g f => g.name = f.name ∧ (f.Written →
      ∃ s₀ s₁, Graph.build f s₀ = .ok (g, s₁) ∧ s₁.next ≤ s.next)) m.graphs fs)
    (run : Relation.ReflTransGen Step (m, s) (m', s')) :
    List.SublistForall₂ (fun g f => g.name = f.name ∧ (f.Written → g.Normal)) m'.graphs fs := by
  have carried : List.Forall₂ (Carries s) m.graphs fs := start.imp fun g f ⟨name, origin⟩ =>
    ⟨name, fun written => by
      obtain ⟨s₀, s₁, built, drawn⟩ := origin written
      exact (Graph.build_whole built written).later drawn⟩
  obtain ⟨kept, all, sub⟩ := sublistForall₂_iff.1
    (carries_of_steps (x := (m, s)) (y := (m', s')) (sublistForall₂_of_forall₂ carried) run)
  exact sublistForall₂_iff.2 ⟨kept, all.imp fun g f carries =>
    ⟨carries.name, fun written => (carries.whole written).normal⟩, sub⟩

end Module

/-- Has no code. -/
def idle : Function where
  name := "idle"
  vars := #[]
  quads := []

/-- Always passes the same to a function that starts with a loop. -/
def launching : Function where
  name := "main"
  vars := #[.declare "r" .int .temporary]
  quads := [
    ⟨some 0, .call "accumulating" [.const (.int 9), .const (.int 0)]⟩,
    .effect (.call "idle" []),
    .effect (.ret (some (.var 0)))]

def launched : List Function := [launching, accumulating, idle]

/-- Code is moved out of the loop into a new entry, the parameters become locals there, and the function
without code is deleted. -/
theorem launched_normal : (∀ f ∈ launched, f.Written) ∧ ∃ m s,
      Relation.ReflTransGen Module.Step (⟨[], .empty, launched.map Function.graph⟩, ⟨9⟩) (m, s) ∧
        m.graphs.map (fun g => (g.layout, g.params)) = [([0, 1, 2], []), ([3, 0, 1, 2], [])] ∧
        List.SublistForall₂ (fun g f => g.name = f.name ∧ (f.Written → g.Normal)) m.graphs
          launched := by
  refine ⟨fun f member => Function.written_of_heads ?_, ?_⟩
  · revert f
    decide
  · let w := (outcome InvariantMotion.pass ⟨accumulating.graph, {}, ⟨9⟩⟩).2
    let moved : Module := ⟨[], .empty, [launching.graph, w.graph, idle.graph]⟩
    have first : Module.Step (⟨[], .empty, launched.map Function.graph⟩, ⟨9⟩) (moved, w.supply) :=
      @Module.Step.function _ _ [launching.graph] [idle.graph] accumulating.graph
        ⟨"licm", InvariantMotion.pass, .everything, 2⟩ {} (by simp [Pass.all]) rfl (.empty _)
    have settled : (Parameters.pass moved w.supply).toOption.map
        (fun r => (pass r.1).1.graphs.map fun g => (g.layout, g.params)) =
          some [([0, 1, 2], []), ([3, 0, 1, 2], [])] := by decide +kernel
    obtain ⟨⟨m, s, n⟩, second, shape⟩ := toOption_map_eq_some.1 settled
    have run := ((Relation.ReflTransGen.single first).tail (.parameters second)).tail (.emptyFunctions m s)
    refine ⟨_, s, run, shape, Module.normal_of_steps (.cons ⟨rfl, fun _ => ?_⟩
      (.cons ⟨rfl, fun _ => ?_⟩ (.cons ⟨rfl, fun _ => ?_⟩ .nil))) run⟩
    · exact ⟨{}, ⟨3⟩, rfl, by decide⟩
    · exact ⟨{}, ⟨1⟩, rfl, by decide⟩
    · exact ⟨{}, ⟨1⟩, rfl, by decide⟩

end Quadcode
