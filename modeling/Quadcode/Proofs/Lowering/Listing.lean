import Mathlib.Data.List.Pairwise
import Quadcode.Proofs.Graph.Normal
import Quadcode.Proofs.X86.Sections

/-!
# Labels of listings

The label of a block is made of the name of its function and its own label without leading dots, with
an underscore between them. So labels of two functions may be the same, and those of one function too.
Where they are not, each jump of a listing leads to one place, which is where the code of its target
stands.
-/

namespace Quadcode

open X86 List

/-! ## Names that meet -/

/-- A label without its leading dots. -/
def stem (l : Label) : Label := String.ofList (l.toList.dropWhile (· == '.'))

def Graph.stem (g : Graph) (b : BlockId) : Label := Quadcode.stem (g.label b)

/-- The labels that the code of a function defines. -/
def Graph.listed (g : Graph) : List Label := g.name :: g.layout.map fun b => "." ++ g.name ++ "_" ++ g.stem b

/-- No label is made twice. -/
structure Module.Unambiguous (m : Module) : Prop where
  apart : ∀ g ∈ m.graphs, g.LabelsApart
  /-- No function is called like a block. -/
  function : ∀ f ∈ m.graphs, ∀ b ∈ f.layout, ∀ g ∈ m.graphs, g.name ≠ "." ++ f.name ++ "_" ++ f.stem b
  /-- Where the name of a function continues that of another one, their blocks do not make up for it. -/
  block : ∀ f ∈ m.graphs, ∀ g ∈ m.graphs, ∀ k, g.name = f.name ++ "_" ++ k →
    ∀ b ∈ f.layout, ∀ c ∈ g.layout, f.stem b ≠ k ++ "_" ++ g.stem c

theorem ne_listed (f x : Label) : f ≠ "." ++ f ++ "_" ++ x := by
  intro same
  have lengths := congrArg String.length same
  simp only [String.length_append] at lengths
  have dot : ".".length = 1 := rfl
  omega

theorem append_underscore {x y : List Char} {u v : List Char} (other : u ≠ v) (same : u ++ '_' :: x = v ++ '_' :: y) :
    (∃ k, v = u ++ '_' :: k ∧ x = k ++ '_' :: y) ∨ ∃ k, u = v ++ '_' :: k ∧ y = k ++ '_' :: x := by
  rcases append_eq_append_iff.1 same with ⟨k, longer, rest⟩ | ⟨k, longer, rest⟩
  · cases k with
    | nil => exact absurd (by simpa using longer.symm) other
    | cons c k =>
      cases rest
      exact .inl ⟨k, longer, rfl⟩
  · cases k with
    | nil => exact absurd (by simpa using longer) other
    | cons c k =>
      cases rest
      exact .inr ⟨k, longer, rfl⟩

theorem listed_meet {f g x y : Label} (other : f ≠ g) : "." ++ f ++ "_" ++ x = "." ++ g ++ "_" ++ y ↔
      (∃ k, g = f ++ "_" ++ k ∧ x = k ++ "_" ++ y) ∨ ∃ k, f = g ++ "_" ++ k ∧ y = k ++ "_" ++ x := by
  have underscore (k : List Char) (x : Label) : (String.ofList k ++ "_" ++ x).toList = k ++ '_' :: x.toList := by simp
  constructor
  · intro same
    have chars := congrArg String.toList same
    simp only [String.toList_append, append_assoc] at chars
    rcases append_underscore (fun equal => other (String.toList_inj.1 equal))
      (append_cancel_left chars) with ⟨k, longer, rest⟩ | ⟨k, longer, rest⟩
    · refine .inl ⟨String.ofList k, String.toList_inj.1 ?_, String.toList_inj.1 ?_⟩
      · simpa using longer
      · exact (underscore k y).symm ▸ rest
    · refine .inr ⟨String.ofList k, String.toList_inj.1 ?_, String.toList_inj.1 ?_⟩
      · simpa using longer
      · exact (underscore k x).symm ▸ rest
  · rintro (⟨k, rfl, rfl⟩ | ⟨k, rfl, rfl⟩) <;> simp [String.append_assoc]

/-- Names that start with no dot and have no underscore make no label twice. -/
theorem Module.unambiguous_of_names {m : Module} (apart : ∀ g ∈ m.graphs, g.LabelsApart)
    (names : ∀ g ∈ m.graphs, g.name.toList.head? ≠ some '.' ∧ '_' ∉ g.name.toList) : m.Unambiguous where
  apart := apart
  function f _ b _ g inside same := by
    refine (names g inside).1 ?_
    rw [same]
    simp
  block f _ g inside k longer := by
    refine absurd ?_ (names g inside).2
    rw [longer]
    simp

variable {g : Graph} {b : BlockId} {optimize : Bool}

namespace Lowering

variable {s : Site} {w w' : Literals} {code start : List Inst} {live : Solution VarSet}
  {sections : List (Label × List Inst)}

/-! ## The code of a function -/

/-- What is left of a piece of code in the end. -/
def Finished (optimize : Bool) (code code' : List Inst) : Prop :=
  if optimize then Peephole.Rewritten code code' else code' = code

/-- The code that was made from the quadruples and the tail of a block. -/
def BlockCode (optimize : Bool) (s : Site) (live : Solution VarSet) (b : BlockId) (piece : List Inst) : Prop :=
  ∃ afters inner last w₁ w₂ w₃, (Liveness.problem s.graph).points s.graph live b = .ok afters ∧
    Gives (body s (s.graph.body b) afters) w₁ inner w₂ ∧
    Gives (tail s (s.graph.tail b)) w₂ last w₃ ∧ Finished optimize (inner ++ last) piece

/-- The code of a function: what comes before its blocks, and a section for each of them. -/
structure Laid (optimize : Bool) (s : Site) (live : Solution VarSet) (code start : List Inst)
    (sections : List (Label × List Inst)) : Prop where
  whole : cut code = ([], (s.graph.name, start) :: sections)
  start : ∀ l ∈ jumps start, l = s.blockLabel s.graph.entry
  sections : List.Forall₂ (fun b p => p.1 = s.blockLabel b ∧ BlockCode optimize s live b p.2)
    s.graph.layout sections

theorem BlockCode.jumps {piece : List Inst} (blockCode : BlockCode optimize s live b piece) :
    ∀ l ∈ jumps piece, ∃ c ∈ s.graph.targets b, l = s.blockLabel c := by
  obtain ⟨afters, inner, last, w₁, w₂, w₃, -, here, ends, finished⟩ := blockCode
  have kept : X86.jumps piece ⊆ X86.jumps (inner ++ last) := by
    cases optimize with
    | true => exact Peephole.Rewritten.jumps finished
    | false =>
      obtain rfl : piece = inner ++ last := finished
      exact List.Subset.refl _
  intro l member
  have before := kept member
  rw [jumps_append, jumps_of_plain (plain_body here), nil_append] at before
  exact (tail_jumps ends).2 l before

theorem cut_blocks {bs : List BlockId} (given : Gives (blocks s (Liveness.problem s.graph) live bs) w code w') :
    (cut code).1 = [] ∧
      List.Forall₂ (fun b p => p.1 = s.blockLabel b ∧ BlockCode false s live b p.2) bs (cut code).2 := by
  induction bs generalizing w code with
  | nil =>
    rw [(gives_pure.1 given).1]
    exact ⟨rfl, .nil⟩
  | cons b rest ih =>
    simp only [blocks, block, gives_bind, gives_ofExcept, gives_pure] at given
    obtain ⟨_, _, ⟨afters, _, ⟨pointed, rfl⟩, inner, _, here, last, _, ends, rfl, rfl⟩, others, _, later,
      rfl, rfl⟩ := given
    obtain ⟨front, sections⟩ := ih later
    have unlabelled : labels (inner ++ last) = [] := by
      rw [labels_append, labels_of_plain (plain_body here), (tail_jumps ends).1]
      rfl
    rw [cons_append, cons_append, cut_label, cut_append unlabelled, front, append_nil]
    exact ⟨rfl, .cons ⟨rfl, afters, inner, last, _, _, _, pointed, here, ends, rfl⟩ sections⟩

theorem laid_code (given : Gives (Lowering.code s live) w code w') :
    ∃ start sections, Laid false s live code start sections := by
  simp only [Lowering.code, gives_bind, gives_ofExcept, gives_pure] at given
  obtain ⟨start, _, ⟨started, rfl⟩, rest, _, here, rfl, rfl⟩ := given
  obtain ⟨front, sections⟩ := cut_blocks here
  obtain ⟨more, rfl, plain⟩ := plain_prologue started
  generalize entering : (if s.graph.layout.head? = some s.graph.entry then []
    else [Inst.jmp (s.blockLabel s.graph.entry)]) = enter
  have unlabelled : labels (more ++ enter) = [] := by
    rw [labels_append, labels_of_plain plain, ← entering]
    split <;> rfl
  refine ⟨more ++ enter, _, ?_, ?_, sections⟩
  · rw [append_assoc, cons_append, cut_label, ← append_assoc, cut_append unlabelled, front, append_nil]
  · rw [jumps_append, jumps_of_plain plain, nil_append, ← entering]
    split <;> simp [jumps, Inst.target?]

theorem Laid.optimized (laid : Laid false s live code start sections) :
    ∃ start sections, Laid true s live (Peephole.optimize code).1 start sections := by
  have recut := Peephole.recut_optimize code
  rcases after : cut (Peephole.optimize code).1 with ⟨front, _ | ⟨⟨name, start'⟩, sections'⟩⟩
  · have sections := recut.sections
    rw [laid.whole, after] at sections
    cases sections
  · have kept := recut.front
    have rewritten := recut.sections
    rw [laid.whole, after] at kept rewritten
    obtain ⟨⟨rfl, begins⟩, rest⟩ := forall₂_cons.1 rewritten
    have none : front = [] := kept.nil
    refine ⟨start', sections', by rw [after, none], fun l member => laid.start l (begins.jumps member), ?_⟩
    refine forall₂_trans ?_ laid.sections rest
    rintro b ⟨l, p⟩ ⟨l', q⟩ ⟨label, afters, inner, last, w₁, w₂, w₃, pointed, here, ends, same⟩ ⟨rfl, more⟩
    obtain rfl : p = inner ++ last := same
    exact ⟨label, afters, inner, last, w₁, w₂, w₃, pointed, here, ends, more⟩

/-- Where a jump is meant to lead: its target is a target of the block whose code it stands in, and the
entry if it stands in front of all blocks. -/
def Targeted (s : Site) (front : List Inst) (b : BlockId) : Prop :=
  (labels front).getLast? = some s.graph.name ∧ b = s.graph.entry ∨
    ∃ c ∈ s.graph.layout, (labels front).getLast? = some (s.blockLabel c) ∧ b ∈ s.graph.targets c

/-- The code of a block starts at a label. -/
def Starts (optimize : Bool) (s : Site) (live : Solution VarSet) (code : List Inst) (l : Label) (b : BlockId) : Prop :=
  ∃ before after, code = before ++ .label l :: after ∧ BlockCode optimize s live b (cut after).1

namespace Laid

variable (laid : Laid optimize s live code start sections)
include laid

theorem labels : X86.labels code = s.graph.listed := by
  rw [labels_cut, laid.whole]
  refine congrArg (s.graph.name :: ·) (forall₂_eq_eq_eq ▸ ?_)
  refine forall₂_map_left_iff.2 (forall₂_map_right_iff.2 (List.Forall₂.flip ?_))
  exact laid.sections.imp fun b p here => here.1

/-- A block has its section. -/
theorem starts (member : b ∈ s.graph.layout) : Starts optimize s live code (s.blockLabel b) b := by
  obtain ⟨⟨l, piece⟩, inside, rfl, blockCode⟩ := exists_of_forall₂ laid.sections member
  have found : (s.blockLabel b, piece) ∈ (cut code).2 := by
    rw [laid.whole]
    exact .tail _ inside
  obtain ⟨before, after, same, rfl⟩ := exists_of_mem_cut found
  exact ⟨before, after, same, blockCode⟩

/-- A jump leads where it is meant to. -/
theorem leads (linked : s.graph.Linked) {front back : List Inst} {i : Inst} {l : Label}
    (here : code = front ++ i :: back) (target : i.target? = some l) :
    ∃ b ∈ s.graph.layout, Targeted s front b ∧ l = s.blockLabel b := by
  have unlabelled : i.label? = none := by cases i <;> first | rfl | cases target
  cases last : (X86.labels front).getLast? with
  | none =>
    have whole := laid.whole
    rw [here, cut_append (getLast?_eq_none_iff.1 last), cut_cons unlabelled] at whole
    simp at whole
  | some name =>
    obtain ⟨piece, inside, member⟩ : ∃ piece, (name, piece) ∈ (cut (front ++ i :: back)).2 ∧ i ∈ piece :=
      mem_cut unlabelled last
    have jumps : l ∈ jumps piece := mem_filterMap.2 ⟨i, member, target⟩
    rw [← here, laid.whole] at inside
    rcases mem_cons.1 inside with first | later
    · cases first
      exact ⟨_, linked.entry_mem, .inl ⟨last, rfl⟩, laid.start l jumps⟩
    · obtain ⟨c, member, rfl, blockCode⟩ := exists_of_forall₂ (List.Forall₂.flip laid.sections) later
      obtain ⟨b, edge, same⟩ := blockCode.jumps l jumps
      exact ⟨b, linked.target_mem member edge, .inr ⟨c, member, last, edge⟩, same⟩

end Laid

end Lowering

/-! ## Listings -/

/-- The labels that the code of a listing defines. -/
def X86.Listing.labels (l : Listing) : List Label := l.routines.flatMap fun r => X86.labels r.code

namespace Module

open Lowering

variable {w w' : Literals} {graphs : List Graph}

/-- The routine of a function. -/
def Routine (optimize : Bool) (g : Graph) (r : X86.Routine) : Prop :=
  r.name = g.name ∧ ∃ live a start sections, g.place = .ok (live, a) ∧ Laid optimize ⟨g, a⟩ live r.code start sections

theorem routine_compile {out : X86.Routine × Statistics} (given : Gives (g.compile optimize) w out w') :
    Routine optimize g out.1 := by
  obtain ⟨live, a, code, placed, made, same⟩ := Graph.compile_parts given
  obtain ⟨start, sections, laid⟩ := laid_code made
  rw [same]
  cases optimize with
  | true =>
    obtain ⟨start', sections', laid'⟩ := laid.optimized
    exact ⟨rfl, live, a, start', sections', placed, laid'⟩
  | false => exact ⟨rfl, live, a, start, sections, placed, laid⟩

theorem routines_compileGraphs {out : List X86.Routine × Statistics}
    (given : Gives (compileGraphs optimize graphs) w out w') : List.Forall₂ (Routine optimize) graphs out.1 := by
  induction graphs generalizing w out with
  | nil =>
    rw [(gives_pure.1 given).1]
    exact .nil
  | cons g rest ih =>
    simp only [compileGraphs, gives_bind, gives_pure] at given
    obtain ⟨first, _, here, others, _, later, rfl, rfl⟩ := given
    exact .cons (routine_compile here) (ih later)

theorem nodup_listed (nodup : g.layout.Nodup) : g.listed.Nodup ↔ g.LabelsApart := by
  have fresh : g.name ∉ g.layout.map fun b => "." ++ g.name ++ "_" ++ g.stem b := by
    rw [mem_map]
    rintro ⟨b, -, same⟩
    exact ne_listed _ _ same.symm
  rw [Graph.listed, nodup_cons, and_iff_right fresh, Graph.LabelsApart,
    nodup_map_iff_inj_on nodup, nodup_map_iff_inj_on nodup]
  have meet : ∀ b c, "." ++ g.name ++ "_" ++ g.stem b = "." ++ g.name ++ "_" ++ g.stem c ↔
      (g.label b).toList.dropWhile (· == '.') = (g.label c).toList.dropWhile (· == '.') := by
    intro b c
    rw [← String.toList_inj]
    simp [Graph.stem, stem]
  simp only [meet]

/-- The labels of a module are pairwise distinct just if none is made twice. -/
theorem nodup_flatMap_listed {m : Module} (layouts : ∀ g ∈ m.graphs, g.layout.Nodup)
    (names : (m.graphs.map Graph.name).Nodup) : (m.graphs.flatMap Graph.listed).Nodup ↔ m.Unambiguous := by
  have inj := inj_on_of_nodup_map names
  have symm : Std.Symm (Function.onFun List.Disjoint Graph.listed) := ⟨fun _ _ => List.Disjoint.symm⟩
  have own (g : Graph) : g.name ∈ g.listed := mem_cons_self
  have block {g : Graph} {b : BlockId} (member : b ∈ g.layout) :
      "." ++ g.name ++ "_" ++ g.stem b ∈ g.listed := .tail _ (mem_map.2 ⟨b, member, rfl⟩)
  rw [nodup_flatMap]
  constructor
  · rintro ⟨each, apart⟩
    refine ⟨fun g member => (nodup_listed (layouts g member)).1 (each g member), ?_, ?_⟩
    · intro f inside b member g inside' same
      have other : f ≠ g := by
        rintro rfl
        exact ne_listed _ _ same
      exact apart.forall inside inside' other (block member) (same ▸ own g)
    · intro f inside g inside' k longer b member c member' same
      have other : f.name ≠ g.name := by
        intro equal
        have lengths := congrArg String.length (equal.trans longer)
        simp only [String.length_append] at lengths
        have underscore : "_".length = 1 := rfl
        omega
      have met := (listed_meet other).2 (.inl ⟨k, longer, same⟩)
      exact apart.forall inside inside' (fun equal => other (congrArg _ equal)) (block member) (met ▸ block member')
  · intro unambiguous
    refine ⟨fun g member => (nodup_listed (layouts g member)).2 (unambiguous.apart g member), ?_⟩
    refine (List.Nodup.of_map _ names).pairwise_of_forall_ne fun f inside g inside' other l first second => ?_
    have other : f.name ≠ g.name := fun equal => other (inj inside inside' equal)
    rcases mem_cons.1 first with rfl | first <;> rcases mem_cons.1 second with same | second
    · exact other same
    · obtain ⟨c, member', same⟩ := mem_map.1 second
      exact unambiguous.function g inside' c member' f inside same.symm
    · obtain ⟨b, member, rfl⟩ := mem_map.1 first
      exact unambiguous.function f inside b member g inside' same.symm
    · obtain ⟨b, member, rfl⟩ := mem_map.1 first
      obtain ⟨c, member', same⟩ := mem_map.1 second
      rcases (listed_meet other).1 same.symm with ⟨k, longer, rest⟩ | ⟨k, longer, rest⟩
      · exact unambiguous.block f inside g inside' k longer b member c member' rest
      · exact unambiguous.block g inside' f inside k longer c member' b member rest

theorem labels_routines {routines : List X86.Routine} (compiled : List.Forall₂ (Routine optimize) graphs routines) :
    (routines.flatMap fun r => labels r.code) = graphs.flatMap Graph.listed := by
  induction compiled with
  | nil => rfl
  | cons here _ ih =>
    obtain ⟨-, live, a, start, sections, -, laid⟩ := here
    rw [flatMap_cons, flatMap_cons, laid.labels, ih]

/-- A listing defines each label once just if no label is made twice. Then every jump leads to one place,
in its own routine, and there the code of the block stands that the jump is meant for. -/
theorem jumps_have_one_meaning {m : Module} {listing : Listing} {stats : Statistics} (linked : ∀ g ∈ m.graphs, g.Linked)
    (names : (m.graphs.map Graph.name).Nodup) (compiled : Gives (m.compile optimize) w (listing, stats) w') :
    (listing.labels.Nodup ↔ m.Unambiguous) ∧
      (m.Unambiguous → List.Forall₂ (fun g r => ∃ live a, g.place = .ok (live, a) ∧
        ∀ front i back l, r.code = front ++ i :: back → i.target? = some l →
          ∃ b ∈ g.layout, Targeted ⟨g, a⟩ front b ∧ listing.labels.count l = 1 ∧
            Starts optimize ⟨g, a⟩ live r.code l b) m.graphs listing.routines) := by
  simp only [compile, gives_bind, gives_pure, gives_get] at compiled
  obtain ⟨⟨routines, stats⟩, _, given, literals, _, -, made, -⟩ := compiled
  cases made
  have routed := routines_compileGraphs given
  have defined : Listing.labels ⟨routines, m.globals, m.strings.entries, literals.floats.toList⟩ =
      m.graphs.flatMap Graph.listed := labels_routines routed
  rw [defined]
  have once := nodup_flatMap_listed (fun g member => (linked g member).layout_nodup) names
  refine ⟨once, fun unambiguous => ?_⟩
  obtain ⟨lengths, each⟩ := forall₂_iff_zip.1 routed
  refine forall₂_iff_zip.2 ⟨lengths, fun {g r} pair => ?_⟩
  have member : g ∈ m.graphs := (of_mem_zip pair).1
  obtain ⟨-, live, a, start, sections, placed, laid⟩ := each pair
  refine ⟨live, a, placed, fun front i back l here target => ?_⟩
  obtain ⟨b, block, targeted, rfl⟩ := laid.leads (linked g member) here target
  refine ⟨b, block, targeted, count_eq_one_of_mem (once.2 unambiguous) ?_, laid.starts block⟩
  exact mem_flatMap.2 ⟨g, member, .tail _ (mem_map.2 ⟨b, block, rfl⟩)⟩

end Module

/-- Gives 2 unless its argument is below 1. -/
def branching (name l : Label) : Function where
  name := name
  vars := #[.declare "n" .int .param]
  params := [0]
  quads := [
    .effect (.jumpIfNot .lt (.var 0) (.const (.int 1)) l),
    .effect (.ret (some (.const (.int 1)))),
    .effect (.label l),
    .effect (.ret (some (.const (.int 2))))]

/-- Two functions with a block each under the same label. -/
def branchingTwice : Module := ⟨[], .ofList [], [(branching "f" "x").graph, (branching "g" "x").graph]⟩

theorem branchingTwice_labels : branchingTwice.Unambiguous ∧ ∃ listing stats w,
    Gives (branchingTwice.compile true) {} (listing, stats) w ∧ listing.labels.Nodup := by
  have names : (branchingTwice.graphs.map Graph.name).Nodup := by decide +kernel
  have linked : ∀ g ∈ branchingTwice.graphs, g.Linked := by
    simp [branchingTwice, (branching "f" "x").graph_linked rfl, (branching "g" "x").graph_linked rfl]
  have unambiguous : branchingTwice.Unambiguous :=
    Module.unambiguous_of_names (by decide +kernel) (by decide +kernel)
  have succeeds : (outcome (branchingTwice.compile true) {}).1.toOption.map (fun _ => ()) = some () := by decide +kernel
  obtain ⟨⟨listing, stats⟩, given, -⟩ := toOption_map_eq_some.1 succeeds
  have given := gives_of_ok given
  exact ⟨unambiguous, listing, stats, _, given, (Module.jumps_have_one_meaning linked names given).1.2 unambiguous⟩

/-- What becomes of functions that are built and compiled. -/
def listing? (optimize : Bool) (functions : List Function) : Option Listing := do
  let (m, s) ← (Module.build { functions } {}).toOption
  let (listing, _) ← (outcome (m.compile optimize) { supply := s }).1.toOption
  pure listing

/-- The labels that are written in a function. -/
def Function.written (f : Function) : List Label := f.quads.filterMap (·.op.label?)

/-- Names of functions and labels of their blocks that are all distinct may make one label twice. So may a
label that is written and a generated one that it differs from by a dot. -/
theorem branching_collides : (∀ f ∈ [branching "f" "g_x", branching "f_g" "x", branching "f" "B1"],
      f.Written ∧ f.written.Nodup) ∧
    (∀ optimize, (listing? optimize [branching "f" "g_x", branching "f_g" "x"]).map
      (·.labels.count ".f_g_x") = some 2) ∧
    ∀ optimize, (listing? optimize [branching "f" "B1"]).map (·.labels.count ".f_B1") = some 2 := by
  refine ⟨fun f member => ⟨Function.written_of_heads ?_, ?_⟩, by decide +kernel, by decide +kernel⟩ <;>
    revert f <;> decide +kernel

end Quadcode
