import Quadcode.Proofs.Flow.LivePoints
import Quadcode.Proofs.Lowering.Straight

/-!
# Where the code of a block stands

The code of a function is its prologue and the code of its blocks one after the other. Every block
begins with its label, no other labels occur but that of the function, and as long as the labels of
the blocks differ behind their dots each one stands in one place.
-/

namespace Quadcode

open List

variable {code : List Inst} {b : BlockId} {s : Site}

namespace X86

def Inst.label? : Inst → Option Label
  | .label l => some l
  | _ => none

/-- The labels that code defines. -/
def labels (code : List Inst) : List Label := code.filterMap Inst.label?

@[simp]
theorem labels_nil : labels [] = [] := rfl

@[simp]
theorem labels_append (first rest : List Inst) : labels (first ++ rest) = labels first ++ labels rest :=
  filterMap_append

@[simp]
theorem labels_cons (i : Inst) (rest : List Inst) : labels (i :: rest) = i.label?.toList ++ labels rest := by
  unfold labels
  cases found : i.label? <;> simp [found]

theorem mem_labels {l : Label} : l ∈ labels code ↔ .label l ∈ code := by
  unfold labels
  rw [mem_filterMap]
  constructor
  · rintro ⟨i, member, found⟩
    cases i <;> cases found
    exact member
  · exact fun member => ⟨_, member, rfl⟩

/-- Where an instruction may jump to. -/
def Inst.target? : Inst → Option Label
  | .jmp l | .jcc _ l => some l
  | _ => none

/-- The labels that code may jump to. -/
def jumps (code : List Inst) : List Label := code.filterMap Inst.target?

@[simp]
theorem jumps_append (first rest : List Inst) : jumps (first ++ rest) = jumps first ++ jumps rest :=
  filterMap_append

theorem labels_of_plain (plain : Plain code) : labels code = [] := by
  refine filterMap_eq_nil_iff.2 fun i member => ?_
  have plain := plain i member
  cases i <;> first | rfl | cases plain

theorem jumps_of_plain (plain : Plain code) : jumps code = [] := by
  refine filterMap_eq_nil_iff.2 fun i member => ?_
  have plain := plain i member
  cases i <;> first | rfl | cases plain

/-- A label that code defines once is found where it stands. -/
theorem target?_of_nodup {before after : List Inst} {l : Label} (once : (labels (before ++ .label l :: after)).Nodup) :
    target? (before ++ .label l :: after) l = some before.length := by
  refine target?_eq fun member => ?_
  rw [labels_append, labels_cons] at once
  exact (nodup_append.1 once).2.2 l (mem_labels.2 member) l (by simp [Inst.label?]) rfl

end X86

namespace Lowering

open X86

variable {w w' : Literals}

/-- Only the targets of a tail are jumped to. -/
theorem tail_jumps {t : Tail} (given : Gives (tail s t) w code w') :
    labels code = [] ∧ ∀ l ∈ jumps code, ∃ c ∈ t.targets, l = s.blockLabel c := by
  obtain ⟨first, last, rfl, computing, ending⟩ := tail_cases (homes_all s) given
  rw [labels_append, jumps_append, labels_of_plain computing.plain, jumps_of_plain computing.plain]
  rcases ending with rfl | ⟨branches, b, rfl, inside⟩
  · rw [labels_of_plain plain_epilogue, jumps_of_plain plain_epilogue]
    exact ⟨rfl, forall_mem_nil _⟩
  · obtain ⟨last, others⟩ := forall_mem_cons.1 inside
    constructor
    · simp [labels, leaps, Inst.label?]
    · intro l member
      obtain ⟨c, taken, rfl⟩ | rfl : (∃ c ∈ branches, s.blockLabel c.2 = l) ∨ l = s.blockLabel b := by
        simpa [jumps, leaps, Inst.target?] using member
      · exact ⟨c.2, others _ (mem_map_of_mem taken), rfl⟩
      · exact ⟨b, last, rfl⟩

/-- The code from the `i`-th quadruple of a block on stands in some place. -/
def Stands (s : Site) (code : List Inst) (b : BlockId) (i pc : Nat) : Prop :=
  ∃ afters front inner last back w₁ w₂ w₃, ((s.graph.body b).drop i).length ≤ afters.length ∧
    Gives (body s ((s.graph.body b).drop i) afters) w₁ inner w₂ ∧
    Gives (tail s (s.graph.tail b)) w₂ last w₃ ∧ code = front ++ inner ++ last ++ back ∧
    pc = front.length

/-- The label of a block stands in some place, and its code behind it. -/
def Labelled (s : Site) (code : List Inst) (b : BlockId) : Prop :=
  ∃ front back, code = front ++ .label (s.blockLabel b) :: back ∧ Stands s code b 0 (front.length + 1)

theorem Stands.extend {i pc : Nat} (stands : Stands s code b i pc) (front back : List Inst) :
    Stands s (front ++ code ++ back) b i (front.length + pc) := by
  obtain ⟨afters, front', inner, last, back', w₁, w₂, w₃, enough, here, ends, rfl, rfl⟩ := stands
  exact ⟨afters, front ++ front', inner, last, back' ++ back, w₁, w₂, w₃, enough, here, ends, by simp, by simp⟩

theorem Labelled.extend (labelled : Labelled s code b) (front back : List Inst) :
    Labelled s (front ++ code ++ back) b := by
  obtain ⟨front', back', same, stands⟩ := labelled
  refine ⟨front ++ front', back' ++ back, by simp [same], ?_⟩
  have extended := stands.extend front back
  rwa [← Nat.add_assoc, ← length_append] at extended

end Lowering

/-- A function that computes with integers alone. -/
structure Graph.Integral (g : Graph) : Prop where
  vars : ∀ x ∈ g.vars, (x.ty = .int ∨ x.ty = .bool) ∧ x.isGlobal = false
  params : g.params.Nodup
  body : ∀ b ∈ g.layout, ∀ q ∈ g.body b, q.isIntegral
  tail : ∀ b ∈ g.layout, ∀ a ∈ (g.tail b).args, a.isIntegral

/-- The labels of the blocks differ behind their leading dots. -/
def Graph.LabelsApart (g : Graph) : Prop := (g.layout.map fun b => (g.label b).toList.dropWhile (· == '.')).Nodup

instance (g : Graph) : Decidable g.LabelsApart := inferInstanceAs (Decidable (List.Nodup _))

namespace Lowering

open X86

variable {w w' : Literals} {live : Solution VarSet} {bs : List BlockId}

theorem gives_block (given : Gives (block s (Liveness.problem s.graph) live b) w code w') :
    labels code = [s.blockLabel b] ∧ Labelled s code b := by
  simp only [block, gives_bind, gives_ofExcept, gives_pure] at given
  obtain ⟨points, _, ⟨pointed, rfl⟩, inner, _, here, last, _, ends, rfl, rfl⟩ := given
  constructor
  · rw [labels_append, labels_cons, labels_of_plain (plain_body here), (tail_jumps ends).1]
    rfl
  · refine ⟨[], inner ++ last, rfl, points, [.label (s.blockLabel b)], inner, last, [], _, _, _, ?_, here,
      ends, ?_, rfl⟩
    · rw [Problem.points_length pointed]
      exact Nat.le_succ _
    · simp

theorem gives_blocks (given : Gives (blocks s (Liveness.problem s.graph) live bs) w code w') :
    labels code = bs.map s.blockLabel ∧ ∀ b ∈ bs, Labelled s code b := by
  induction bs generalizing w code with
  | nil =>
    simp only [blocks, gives_pure] at given
    simp [given.1]
  | cons c rest ih =>
    simp only [blocks, gives_bind, gives_pure] at given
    obtain ⟨first, _, here, others, _, later, rfl, rfl⟩ := given
    obtain ⟨one, labelled⟩ := gives_block here
    obtain ⟨more, all⟩ := ih later
    refine ⟨by simp [one, more], fun b member => ?_⟩
    rcases mem_cons.1 member with rfl | later
    · simpa using labelled.extend [] others
    · simpa using (all b later).extend first []

/-- The code of the blocks begins with the label of the first. -/
theorem blocks_head (given : Gives (blocks s (Liveness.problem s.graph) live (b :: bs)) w code w') :
    ∃ back, code = .label (s.blockLabel b) :: back := by
  simp only [blocks, block, gives_bind, gives_ofExcept, gives_pure] at given
  obtain ⟨_, _, ⟨_, _, -, inner, _, -, last, _, -, rfl, -⟩, others, _, -, rfl, -⟩ := given
  exact ⟨inner ++ last ++ others, by simp⟩

theorem blockLabel_inj {c : BlockId} (same : s.blockLabel b = s.blockLabel c) :
    (s.graph.label b).toList.dropWhile (· == '.') = (s.graph.label c).toList.dropWhile (· == '.') := by
  have lists := congrArg String.toList same
  simp only [Site.blockLabel, String.toList_append, String.toList_ofList] at lists
  exact append_cancel_left lists

theorem blockLabel_ne_name : s.blockLabel b ≠ s.graph.name := by
  intro same
  have lengths := congrArg (fun l => l.toList.length) same
  simp only [Site.blockLabel, String.toList_append, length_append, String.toList_ofList] at lengths
  have dot : ".".toList.length = 1 := rfl
  omega

/-- What the code of a function is made of. -/
structure Made (s : Site) (code start : List Inst) : Prop where
  once : (labels code).Nodup
  block : ∀ b ∈ s.graph.layout, Labelled s code b
  entry : ∃ back, code = start ++ .jmp (s.blockLabel s.graph.entry) :: back ∨
    code = start ++ .label (s.blockLabel s.graph.entry) :: back

theorem gives_code (linked : s.graph.Linked) (apart : s.graph.LabelsApart)
    (given : Gives (Lowering.code s live) w code w') : ∃ start, prologue s = .ok start ∧ Made s code start := by
  simp only [Lowering.code, gives_bind, gives_ofExcept, gives_pure] at given
  obtain ⟨start, _, ⟨started, rfl⟩, rest, _, here, rfl, rfl⟩ := given
  obtain ⟨more, all⟩ := gives_blocks here
  refine ⟨start, started, ?_, fun b member => ?_, ?_⟩
  · have entering : labels (if s.graph.layout.head? = some s.graph.entry then []
        else [Inst.jmp (s.blockLabel s.graph.entry)]) = [] := by
      split <;> rfl
    have defined : labels start = [s.graph.name] := by
      obtain ⟨rest, rfl, plain⟩ := plain_prologue started
      rw [labels_cons, labels_of_plain plain]
      rfl
    rw [labels_append, labels_append, defined, entering, more]
    refine nodup_cons.2 ⟨fun member => ?_, ?_⟩
    · obtain ⟨b, -, same⟩ := mem_map.1 member
      exact blockLabel_ne_name same
    · exact linked.layout_nodup.map_on fun b inside c inside' same =>
        inj_on_of_nodup_map apart inside inside' (blockLabel_inj same)
  · simpa using (all b member).extend (start ++ _) []
  · split
    next head =>
      obtain ⟨bs, same⟩ := head?_eq_some_iff.1 head
      rw [same] at here
      obtain ⟨back, rfl⟩ := blocks_head here
      exact ⟨back, .inr (by simp)⟩
    · exact ⟨rest, .inl (by simp)⟩

end Lowering

end Quadcode
