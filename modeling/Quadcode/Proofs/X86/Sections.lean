import Quadcode.Proofs.Lowering.Layout

/-!
# Code between labels

Labels cut code into sections. Peephole optimization keeps the labels in their order, and works on each
section by itself: what its rules replace has no label in it.
-/

namespace Quadcode.X86

open List Inst

/-! ## Cutting -/

/-- The code in front of the first label, and behind each label the code up to the next. -/
def cut : List Inst → List Inst × List (Label × List Inst)
  | [] => ([], [])
  | .label l :: rest => ([], (l, (cut rest).1) :: (cut rest).2)
  | i :: rest => (i :: (cut rest).1, (cut rest).2)

section Cutting

variable {i : Inst} {l : Label} {code front rest window : List Inst}

theorem cut_label : cut (.label l :: rest) = ([], (l, (cut rest).1) :: (cut rest).2) := rfl

theorem cut_cons (unlabelled : i.label? = none) : cut (i :: rest) = (i :: (cut rest).1, (cut rest).2) := by
  cases i <;> first | rfl | cases unlabelled

theorem cut_append (unlabelled : labels window = []) :
    cut (window ++ rest) = (window ++ (cut rest).1, (cut rest).2) := by
  induction window with
  | nil => rfl
  | cons i window ih =>
    rw [labels_cons, append_eq_nil_iff, Option.toList_eq_nil_iff] at unlabelled
    rw [cons_append, cut_cons unlabelled.1, ih unlabelled.2]
    rfl

theorem labels_cut (code : List Inst) : labels code = (cut code).2.map Prod.fst := by
  induction code with
  | nil => rfl
  | cons i rest ih =>
    cases label : i.label? with
    | none => rw [labels_cons, cut_cons label, label, ih]; rfl
    | some l =>
      cases i <;> cases label
      rw [labels_cons, cut_label, ih]
      rfl

/-- The sections make up the code. -/
theorem join_cut (code : List Inst) : code = (cut code).1 ++ (cut code).2.flatMap fun s => .label s.1 :: s.2 := by
  induction code with
  | nil => rfl
  | cons i rest ih =>
    cases label : i.label? with
    | none =>
      rw [cut_cons label, cons_append, ← ih]
    | some l =>
      cases i <;> cases label
      rw [cut_label, flatMap_cons, nil_append, cons_append, ← ih]

/-- A section stands behind its label. -/
theorem exists_of_mem_cut {piece : List Inst} (member : (l, piece) ∈ (cut code).2) :
    ∃ before after, code = before ++ .label l :: after ∧ piece = (cut after).1 := by
  induction code with
  | nil => cases member
  | cons i rest ih =>
    cases label : i.label? with
    | none =>
      rw [cut_cons label] at member
      obtain ⟨before, after, same, here⟩ := ih member
      exact ⟨i :: before, after, by rw [same]; rfl, here⟩
    | some l' =>
      cases i <;> cases label
      rw [cut_label, mem_cons] at member
      rcases member with here | later
      · cases here
        exact ⟨[], rest, rfl, rfl⟩
      · obtain ⟨before, after, same, here⟩ := ih later
        exact ⟨.label l' :: before, after, by rw [same]; rfl, here⟩

/-- An instruction is in the section of the last label in front of it. -/
theorem mem_cut (unlabelled : i.label? = none) (last : (labels front).getLast? = some l) :
    ∃ piece, (l, piece) ∈ (cut (front ++ i :: rest)).2 ∧ i ∈ piece := by
  induction front with
  | nil => cases last
  | cons j front ih =>
    cases label : j.label? with
    | none =>
      rw [labels_cons, label] at last
      rw [cons_append, cut_cons label]
      exact ih last
    | some l' =>
      cases j <;> cases label
      rw [cons_append, cut_label]
      cases earlier : (labels front).getLast? with
      | none =>
        have none : labels front = [] := getLast?_eq_none_iff.1 earlier
        rw [labels_cons, none] at last
        cases last
        refine ⟨_, mem_cons_self, ?_⟩
        rw [cut_append none, cut_cons unlabelled]
        simp
      | some l'' =>
        rw [labels_cons, label?, Option.toList_some, singleton_append, getLast?_cons, earlier] at last
        cases last
        obtain ⟨piece, member, inside⟩ := ih earlier
        exact ⟨piece, .tail _ member, inside⟩

end Cutting

/-! ## Peephole optimization by sections -/

namespace Peephole

/-- A rule is applied in a piece of code, with something behind it. -/
inductive Rewrite : List Inst → List Inst → Prop where
  | mk (front : List Inst) {window window' back next : List Inst}
    (reduced : reduce? (window ++ (back ++ next)) = some (window' ++ (back ++ next))) :
    Rewrite (front ++ (window ++ back)) (front ++ (window' ++ back))

/-- Rules have been applied to a piece of code, and it has no new jumps. -/
structure Rewritten (code code' : List Inst) : Prop where
  rules : Relation.ReflTransGen Rewrite code code'
  jumps : jumps code' ⊆ jumps code

/-- Rules have been applied to the sections of code. -/
structure Recut (code code' : List Inst) : Prop where
  front : Rewritten (cut code).1 (cut code').1
  sections : List.Forall₂ (fun x y => x.1 = y.1 ∧ Rewritten x.2 y.2) (cut code).2 (cut code').2

variable {code code' code'' window rest : List Inst} {i j : Inst}

namespace Rewritten

theorem refl (code : List Inst) : Rewritten code code := ⟨.refl, List.Subset.refl _⟩

theorem trans (first : Rewritten code code') (second : Rewritten code' code'') : Rewritten code code'' :=
  ⟨first.rules.trans second.rules, fun _ member => first.jumps (second.jumps member)⟩

theorem cons (i : Inst) (rewritten : Rewritten code code') : Rewritten (i :: code) (i :: code') where
  rules := by
    refine .lift (i :: ·) ?_ _ _ rewritten.rules
    rintro _ _ ⟨front, reduced⟩
    exact .mk (i :: front) reduced
  jumps := by
    intro l member
    obtain ⟨j, inside, target⟩ := mem_filterMap.1 member
    rcases mem_cons.1 inside with rfl | later
    · exact mem_filterMap.2 ⟨j, mem_cons_self, target⟩
    · obtain ⟨k, before, target⟩ := mem_filterMap.1 (rewritten.jumps (mem_filterMap.2 ⟨j, later, target⟩))
      exact mem_filterMap.2 ⟨k, .tail _ before, target⟩

/-- Where there is no code, none is made. -/
theorem nil (rewritten : Rewritten [] code) : code = [] := by
  obtain same | ⟨middle, step, -⟩ := Relation.ReflTransGen.cases_head rewritten.rules
  · exact same.symm
  · generalize none : ([] : List Inst) = start at step
    obtain ⟨front, reduced⟩ := step
    obtain ⟨rfl, rfl, rfl⟩ : front = [] ∧ _ = [] ∧ _ = [] := by simpa using none.symm
    have := reduce?_weight reduced
    simp at this

end Rewritten

namespace Recut

theorem refl (code : List Inst) : Recut code code := ⟨.refl _, forall₂_same.2 fun _ _ => ⟨rfl, .refl _⟩⟩

theorem trans (first : Recut code code') (second : Recut code' code'') : Recut code code'' where
  front := first.front.trans second.front
  sections := forall₂_trans (fun _ _ _ one two => ⟨one.1.trans two.1, one.2.trans two.2⟩) first.sections
    second.sections

theorem cons (i : Inst) (recut : Recut code code') : Recut (i :: code) (i :: code') := by
  cases label : i.label? with
  | none =>
    refine ⟨?_, ?_⟩ <;> rw [cut_cons label, cut_cons label]
    · exact recut.front.cons i
    · exact recut.sections
  | some l =>
    cases i <;> cases label
    exact ⟨.refl _, .cons ⟨rfl, recut.front⟩ recut.sections⟩

end Recut

theorem moves?_plain {move : Operand → Operand → Inst} {file : Operand → Bool} {d s d' s' : Operand}
    (plain : ∀ d s, (move d s).isPlain) (moved : moves? move file d s d' s' = some window) : Plain window := by
  unfold moves? at moved
  repeat' split at moved
  all_goals cases moved <;> simp [plain]

/-- What two instructions become. One of them may stay behind as the place where a jump ends. -/
theorem pair?_window (paired : pair? i j rest = some window) :
    ∃ piece piece' after, i :: j :: rest = piece ++ after ∧ window ++ rest = piece' ++ after ∧
      labels piece = [] ∧ labels piece' = [] ∧ jumps piece' ⊆ jumps piece := by
  have whole (plain : Plain [i, j]) (plain' : Plain window) :
      ∃ piece piece' after, i :: j :: rest = piece ++ after ∧ window ++ rest = piece' ++ after ∧
        labels piece = [] ∧ labels piece' = [] ∧ jumps piece' ⊆ jumps piece :=
    ⟨[i, j], window, rest, rfl, rfl, labels_of_plain plain, labels_of_plain plain', by simp [jumps_of_plain plain']⟩
  unfold pair? at paired
  split at paired
  · split at paired <;> cases paired
    exact ⟨[_], [], _, rfl, rfl, rfl, rfl, by simp [jumps]⟩
  · split at paired
    · split at paired <;> cases paired
      exact ⟨[_, _], [_], _, rfl, rfl, rfl, rfl, by simp [jumps, Inst.target?]⟩
    · cases paired
  · exact whole (by simp [isPlain]) (moves?_plain (fun _ _ => rfl) paired)
  · exact whole (by simp [isPlain]) (moves?_plain (fun _ _ => rfl) paired)
  · cases paired
    refine whole (by simp [isPlain]) ?_
    split <;> simp [isPlain]
  · cases paired
    exact whole (by simp [isPlain]) (by simp [isPlain])
  · split at paired <;> cases paired
    exact whole (by simp [isPlain]) (by simp [isPlain])
  · cases paired

theorem isIdle_plain (idle : isIdle i rest) : i.isPlain := by
  unfold isIdle at idle
  split at idle <;> first | rfl | cases idle

/-- Rules replace code that has no label in it. -/
theorem reduce?_window (reduced : reduce? code = some code') :
    ∃ piece piece' after, code = piece ++ after ∧ code' = piece' ++ after ∧
      labels piece = [] ∧ labels piece' = [] ∧ jumps piece' ⊆ jumps piece := by
  obtain ⟨i, rfl, idle⟩ | ⟨i, j, rest, window, rfl, rfl, paired⟩ := reduce?_cases reduced
  · exact ⟨[i], [], _, rfl, rfl, labels_of_plain (by simp [isIdle_plain idle]), rfl, by simp [jumps]⟩
  · exact pair?_window paired

theorem Recut.reduce (reduced : reduce? code = some code') : Recut code code' := by
  obtain ⟨piece, piece', after, rfl, rfl, none, none', jumps⟩ := reduce?_window reduced
  refine ⟨?_, ?_⟩ <;> rw [cut_append none, cut_append none']
  · rw [join_cut after] at reduced
    refine ⟨.single (.mk [] reduced), ?_⟩
    rw [jumps_append, jumps_append]
    exact append_subset.2 ⟨fun _ member => mem_append_left _ (jumps member), subset_append_right ..⟩
  · exact (Recut.refl after).sections

/-- Optimization keeps the labels in their order, and applies rules to what stands between them. -/
theorem recut_optimize (code : List Inst) : Recut code (optimize code).1 :=
  optimize_chain .refl .trans (fun i _ _ => .cons i) .reduce code

end Peephole

end Quadcode.X86
