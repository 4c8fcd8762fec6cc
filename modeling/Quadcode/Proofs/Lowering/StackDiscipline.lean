import Quadcode.Proofs.Graph.Normal
import Quadcode.Proofs.Lowering.StackDepth

/-!
# The stack on every path through a function

The code of a function is its prologue and pieces, one for each block. Every piece starts at the base of the stack,
stays there but for calls, and either jumps to others or takes everything off the stack and returns. So
the depth of the stack does not depend on the path that led somewhere.
-/

namespace Quadcode.Lowering

open X86 List Inst

variable {s : Site} {w w' : Literals} {code : List Inst} {l : Level}

/-! ## Blocks -/

/-- Straight code that starts and ends at the base of the stack. -/
def Flat (s : Site) (code : List Inst) : Prop := Takes s.allocation.calleeSaved s.base.depth s.base code s.base

/-- How the code of a block ends. -/
inductive Ending (s : Site) : List Inst → Prop
  | jumps (branches : List (Cond × BlockId)) (b : BlockId) : Ending s (leaps s branches b)
  | returns : Takes s.allocation.calleeSaved slotBytes s.base (closing s) .entered → Ending s (closing s ++ [.ret])

/-- The code of a block: its label, that of its quadruples, what compares or gives a result, and an ending. -/
structure Piece (s : Site) (live : Solution VarSet) (b : BlockId) (piece inner first last : List Inst) : Prop where
  eq : piece = .label (s.blockLabel b) :: (inner ++ (first ++ last))
  body : ∃ points w w', (Liveness.problem s.graph).points s.graph live b = .ok points ∧
    Gives (body s (s.graph.body b) points) w inner w'
  inner : Flat s inner
  first : Flat s first
  last : Ending s last

/-- What the code of a function is made of. -/
structure Pieces (s : Site) (live : Solution VarSet) (start : List Inst) (pieces : List (List Inst)) : Prop where
  start : ∃ rest entry, start = .label s.graph.name :: (rest ++ entry) ∧
    Takes s.allocation.calleeSaved slotBytes .entered rest s.base ∧
    (entry = [.jmp (s.blockLabel s.graph.entry)] ∨ entry = [] ∧ pieces ≠ [])
  blocks : List.Forall₂ (fun b piece => ∃ inner first last, Piece s live b piece inner first last)
    s.graph.layout pieces

section Blocks

variable {live : Solution VarSet} {start inner first last piece back : List Inst} {pieces : List (List Inst)}
  {b : BlockId} {n : Label}

theorem Ending.ne_nil (ending : Ending s last) : last ≠ [] := by
  cases ending <;> simp [leaps]

theorem Ending.mild (ending : Ending s last) : ∀ i ∈ last, i.Mild s.allocation.calleeSaved := by
  cases ending with
  | jumps branches b =>
    refine forall_mem_append.2 ⟨forall_mem_map.2 fun c _ => ?_, forall_mem_singleton.2 ?_⟩ <;>
      exact ⟨by simp, by simp [writes]⟩
  | returns closed =>
    exact forall_mem_append.2 ⟨fun i member => (closed.mild i member).1,
      forall_mem_singleton.2 ⟨by simp, by simp [writes]⟩⟩

theorem Ending.guarded (ending : Ending s last) (rest : List Inst) :
    Guarded s.base s.graph.name s.base (last ++ rest) := by
  cases ending with
  | jumps branches b =>
    induction branches with
    | nil => exact .step ⟨blockLabel_ne_name, rfl⟩ rfl (by simp [runsOn])
    | cons c more ih => exact .step ⟨blockLabel_ne_name, rfl⟩ rfl fun _ => ih
  | returns closed =>
    rw [append_assoc]
    exact closed.guarded (.step rfl rfl (by simp [runsOn]))

section Piece

variable (here : Piece s live b piece inner first last) {f : List Inst}
include here

theorem Piece.guarded (rest : List Inst) : Guarded s.base s.graph.name s.base (piece ++ rest) := by
  rw [here.eq, cons_append, append_assoc, append_assoc]
  exact .step (.inr rfl) rfl fun _ => here.inner.guarded (here.first.guarded (here.last.guarded rest))

theorem Piece.mild : ∀ i ∈ inner ++ (first ++ last), i.Mild s.allocation.calleeSaved := by
  rw [← append_assoc]
  exact forall_mem_append.2
    ⟨fun i member => ((here.inner.append here.first).mild i member).1, here.last.mild⟩

theorem Piece.label_first (split : piece = f ++ .label n :: back) : f = [] ∧ back = inner ++ (first ++ last) := by
  have inside : .label n ∉ inner ++ (first ++ last) := fun member => (here.mild _ member).no_label n rfl
  obtain ⟨empty, -, same⟩ := (append_cons_inj_of_notMem not_mem_nil inside).1 (here.eq.symm.trans split)
  exact ⟨empty.symm, same.symm⟩

theorem Piece.ret_last (split : piece = f ++ .ret :: back) :
    f = .label (s.blockLabel b) :: (inner ++ first) ++ closing s ∧ last = closing s ++ [.ret] ∧ back = [] := by
  cases here.last with
  | jumps branches c =>
    have outside : .ret ∉ piece := by
      simp [here.eq, here.inner.no_ret, here.first.no_ret, leaps]
    exact absurd (split ▸ mem_append_right f mem_cons_self) outside
  | returns closed =>
    have outside : .ret ∉ .label (s.blockLabel b) :: (inner ++ first) ++ closing s := by
      simp [here.inner.no_ret, here.first.no_ret, closed.no_ret]
    have joined : .label (s.blockLabel b) :: (inner ++ first) ++ closing s ++ .ret :: [] = f ++ .ret :: back := by
      rw [← split, here.eq]
      simp
    obtain ⟨same, -, empty⟩ := (append_cons_inj_of_notMem outside not_mem_nil).1 joined
    exact ⟨same.symm, rfl, empty.symm⟩

end Piece

/-! ## Functions -/

theorem flatten_eq_append_cons {α : Type} {lists : List (List α)} {front back : List α} {x : α}
    (split : lists.flatten = front ++ x :: back) : ∃ before f b after, lists = before ++ (f ++ x :: b) :: after ∧
      front = before.flatten ++ f ∧ back = b ++ after.flatten := by
  rcases flatten_eq_append_iff.1 split with
    ⟨before, rest, rfl, rfl, behind⟩ | ⟨before, f, c, b, after, rfl, rfl, behind⟩
  · obtain ⟨empty, b, after, rfl, none, rfl⟩ := flatten_eq_cons_iff.1 behind.symm
    exact ⟨before ++ empty, [], b, after, by simp, by simp [flatten_eq_nil_iff.2 none], rfl⟩
  · cases behind
    exact ⟨before, f, b, after, rfl, rfl, rfl⟩

/-- Code goes through the body of a block at the base of the stack or deeper, whichever way it came there. -/
def Sheltered (s : Site) (live : Solution VarSet) (code : List Inst) (b : BlockId) : Prop :=
  ∃ points w w' front inner back, (Liveness.problem s.graph).points s.graph live b = .ok points ∧
    Gives (body s (s.graph.body b) points) w inner w' ∧
    code = front ++ .label (s.blockLabel b) :: (inner ++ back) ∧
    ∀ k ≤ inner.length, ∀ l, Comes code (front.length + k + 1) l → s.base.depth ≤ l.depth

/-- Before every return the registers come back from where they were pushed. -/
def Mirrored (s : Site) (code : List Inst) : Prop :=
  ∀ front back, code = front ++ .ret :: back → ∃ earlier, front = earlier ++ closing s ∧
    ∀ l, Comes code earlier.length l → l.depth = s.base.depth

/-- The stack is as deep as it should be on every path through the code of a function. -/
structure Disciplined (s : Site) (live : Solution VarSet) (code : List Inst) : Prop where
  tracked : ∀ pc l i, Comes code pc l → code[pc]? = some i → (i.track l).isSome
  label : ∀ pc l, ∀ b ∈ s.graph.layout, Comes code pc l → code[pc]? = some (.label (s.blockLabel b)) →
    l.depth = s.base.depth
  call : ∀ pc l name, Comes code pc l → code[pc]? = some (.call name) → l.depth % stackAlignment = 0
  ret : ∀ pc l, Comes code pc l → code[pc]? = some .ret → l.depth = slotBytes
  body : ∀ b ∈ s.graph.layout, Sheltered s live code b
  kept : ∀ i ∈ code, ∀ r ∈ i.writes, r ∈ calleeSaved → r ∈ s.allocation.calleeSaved
  pushed : opening s <+: code
  popped : Mirrored s code

section Pieces

variable (made : Pieces s live start pieces)
include made

theorem Pieces.found (member : piece ∈ pieces) :
    ∃ b ∈ s.graph.layout, ∃ inner first last, Piece s live b piece inner first last :=
  exists_of_forall₂ (List.Forall₂.flip made.blocks) member

theorem Pieces.start_mild : ∀ i ∈ start, i = .label s.graph.name ∨ i.Mild s.allocation.calleeSaved ∧ i ≠ .ret := by
  obtain ⟨rest, entry, rfl, takes, enters⟩ := made.start
  have jumping : ∀ i ∈ entry, i = .jmp (s.blockLabel s.graph.entry) := by
    rcases enters with rfl | ⟨rfl, -⟩ <;> simp
  refine forall_mem_cons.2 ⟨.inl rfl, fun i member => .inr ?_⟩
  rcases mem_append.1 member with inside | inside
  · exact takes.mild i inside
  · cases jumping i inside
    exact ⟨⟨by simp, by simp [writes]⟩, by simp⟩

theorem Pieces.kept : ∀ i ∈ (start :: pieces).flatten,
    ∀ r ∈ i.writes, r ∈ calleeSaved → r ∈ s.allocation.calleeSaved := by
  intro i member
  obtain ⟨piece, inside, there⟩ := mem_flatten.1 member
  rcases mem_cons.1 inside with rfl | inside
  · rcases made.start_mild i there with rfl | mild
    · simp [writes]
    · exact mild.1.keeps
  · obtain ⟨b, -, inner, first, last, here⟩ := made.found inside
    rcases mem_cons.1 (here.eq ▸ there) with rfl | there
    · simp [writes]
    · exact (here.mild i there).keeps

theorem Pieces.guarded_label {front : List Inst} (split : (start :: pieces).flatten = front ++ .label n :: back)
    (other : n ≠ s.graph.name) :
    Guarded s.base s.graph.name s.base (.label n :: back) := by
  obtain ⟨before, f, b, after, same, rfl, rfl⟩ := flatten_eq_append_cons split
  cases before with (obtain ⟨rfl, rfl⟩ := List.cons.inj same)
  | nil =>
    rcases made.start_mild (.label n) (by simp) with own | mild
    · cases own
      exact absurd rfl other
    · exact absurd rfl (mild.1.no_label n)
  | cons _ before =>
    obtain ⟨b, -, inner, first, last, here⟩ := made.found (mem_append_right before mem_cons_self)
    obtain ⟨rfl, rfl⟩ := here.label_first rfl
    exact here.guarded after.flatten

theorem Pieces.guarded_start : Guarded s.base s.graph.name .entered (start :: pieces).flatten := by
  obtain ⟨rest, entry, rfl, takes, enters⟩ := made.start
  rw [flatten_cons, cons_append, append_assoc]
  refine .step (.inl rfl) rfl fun _ => takes.guarded ?_
  rcases enters with rfl | ⟨rfl, some⟩
  · exact .step ⟨blockLabel_ne_name, rfl⟩ rfl (by simp [runsOn])
  · obtain ⟨piece, others, rfl⟩ := exists_cons_of_ne_nil some
    obtain ⟨b, -, inner, first, last, here⟩ := made.found mem_cons_self
    exact here.guarded others.flatten

theorem Pieces.fits {pc : Nat} {i : Inst} (comes : Comes (start :: pieces).flatten pc l)
    (there : (start :: pieces).flatten[pc]? = some i) : i.Fits s.base s.graph.name l ∧ (i.track l).isSome := by
  have guarded := comes.guarded made.guarded_start fun _ _ _ split => made.guarded_label split
  obtain ⟨inside, rfl⟩ := List.getElem?_eq_some_iff.1 there
  rw [drop_eq_getElem_cons inside] at guarded
  cases guarded with
  | step fits tracked _ => exact ⟨fits, Option.isSome_iff_exists.2 ⟨_, tracked⟩⟩

omit made in
/-- Inside a block, the rest of its straight code leads back to the base of the stack. -/
theorem Pieces.inside {before after : List (List Inst)} (made : Pieces s live start (before ++ piece :: after))
    (here : Piece s live b piece inner first last) {straight : List Inst}
    (split : inner ++ (first ++ last) = straight ++ back) (more : back ≠ []) (flat : Flat s straight) {k : Nat}
    (within : k ≤ straight.length)
    (comes : Comes (start :: (before ++ piece :: after)).flatten ((start :: before).flatten.length + k + 1) l) :
    Takes s.allocation.calleeSaved s.base.depth l (straight.drop k) s.base := by
  have same : (start :: (before ++ piece :: after)).flatten =
      (start :: before).flatten ++ .label (s.blockLabel b) :: (straight ++ (back ++ after.flatten)) := by
    rw [← append_assoc straight, ← split]
    simp [here.eq]
  have labels : ∀ l, Comes (start :: (before ++ piece :: after)).flatten (start :: before).flatten.length l →
      l = s.base := by
    intro l comes
    have there : (start :: (before ++ piece :: after)).flatten[(start :: before).flatten.length]? =
        some (.label (s.blockLabel b)) := by
      rw [same, getElem?_append_right (Nat.le_refl _), Nat.sub_self, getElem?_cons_zero]
    exact (made.fits comes there).1.resolve_left blockLabel_ne_name
  rw [same] at comes labels
  refine comes.takes flat (fun n first => ?_) labels within
  obtain ⟨i, rest, rfl⟩ := exists_cons_of_ne_nil more
  cases first
  exact (here.mild _ (by simp [split])).no_label n rfl

theorem Pieces.sheltered (member : b ∈ s.graph.layout) : Sheltered s live (start :: pieces).flatten b := by
  obtain ⟨piece, inside, inner, first, last, here⟩ := exists_of_forall₂ made.blocks member
  obtain ⟨before, after, rfl⟩ := append_of_mem inside
  obtain ⟨points, w, w', pointed, given⟩ := here.body
  refine ⟨points, w, w', (start :: before).flatten, inner, first ++ last ++ after.flatten, pointed, given,
    by simp [here.eq], fun k within l comes => ?_⟩
  have takes := made.inside here rfl (by simp [here.last.ne_nil]) here.inner within comes
  cases rest : inner.drop k with
  | nil =>
    rw [rest] at takes
    cases takes
    exact Int.le_refl _
  | cons i rest =>
    rw [rest] at takes
    cases takes with
    | step above => exact above

theorem Pieces.mirrored : Mirrored s (start :: pieces).flatten := by
  intro front back split
  obtain ⟨before, f, b, after, same, rfl, rfl⟩ := flatten_eq_append_cons split
  cases before with (obtain ⟨rfl, rfl⟩ := List.cons.inj same)
  | nil =>
    rcases made.start_mild .ret (by simp) with own | mild
    · cases own
    · exact absurd rfl mild.2
  | cons _ before =>
    obtain ⟨b, -, inner, first, last, here⟩ := made.found (mem_append_right before mem_cons_self)
    obtain ⟨rfl, rfl, rfl⟩ := here.ret_last rfl
    refine ⟨(start :: before).flatten ++ .label (s.blockLabel b) :: (inner ++ first), by simp, fun l comes => ?_⟩
    -- The end of the straight code of the block is where its level is the base again.
    have takes := made.inside here (append_assoc ..).symm here.last.ne_nil (here.inner.append here.first)
      (Nat.le_refl _) (by simpa [Nat.add_assoc] using comes)
    rw [drop_length] at takes
    cases takes
    rfl

theorem Pieces.disciplined (opens : opening s <+: start) : Disciplined s live (start :: pieces).flatten where
  tracked _ _ _ comes there := (made.fits comes there).2
  label _ _ _ _ comes there := by rw [(made.fits comes there).1.resolve_left blockLabel_ne_name]
  call _ _ _ comes there := (made.fits comes there).1
  ret pc l comes there := by
    have entered : l = .entered := (made.fits comes there).1
    rw [entered]
    rfl
  body _ := made.sheltered
  kept := made.kept
  pushed := opens.trans (prefix_append _ _)
  popped := made.mirrored

end Pieces

/-! ## What is generated -/

section Generated

variable {near : BlockMap VarSet} {p : Allocation.Progress} {depth : VarId → Nat}
  (result : Allocation.Result s.graph near s.allocation p depth)
include result

theorem tail_ending {t : Tail} (given : Gives (tail s t) w code w') :
    ∃ first last, code = first ++ last ∧ Flat s first ∧ Ending s last := by
  obtain ⟨first, last, rfl, computing, ending⟩ := tail_cases (homes_free result) given
  refine ⟨first, last, rfl, takes_computing computing (Int.le_refl _), ?_⟩
  rcases ending with rfl | ⟨branches, b, rfl, -⟩
  · rw [epilogue_eq]
    exact .returns (takes_closing result.saved)
  · exact .jumps branches b

theorem gives_pieces {bs : List BlockId}
    (small : ∀ b ∈ bs, ∀ q ∈ s.graph.body b, slotBytes * (q.op.args.length + 1) ≤ storageLimit)
    (given : Gives (blocks s (Liveness.problem s.graph) live bs) w code w') : ∃ pieces, code = pieces.flatten ∧
      List.Forall₂ (fun b piece => ∃ inner first last, Piece s live b piece inner first last) bs pieces := by
  have aligned : s.base.depth % stackAlignment = 0 := by
    have framed := result.aligned
    simp only [Site.base, slotBytes, stackAlignment, argumentBase] at framed ⊢
    omega
  induction bs generalizing w code with
  | nil =>
    rw [(gives_pure.1 given).1]
    exact ⟨[], rfl, .nil⟩
  | cons b rest ih =>
    simp only [blocks, block, gives_bind, gives_ofExcept, gives_pure] at given
    obtain ⟨_, _, ⟨points, _, ⟨pointed, rfl⟩, inner, _, here, _, _, ends, rfl, rfl⟩, others, _, later, rfl,
      rfl⟩ := given
    obtain ⟨one, all⟩ := forall_mem_cons.1 small
    obtain ⟨first, last, rfl, flat, ending⟩ := tail_ending result ends
    obtain ⟨pieces, rfl, more⟩ := ih all later
    exact ⟨_ :: pieces, rfl, .cons ⟨inner, first, last, rfl, ⟨points, _, _, pointed, here⟩,
      takes_body (Int.le_refl _) (homes_free result) aligned one here, flat, ending⟩ more⟩

theorem code_disciplined
    (small : ∀ b ∈ s.graph.layout, ∀ q ∈ s.graph.body b, slotBytes * (q.op.args.length + 1) ≤ storageLimit)
    (given : Gives (Lowering.code s live) w code w') : Disciplined s live code := by
  simp only [Lowering.code, gives_bind, gives_ofExcept, gives_pure] at given
  obtain ⟨_, _, ⟨started, rfl⟩, _, _, here, rfl, rfl⟩ := given
  obtain ⟨params, rfl, computing⟩ := prologue_eq (homes_free result) started
  obtain ⟨pieces, rfl, blocks⟩ := gives_pieces result small here
  obtain ⟨rest, opens, takes⟩ : ∃ rest, opening s = .label s.graph.name :: rest ∧
      Takes s.allocation.calleeSaved slotBytes .entered rest s.base :=
    takes_opening (Nat.le_trans (Nat.le_of_lt result.frame_lt) (by decide))
  have straight := takes.append (takes_computing computing (Level.le_push le_framed _))
  have prefixed (entry : List Inst) : opening s <+: opening s ++ params ++ entry :=
    ⟨params ++ entry, (append_assoc ..).symm⟩
  refine Pieces.disciplined
    ⟨⟨rest ++ params, _, by rw [opens, cons_append, cons_append], straight, ?_⟩, blocks⟩ (prefixed _)
  split
  next head =>
    refine .inr ⟨rfl, fun none => ?_⟩
    rw [none, forall₂_nil_right_iff] at blocks
    simp [blocks] at head
  · exact .inl rfl

end Generated

end Blocks

end Quadcode.Lowering

namespace Quadcode

open X86 Lowering List Inst

/-- The code of a function whose argument lists fit into memory balances the stack: its depth is the same at every
block, aligned at calls, and back to the return address where the function returns. Every list that a program can
have is `addressable`: nothing in memory is longer than `storageLimit` bytes, and an argument takes up more than a slot
there. -/
theorem lower_disciplined {g : Graph} {live : Solution VarSet} {loops : Loops} {a : Allocation} {w w' : Literals}
    {routine : Routine} (normal : g.Normal) (solved : g.liveness = .ok live) (allocated : allocate g live loops = .ok a)
    (addressable : ∀ b ∈ g.layout, ∀ q ∈ g.body b, slotBytes * (q.op.args.length + 1) ≤ storageLimit)
    (given : Gives (lower g a live) w routine w') : Disciplined ⟨g, a⟩ live routine.code := by
  obtain ⟨p, depth, result⟩ := allocate_result normal.toLinked solved allocated
  simp only [lower, gives_bind, gives_pure] at given
  obtain ⟨code, _, made, rfl, -⟩ := given
  exact code_disciplined result addressable made

/-- Counts down with an integer and a float that are read after the call. The variables `n`, `m`, `x` and `r` are
0 to 3. -/
def weighing : Function where
  name := "weighing"
  vars := #[.declare "n" .int .param, .declare "m" .int .local, .declare "x" .float .local, .declare "r" .int .local]
  params := [0]
  quads := [
    ⟨some 1, .binOp .sub (.var 0) (.const (.int 1))⟩,
    ⟨some 2, .unOp .intToFloat (.var 0)⟩,
    .effect (.jumpIf .le (.var 0) (.const (.int 0)) "done"),
    ⟨some 3, .call "weighing" [.var 1]⟩,
    .effect (.print (.var 2)),
    ⟨some 3, .binOp .add (.var 3) (.var 1)⟩,
    .effect (.ret (some (.var 3))),
    .effect (.label "done"),
    .effect (.ret (some (.var 1)))]

/-- An integer and a float are saved around the first call, which needs padding, and there are two epilogues. -/
theorem weighing_disciplined : ∃ live a routine w, weighing.graph.Normal ∧ weighing.graph.place = .ok (live, a) ∧
    Gives (lower weighing.graph a live) {} routine w ∧ a.calleeSaved = [.rbx] ∧ routine.code.count .ret = 2 ∧
    Disciplined ⟨weighing.graph, a⟩ live routine.code := by
  have normal := weighing.graph_normal rfl (by decide)
  have succeeds : (outcome weighing.graph.lower {}).1.toOption.map (fun r => (r.calleeSaved, r.code.count .ret)) =
      some ([.rbx], 2) := by decide +kernel
  obtain ⟨live, loops, a, routine, w, solved, allocated, placed, -, lowered, shown⟩ := Graph.lower_parts succeeds
  obtain ⟨saved, counted⟩ := Prod.mk.inj shown
  have same : routine.calleeSaved = a.calleeSaved := by
    simp only [lower, gives_bind, gives_pure] at lowered
    obtain ⟨code, _, -, rfl, -⟩ := lowered
    rfl
  exact ⟨live, a, routine, w, normal, placed, lowered, same ▸ saved, counted,
    lower_disciplined normal solved allocated (by decide +kernel) lowered⟩

end Quadcode
