import Quadcode.Proofs.Eval.Alike
import Quadcode.Proofs.Graph.Normal

/-!
# The code of an edited graph

What the bodies and tails of a graph are after some of them have been replaced.
-/

namespace Quadcode.Graph

open List

variable {g h : Graph} {b c : BlockId}

/-! ## One block after the other -/

/-- The blocks of `done` have been made anew and the others have not. -/
structure Reworked (made : BlockId → Block → Block → Prop) (g : Graph) (done : List BlockId) (h : Graph) : Prop where
  alike : g.Alike h
  entry : h.entry = g.entry
  layout : h.layout = g.layout
  size : h.blocks.size = g.blocks.size
  others : ∀ b, b ∉ done → h.block b = g.block b
  blocks : ∀ b ∈ done, made b (g.block b) (h.block b)

namespace Reworked

variable {made : BlockId → Block → Block → Prop} {done : List BlockId}

theorem refl (made : BlockId → Block → Block → Prop) (g : Graph) : g.Reworked made [] g :=
  ⟨.refl g, rfl, rfl, rfl, fun _ _ => rfl, fun _ member => by cases member⟩

/-- One block more. -/
theorem modifyBlock (before : g.Reworked made done h) {f : Block → Block} (inside : b < g.blocks.size)
    (fresh : b ∉ done) (new : made b (g.block b) (f (g.block b))) :
    g.Reworked made (done ++ [b]) (h.modifyBlock b f) where
  alike := ⟨before.alike.vars, before.alike.params, before.alike.name⟩
  entry := before.entry
  layout := before.layout
  size := modifyBlock_size.trans before.size
  others c outside := by
    obtain ⟨earlier, other⟩ := not_or.1 (mt mem_append.2 outside)
    rw [modifyBlock_of_ne fun same => other (mem_singleton.2 same.symm), before.others c earlier]
  blocks c member := by
    rw [modifyBlock_block _ _ _ _ (before.size ▸ inside)]
    split
    next same =>
      subst same
      rw [before.others b fresh]
      exact new
    next other =>
      refine before.blocks c ((mem_append.1 member).resolve_right fun last => other ?_)
      exact (mem_singleton.1 last).symm

end Reworked

/-- A block of the layout has not been visited before. -/
theorem Linked.fresh (linked : g.Linked) {done rest : List BlockId} (split : g.layout = done ++ b :: rest) :
    b ∈ g.layout ∧ b ∉ done := by
  have distinct := linked.layout_nodup
  rw [split] at distinct ⊢
  exact ⟨by simp, fun earlier => (nodup_append.1 distinct).2.2 b earlier b (by simp) rfl⟩

@[simp]
theorem setBody_size {body : List Quad} : (g.setBody b body).blocks.size = g.blocks.size := modifyBlock_size

variable {tail : Tail} {bs : List BlockId}

@[simp]
theorem setTail_size : (g.setTail b tail).blocks.size = g.blocks.size := modifyBlock_size

theorem setTail_tail (inside : b < g.blocks.size) (c : BlockId) :
    (g.setTail b tail).tail c = if b = c then tail else g.tail c := by
  rw [setTail, Graph.tail, modifyBlock_block g b c _ inside]
  split <;> rfl

@[simp]
theorem setTail_body (c : BlockId) : (g.setTail b tail).body c = g.body c :=
  modifyBlock_keeps Block.body (f := ({ · with tail })) rfl c

/-- The bodies after some have been replaced. -/
theorem foldl_setBody_body (edit : BlockId → List Quad → List Quad) (distinct : bs.Nodup)
    (inside : ∀ b ∈ bs, b < g.blocks.size) (c : BlockId) :
    (bs.foldl (fun g b => g.setBody b (edit b (g.body b))) g).body c =
      if c ∈ bs then edit c (g.body c) else g.body c := by
  induction bs generalizing g with
  | nil => rfl
  | cons b rest ih =>
    obtain ⟨first, distinct⟩ := nodup_cons.1 distinct
    have inside_b := inside b mem_cons_self
    rw [foldl_cons, ih distinct fun d later => by
        rw [setBody_size]
        exact inside d (mem_cons_of_mem b later),
      setBody_body inside_b]
    by_cases same : b = c
    · subst same
      simp [first]
    · simp [same, Ne.symm same]

theorem foldl_setBody_tail (edit : BlockId → List Quad → List Quad) (bs : List BlockId) (c : BlockId) :
    (bs.foldl (fun g b => g.setBody b (edit b (g.body b))) g).tail c = g.tail c :=
  List.foldlRecOn (motive := fun h : Graph => h.tail c = g.tail c) _ _ rfl fun _ before _ _ =>
    (setBody_tail c).trans before

/-- The tails after some have been replaced. -/
theorem foldl_setTail_tail (edit : BlockId → Tail → Tail) (distinct : bs.Nodup) (inside : ∀ b ∈ bs, b < g.blocks.size)
    (c : BlockId) :
    (bs.foldl (fun g b => g.setTail b (edit b (g.tail b))) g).tail c =
      if c ∈ bs then edit c (g.tail c) else g.tail c := by
  induction bs generalizing g with
  | nil => rfl
  | cons b rest ih =>
    obtain ⟨first, distinct⟩ := nodup_cons.1 distinct
    have inside_b := inside b mem_cons_self
    rw [foldl_cons, ih distinct fun d later => by
        rw [setTail_size]
        exact inside d (mem_cons_of_mem b later),
      setTail_tail inside_b]
    by_cases same : b = c
    · subst same
      simp [first]
    · simp [same, Ne.symm same]

/-- The code after some tails have been replaced. -/
structure SameBodies (g h : Graph) : Prop where
  alike : g.Alike h
  layout : h.layout = g.layout
  entry : h.entry = g.entry
  size : h.blocks.size = g.blocks.size
  body : ∀ b, h.body b = g.body b
  preds : ∀ b, h.preds b = g.preds b

theorem SameBodies.refl (g : Graph) : g.SameBodies g := ⟨.refl g, rfl, rfl, rfl, fun _ => rfl, fun _ => rfl⟩

theorem SameBodies.setTail (same : g.SameBodies h) (b : BlockId) (tail : Tail) : g.SameBodies (h.setTail b tail) where
  alike := ⟨same.alike.vars, same.alike.params, same.alike.name⟩
  layout := same.layout
  entry := same.entry
  size := setTail_size.trans same.size
  body c := (setTail_body c).trans (same.body c)
  preds c := (modifyBlock_keeps Block.preds (f := ({ · with tail })) rfl c).trans (same.preds c)

/-- Control stays among blocks that lead to such blocks only. -/
theorem among_of_reaches {among : BlockId → Prop} (start : among g.entry)
    (closed : ∀ b, among b → ∀ c ∈ g.targets b, among c) (reached : g.Reaches g.entry b) : among b := by
  induction reached with
  | refl => exact start
  | tail _ edge ih => exact closed _ ih _ edge

/-- The blocks of the layout lead to such blocks only. -/
structure Closed (g : Graph) : Prop where
  entry_mem : g.entry ∈ g.layout
  target_mem : ∀ b ∈ g.layout, ∀ c ∈ g.targets b, c ∈ g.layout
  lt_size : ∀ b ∈ g.layout, b < g.blocks.size
  nodup : g.layout.Nodup

theorem Linked.closed (linked : g.Linked) : g.Closed :=
  ⟨linked.entry_mem, fun _ laid _ => linked.target_mem laid, fun _ => linked.lt_size, linked.layout_nodup⟩

theorem Closed.relink_linked (closed : g.Closed) : g.relink.Linked ∧ ∀ b ∈ g.relink.layout, b ∈ g.layout := by
  have inside : g.Inside := fun b reached =>
    closed.lt_size b (among_of_reaches closed.entry_mem closed.target_mem reached)
  exact ⟨inside.relink_linked closed.nodup, fun b live =>
    among_of_reaches closed.entry_mem closed.target_mem (inside.mem_liveLayout.1 live)⟩

theorem Closed.setTail (closed : g.Closed) (inside : b < g.blocks.size) (targets : ∀ c ∈ tail.targets, c ∈ g.layout) :
    (g.setTail b tail).Closed where
  entry_mem := closed.entry_mem
  target_mem c laid d edge := by
    rw [Graph.targets, setTail_tail inside] at edge
    split at edge
    · exact targets d edge
    · exact closed.target_mem c laid d edge
  lt_size c laid := setTail_size.symm ▸ closed.lt_size c laid
  nodup := closed.nodup

/-! ## Ways into a loop -/

section Loops

variable {l : Loop}

theorem retarget_of_not_mem {old new : BlockId} (elsewhere : old ∉ tail.targets) : tail.retarget old new = tail := by
  cases tail with
  | ret => rfl
  | _ => simp_all [Tail.retarget, Tail.mapTargets, Tail.targets, Tail.successors, eq_comm (a := old)]

theorem mem_outsidePreds (linked : g.Linked) (loop : l.header ∈ g.layout) {p : BlockId} :
    p ∈ l.outsidePreds g ↔ p ∈ g.layout ∧ l.header ∈ g.targets p ∧ p ∉ l.blocks := by
  rw [Loop.outsidePreds, mem_filter, linked.mem_preds _ loop]
  simp [Loop.contains, and_assoc]

/-- A new block through which a loop is entered from outside. -/
structure Entered (g h : Graph) (l : Loop) (x : Block) : Prop where
  alike : g.Alike h
  size : h.blocks.size = g.blocks.size + 1
  body : ∀ b, h.body b = if b = g.blocks.size then x.body else g.body b
  tail : ∀ b, h.tail b = if b = g.blocks.size then x.tail
    else if b ∈ l.outsidePreds g then (g.tail b).retarget l.header g.blocks.size else g.tail b
  entry : h.entry = if g.entry = l.header then g.blocks.size else g.entry
  layout : h.layout.Perm (g.blocks.size :: g.layout)

theorem entered_addBlock (linked : g.Linked) (loop : l.header ∈ g.layout) (x : Block) :
    g.Entered ((g.addBlock x).2.enterThrough l g.blocks.size) l x := by
  have block (b : BlockId) : (g.addBlock x).2.block b = if b = g.blocks.size then x else g.block b := by
    split
    next same => rw [same, Draft.addBlock_self]
    next other => exact Draft.addBlock_of_ne other
  have size : (g.addBlock x).2.blocks.size = g.blocks.size + 1 := Array.size_push x
  have bound := linked.lt_size loop
  have outside : l.outsidePreds (g.addBlock x).2 = l.outsidePreds g := by
    unfold Loop.outsidePreds preds
    rw [block, if_neg (Nat.ne_of_lt bound)]
  have old {p : BlockId} (member : p ∈ l.outsidePreds g) : p < g.blocks.size :=
    linked.lt_size ((mem_outsidePreds linked loop).1 member).1
  -- The tails of the blocks before the loop change, and nothing else.
  have same : (g.addBlock x).2.SameBodies ((l.outsidePreds (g.addBlock x).2).foldl
      (fun g' p => g'.setTail p ((g'.tail p).retarget l.header g.blocks.size)) (g.addBlock x).2) :=
    List.foldlRecOn (motive := (g.addBlock x).2.SameBodies) _ _ (.refl _) fun _ before p _ => before.setTail p _
  have distinct : (l.outsidePreds (g.addBlock x).2).Nodup := outside ▸ (linked.preds_nodup _ loop).filter _
  have tail (b : BlockId) := foldl_setTail_tail (g := (g.addBlock x).2)
    (fun _ tail => tail.retarget l.header g.blocks.size) distinct
    (fun p member => size ▸ Nat.lt_succ_of_lt (old (outside ▸ member))) b
  refine ⟨⟨same.alike.vars, same.alike.params, same.alike.name⟩, same.size.trans size, fun b => ?_, fun b => ?_, ?_, ?_⟩
  · refine (same.body b).trans ?_
    rw [Graph.body, block]
    split <;> rfl
  · refine (tail b).trans ?_
    rw [outside, Graph.tail, block]
    split
    next member =>
      rw [if_neg (Nat.ne_of_lt (old member)), if_neg (Nat.ne_of_lt (old member)), Graph.tail]
    · split <;> rfl
  · unfold enterThrough
    simp only [same.entry]
    rfl
  · unfold enterThrough
    simp only [same.layout]
    exact perm_insertIdx _ _ (place_le _ _)

theorem entered_insertPreheader (linked : g.Linked) (loop : l.header ∈ g.layout) (s : Supply) :
    (g.insertPreheader l s).1 = g.blocks.size ∧ ∃ x : Block, g.Entered (g.insertPreheader l s).2.1 l x ∧
      x.body = [] ∧ x.tail = .jump l.header :=
  ⟨rfl, _, entered_addBlock linked loop { (Block.fresh s).1 with tail := .jump l.header }, rfl, rfl⟩

/-- The new block leads to old ones, so control stays among these and the new one. -/
theorem Entered.closed {x : Block} (entered : g.Entered h l x) (linked : g.Linked)
    (leads : ∀ c ∈ x.tail.targets, c ∈ g.layout) : h.Closed := by
  have mem {b : BlockId} : b ∈ h.layout ↔ b = g.blocks.size ∨ b ∈ g.layout := by
    rw [entered.layout.mem_iff, mem_cons]
  refine ⟨?_, fun b laid c edge => ?_, fun b laid => ?_, ?_⟩
  · rw [mem, entered.entry]
    split
    · exact .inl rfl
    · exact .inr linked.entry_mem
  · rw [targets, entered.tail] at edge
    rw [mem]
    split at edge
    · exact .inr (leads c edge)
    next old =>
      have laid := (mem.1 laid).resolve_left old
      split at edge
      · exact (Tail.mem_targets_retarget edge).imp_right (linked.target_mem laid)
      · exact .inr (linked.target_mem laid edge)
  · rw [entered.size]
    rcases mem.1 laid with rfl | old
    · exact Nat.lt_succ_self _
    · exact Nat.lt_succ_of_lt (linked.lt_size old)
  · refine entered.layout.nodup_iff.2 (nodup_cons.2 ⟨fun member => ?_, linked.layout_nodup⟩)
    exact Nat.lt_irrefl _ (linked.lt_size member)

end Loops

/-! ## Assignments -/

section Assignments

variable {v : VarId} {i j : Nat} {q r : Quad}

theorem assignments_getElem? (g : Graph) (bs : List BlockId) (v : VarId) : (g.assignments bs)[v]? =
      let n := (bs.flatMap g.body).countP (·.result = some v)
      if n = 0 then none else some n := by
  have loop (add : Std.ExtTreeMap VarId Nat → Quad → Std.ExtTreeMap VarId Nat)
      (adds : ∀ m q, (add m q)[v]? = if q.result = some v then some (m[v]?.getD 0 + 1) else m[v]?)
      (qs : List Quad) (m : Std.ExtTreeMap VarId Nat) : (qs.foldl add m)[v]? = let n := qs.countP (·.result = some v)
        if n = 0 then m[v]? else some (m[v]?.getD 0 + n) := by
    induction qs generalizing m with
    | nil => rfl
    | cons q rest ih =>
      rw [foldl_cons, ih, countP_cons, adds]
      by_cases result : q.result = some v
      · by_cases last : rest.countP (·.result = some v) = 0
        · simp [result, last]
        · simp [result, last, Nat.add_assoc, Nat.add_comm 1]
      · simp [result]
  refine (loop _ (fun m q => ?_) (bs.flatMap g.body) ∅).trans ?_
  · cases result : q.result with
    | none => simp
    | some u =>
      by_cases same : u = v
      · simp [same]
      · simp [same, Std.ExtTreeMap.getElem?_insert]
  · simp

theorem result_ne_of_unassigned (unassigned : (g.assignments bs)[v]? = none) (member : b ∈ bs) (listed : q ∈ g.body b) :
    q.result ≠ some v := by
  intro result
  have counted := assignments_getElem? g bs v
  rw [unassigned] at counted
  have some_q : 0 < (bs.flatMap g.body).countP (·.result = some v) :=
    countP_pos_iff.2 ⟨q, mem_flatMap.2 ⟨b, member, listed⟩, by simpa using result⟩
  simp only [if_neg (Nat.ne_of_gt some_q)] at counted
  cases counted

/-- There is only one place where a variable is assigned that is assigned once. -/
theorem eq_of_assigned_once (once : (g.assignments bs)[v]? = some 1) (member : b ∈ bs) (here : (g.body b)[i]? = some q)
    (result : q.result = some v) (member' : c ∈ bs) (there : (g.body c)[j]? = some r) (result' : r.result = some v) :
    c = b ∧ j = i := by
  have counted : (bs.flatMap g.body).countP (·.result = some v) = 1 := by
    have counted := assignments_getElem? g bs v
    rw [once] at counted
    dsimp only at counted
    split at counted
    · cases counted
    · exact (Option.some.inj counted).symm
  -- The code before the place and behind it assigns something else.
  obtain ⟨before, after, rfl⟩ := append_of_mem member
  obtain ⟨within, rfl⟩ := List.getElem?_eq_some_iff.1 here
  have split := take_append_drop i (g.body b)
  rw [drop_eq_getElem_cons within] at split
  rw [flatMap_append, flatMap_cons, countP_append, countP_append, ← split,
    countP_append, countP_cons, if_pos (by simpa using result)] at counted
  have none (qs : List Quad) (clear : qs.countP (·.result = some v) = 0) (listed : r ∈ qs) : False :=
    countP_eq_zero.1 clear r listed (by simpa using result')
  obtain ⟨within', rfl⟩ := List.getElem?_eq_some_iff.1 there
  have listed := getElem_mem within'
  rcases mem_append.1 member' with early | late
  · exact (none _ (by omega) (mem_flatMap.2 ⟨c, early, listed⟩)).elim
  · rcases mem_cons.1 late with rfl | late
    · refine ⟨rfl, ?_⟩
      rcases Nat.lt_trichotomy j i with less | same | more
      · refine (none ((g.body c).take i) (by omega) ?_).elim
        exact mem_take_iff_getElem.2 ⟨j, by omega, rfl⟩
      · exact same
      · refine (none ((g.body c).drop (i + 1)) (by omega) ?_).elim
        exact mem_drop_iff_getElem.2 ⟨j - (i + 1), by omega, by congr; omega⟩
    · exact (none _ (by omega) (mem_flatMap.2 ⟨c, late, listed⟩)).elim

end Assignments

end Quadcode.Graph
