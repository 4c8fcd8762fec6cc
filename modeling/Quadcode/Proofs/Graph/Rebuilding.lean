import Quadcode.Proofs.Graph.Flattening
import Quadcode.Proofs.Graph.Meaning

/-!
# Functions rebuilt from their flat form

Control comes to every place of the flat form of a function, so each segment of it becomes a block
that stays in the layout. The rebuilt function has the quadruples of the old one, in the same order.
-/

namespace Quadcode

open List Segment Tail Build

variable {labels : List Label} {h : Graph} {code back : List Quad} {b : BlockId} {f : Function} {t : Tail} {q : Quad}

namespace Function

variable {r : Quad} {more : List Segment} {rest : List Quad} {s : Segment} {l : Label}

/-- The block that a rest of the code starts in. -/
def blockAt (f : Function) (code : List Quad) : BlockId :=
  f.segments.length - (split code).length

/-- The block is the segment that the rest starts with, from where it starts on. -/
theorem exists_segment (suffix : code <:+ f.quads) (first : split code = s :: more) :
    ∃ heads t, f.segments = heads ++ t :: more ∧ t.stop = s.stop ∧ heads.length = f.blockAt code := by
  obtain ⟨front, whole⟩ := suffix
  have nonempty : f.quads ≠ [] := by
    rintro empty
    rw [empty, append_eq_nil_iff] at whole
    simp [whole.2, split] at first
  obtain ⟨heads, t, split, stop⟩ := split_append_stop front first
  rw [whole, ← Function.segments_eq nonempty] at split
  refine ⟨heads, t, split, stop, ?_⟩
  rw [blockAt, split, first, length_append, length_cons, length_cons]
  omega

/-- The tail of that block. -/
theorem tail_blockAt (renders : h.Renders f labels) (suffix : code <:+ f.quads) (first : split code = s :: more) :
    tail f labels (after f more) s.stop = .ok (h.tail (f.blockAt code)) := by
  obtain ⟨heads, t, whole, stop, index⟩ := exists_segment suffix first
  rw [← stop, ← index]
  exact (renders.block heads t more whole.symm).2

/-! ## Where control goes in the rebuilt function -/

theorem following_mem {stop : Option Op} (runs_on : ∀ op ∈ stop, op.isFinal = false)
    (ended : tail f labels (some b) stop = .ok t) : b ∈ t.targets := by
  unfold Build.tail at ended
  split at ended
  all_goals simp only [bind_eq_ok, pure_eq_ok] at ended
  · cases runs_on _ rfl
  · obtain ⟨_, -, _, next, rfl⟩ := ended
    cases next
    simp [targets, successors]
  · obtain ⟨_, next, _, -, rfl⟩ := ended
    cases next
    simp [targets, successors]
  · cases runs_on _ rfl
  · subst ended
    simp [targets, successors]

/-- Control runs on from a quadruple to the next one. -/
theorem runs_on (renders : h.Renders f labels) (suffix : q :: code <:+ f.quads) (more : code ≠ [])
    (passes : q.op.isFinal = false) :
    f.blockAt code = f.blockAt (q :: code) ∨ f.blockAt code ∈ h.targets (f.blockAt (q :: code)) := by
  have following : after f (split code) = some (f.blockAt code) := by
    rw [Build.after, if_neg]
    · rfl
    · simpa using split_ne_nil more
  rcases cons_cases q (split code) with
    ⟨s, eq, -, stop⟩ | ⟨s, t, others, eq, -, eq', -⟩
  · have ended := tail_blockAt renders suffix ((split_cons q code).trans eq)
    rw [following, stop] at ended
    refine .inr (following_mem (fun op leaving => ?_) ended)
    rw [← Op.eq_of_leaving leaving]
    exact passes
  · rw [blockAt, blockAt, split_cons, eq', eq]
    exact .inl rfl

/-- Control jumps to where the label stands. -/
theorem jumps (renders : h.Renders f labels) (suffix : q :: code <:+ f.quads) (target : q.op.target? = some l)
    (there : r :: rest <:+ f.quads) (label : r.op = .label l) :
    f.blockAt (r :: rest) ∈ h.targets (f.blockAt (q :: code)) := by
  have leaving : q.op.leaving? = some q.op := by
    revert target
    cases q.op <;> simp [Op.target?, Op.leaving?]
  have first := (split_cons q code).trans (cons_leaving leaving (split code))
  obtain ⟨b, edge, resolved⟩ := resolve_of_tail target (tail_blockAt renders suffix first)
  obtain ⟨-, same⟩ := block_of_label renders resolved there label
  have same : f.blockAt (r :: rest) = b := same
  rw [same]
  exact edge

/-- Control comes to the block that a rest of the code starts in. -/
def Reached (f : Function) (h : Graph) (code : List Quad) : Prop := h.Reaches h.entry (f.blockAt code)

theorem Reached.walk (renders : h.Renders f labels) {front : List Quad} (suffix : front ++ back <:+ f.quads)
    (more : back ≠ []) (passes : ∀ q ∈ front, q.op.isFinal = false) (reached : f.Reached h (front ++ back)) :
    f.Reached h back := by
  induction front with
  | nil => exact reached
  | cons q front ih =>
    rw [cons_append] at suffix reached
    refine ih ((suffix_cons q _).trans suffix) (fun r later => passes r (mem_cons_of_mem q later)) ?_
    rcases runs_on renders suffix (by simp [more]) (passes q mem_cons_self) with same | edge
    · rw [Reached, same]
      exact reached
    · exact reached.tail edge

theorem Reached.jump (renders : h.Renders f labels) (suffix : q :: code <:+ f.quads) (target : q.op.target? = some l)
    (there : r :: rest <:+ f.quads) (label : r.op = .label l) (reached : f.Reached h (q :: code)) :
    f.Reached h (r :: rest) :=
  reached.tail (jumps renders suffix target there label)

end Function

namespace Graph

variable {more : List BlockId} {g : Graph} {c : BlockId} {s s' : Supply}

/-- What follows an item of a list without repetition is determined. -/
theorem suffix_unique {layout more' : List BlockId} (nodup : layout.Nodup) (first : b :: more <:+ layout)
    (second : b :: more' <:+ layout) : more = more' := by
  have absent {l l' : List BlockId} (inside : b :: l' <:+ layout) (later : b :: l <:+ l') : False :=
    (nodup_cons.1 (inside.sublist.nodup nodup)).1 (later.subset mem_cons_self)
  rcases suffix_or_suffix_of_suffix first second with early | early
  · rcases suffix_cons_iff.1 early with same | later
    · exact (List.cons.inj same).2
    · exact (absent second later).elim
  · rcases suffix_cons_iff.1 early with same | later
    · exact (List.cons.inj same).2.symm
    · exact (absent first later).elim

/-- A rest of the code starts inside the code of a block. -/
theorem exists_block {bs : List BlockId} (suffix : back <:+ g.linearFrom bs) (nonempty : back ≠ []) :
    ∃ b more front rest, b :: more <:+ bs ∧ g.blockCode more.head? b = front ++ rest ∧ rest ≠ [] ∧
      back = rest ++ g.linearFrom more := by
  induction bs with
  | nil => exact absurd (suffix_nil.1 suffix) nonempty
  | cons b bs ih =>
    have later (suffix : back <:+ g.linearFrom bs) : ∃ c more front rest, c :: more <:+ b :: bs ∧
        g.blockCode more.head? c = front ++ rest ∧ rest ≠ [] ∧ back = rest ++ g.linearFrom more := by
      obtain ⟨c, more, front, rest, place, cut⟩ := ih suffix
      exact ⟨c, more, front, rest, place.trans (suffix_cons b bs), cut⟩
    obtain ⟨front, whole⟩ := suffix
    rw [linearFrom_cons] at whole
    -- The cut falls inside the code of `b`, or behind it.
    rcases append_eq_append_iff.1 whole with ⟨rest, cut, eq⟩ | ⟨rest, -, eq⟩
    · by_cases empty : rest = []
      · subst empty
        exact later (by rw [eq]; exact suffix_rfl)
      · exact ⟨b, bs, front, rest, suffix_rfl, cut, empty, eq⟩
    · exact later ⟨rest, eq.symm⟩

/-- The blocks that follow a block, itself first. -/
theorem exists_suffix (member : b ∈ g.layout) : ∃ more, b :: more <:+ g.layout := by
  obtain ⟨front, more, whole⟩ := append_of_mem member
  exact ⟨more, front, whole.symm⟩

theorem code_suffix (place : more <:+ g.layout) : g.linearFrom more <:+ g.toFunction.quads := by
  obtain ⟨front, whole⟩ := place
  change _ <:+ g.linearFrom g.layout
  rw [← whole]
  exact linearFrom_suffix front more

/-- Code follows wherever no jump is needed. -/
theorem goto_ne_nil : tailQuads.goto g more.head? c ++ g.linearFrom more ≠ [] := by
  rw [tailQuads.goto]
  split
  next follows =>
    cases more with
    | nil => cases follows
    | cons d rest => simp [linearFrom_cons, blockCode]
  · simp

theorem head?_eq_some (follows : some c = more.head?) : ∃ rest, more = c :: rest := by
  cases more with
  | nil => cases follows
  | cons d rest => exact ⟨rest, by rw [Option.some.inj follows]⟩

/-- Control of a rebuilt function comes to where the code of an old block starts. -/
def Regains (g h : Graph) (c : BlockId) : Prop :=
  ∃ rest, c :: rest <:+ g.layout ∧ g.toFunction.Reached h (g.linearFrom (c :: rest))

namespace Renders

variable (renders : h.Renders g.toFunction labels)
include renders

theorem regains_jump (suffix : q :: code <:+ g.toFunction.quads) (reached : g.toFunction.Reached h (q :: code))
    (target : q.op.target? = some (g.label c)) (member : c ∈ g.layout) : g.Regains h c := by
  obtain ⟨rest, place⟩ := exists_suffix member
  exact ⟨rest, place, reached.jump renders suffix target (code_suffix place) rfl⟩

theorem regains_goto (place : b :: more <:+ g.layout)
    (suffix : tailQuads.goto g more.head? c ++ g.linearFrom more <:+ g.toFunction.quads)
    (reached : g.toFunction.Reached h (tailQuads.goto g more.head? c ++ g.linearFrom more)) (member : c ∈ g.layout) :
    g.Regains h c := by
  rw [tailQuads.goto] at suffix reached
  split at reached
  next follows =>
    obtain ⟨rest, rfl⟩ := head?_eq_some follows
    exact ⟨rest, (suffix_cons b _).trans place, reached⟩
  next other =>
    rw [if_neg other] at suffix
    exact renders.regains_jump suffix reached rfl member

/-- Control comes to every block that a tail leads to. -/
theorem regains_target (place : b :: more <:+ g.layout)
    (suffix : g.tailQuads more.head? t ++ g.linearFrom more <:+ g.toFunction.quads)
    (reached : g.tailQuads more.head? t ++ g.linearFrom more ≠ [] →
      g.toFunction.Reached h (g.tailQuads more.head? t ++ g.linearFrom more))
    (edge : c ∈ t.targets) (member : c ∈ g.layout) : g.Regains h c := by
  cases t with
  | jump d | fall d =>
    obtain rfl : c = d := by simpa [Tail.targets, Tail.successors] using edge
    exact renders.regains_goto place suffix (reached goto_ne_nil) member
  | branch k x y onTrue onFalse =>
    have either : c = onTrue ∨ c = onFalse := by simpa [Tail.targets, Tail.successors] using edge
    rw [tailQuads] at suffix reached
    split at suffix
    next follows =>
      rw [if_pos follows] at reached
      have reached := reached (by simp)
      rcases either with rfl | rfl
      · have code : tailQuads.goto g more.head? c ++ g.linearFrom more = g.linearFrom more := by
          rw [tailQuads.goto, if_pos follows, nil_append]
        have nonempty : g.linearFrom more ≠ [] := code ▸ goto_ne_nil
        refine renders.regains_goto place ?_ ?_ member <;> rw [code]
        · exact (suffix_append _ _).trans suffix
        · exact reached.walk renders suffix nonempty (by simp [Quad.effect, Op.isFinal])
      · exact renders.regains_jump suffix reached rfl member
    next other =>
      rw [if_neg other] at reached
      have reached := reached (by simp)
      rcases either with rfl | rfl
      · exact renders.regains_jump suffix reached rfl member
      · refine renders.regains_goto place ((suffix_cons _ _).trans suffix) ?_ member
        rw [← singleton_append, append_assoc] at suffix reached
        exact reached.walk renders suffix goto_ne_nil (by simp [Quad.effect, Op.isFinal])
  | ret x => cases edge

end Renders

theorem Orderly.layout_eq (orderly : g.Orderly s) : ∃ rest, g.layout = g.entry :: rest :=
  head?_eq_some orderly.entry_first.symm

namespace Orderly

variable (orderly : g.Orderly s) (renders : h.Renders g.toFunction labels)
include orderly renders

theorem regains_entry : g.Regains h g.entry := by
  obtain ⟨rest, layout⟩ := orderly.layout_eq
  refine ⟨rest, layout ▸ suffix_rfl, ?_⟩
  have start : g.toFunction.blockAt (g.linearFrom (g.entry :: rest)) = h.entry := by
    rw [← layout, renders.entry, Function.blockAt]
    change g.toFunction.segments.length - (split g.linearize).length = 0
    rw [orderly.segments_eq, Nat.sub_self]
  rw [Function.Reached, start]
  exact .refl

/-- Control comes back to every block of the old function. -/
theorem regains (path : g.Reaches g.entry c) : g.Regains h c := by
  induction path with
  | refl => exact orderly.regains_entry renders
  | @tail b c _ edge ih =>
    obtain ⟨more, place, reached⟩ := ih
    have member : b ∈ g.layout := place.subset mem_cons_self
    have whole := code_suffix place
    rw [linearFrom_cons, blockCode, append_assoc] at whole reached
    refine renders.regains_target place ((suffix_append _ _).trans whole) (fun nonempty => ?_)
      edge (orderly.target_mem member edge)
    refine reached.walk renders whole nonempty fun q inside => ?_
    rcases mem_cons.1 inside with rfl | body
    · rfl
    · exact Op.not_final_of_not_control (orderly.plain b member q body)

/-- Control comes to every place of the code. -/
theorem reached (suffix : code <:+ g.linearize) (nonempty : code ≠ []) : g.toFunction.Reached h code := by
  obtain ⟨b, more, front, rest, place, cut, remains, rfl⟩ := exists_block suffix nonempty
  have member : b ∈ g.layout := place.subset mem_cons_self
  obtain ⟨more', place', start⟩ := orderly.regains renders ((orderly.mem_layout b).1 member)
  -- The block stands in the layout once, so the code that control comes to is the code around here.
  obtain rfl := suffix_unique orderly.layout_nodup place place'
  have whole := code_suffix place
  rw [linearFrom_cons, cut, append_assoc] at whole start
  exact start.walk renders whole nonempty fun q early =>
    not_final_of_blockCode (orderly.plain b member) cut remains early

/-- Control comes to every block of the rebuilt function. -/
theorem reaches {k : Nat} (bound : k < g.toFunction.segments.length) : h.Reaches h.entry k := by
  rw [orderly.segments_eq] at bound
  have whole : split g.linearize = (split g.linearize).take k ++
      (split g.linearize)[k] :: (split g.linearize).drop (k + 1) := by
    rw [getElem_cons_drop, take_append_drop]
  obtain ⟨front, back, t, code, first⟩ := exists_split_of_mem whole
  have nonempty : back ≠ [] := by
    rintro rfl
    simp [split] at first
  have reached := orderly.reached renders ⟨front, code.symm⟩ nonempty
  have index : g.toFunction.blockAt back = k := by
    rw [Function.blockAt]
    change g.toFunction.segments.length - _ = k
    rw [orderly.segments_eq, first, length_cons, length_drop]
    omega
  exact index ▸ reached

end Orderly

/-! ## The quadruples of the rebuilt function -/

/-- Where control comes to every block, all of them stay in the layout. -/
theorem build_layout (built : build f s = .ok (h, s')) (all : ∀ k < f.segments.length, h.Reaches h.entry k) :
    h.layout = List.range f.segments.length := by
  have linked := build_linked built
  obtain ⟨bs, -, success, rfl, -⟩ := build_cases built
  have size := blocks_length success
  rw [relink_layout, Inside.liveLayout_eq]
  · rw [size]
  · intro b path
    rw [← relink_size]
    exact linked.inside b (by rwa [relink_reaches, relink_entry])
  · intro b
    rw [mem_range]
    refine ⟨fun bound => ?_, fun path => ?_⟩
    · simpa using all b (size ▸ bound)
    · have bound := linked.inside b (by rwa [relink_reaches, relink_entry])
      rw [relink_size] at bound
      simpa using bound

theorem Renders.bodies (renders : h.Renders f labels) (layout : h.layout = List.range f.segments.length)
    (nonempty : f.quads ≠ []) :
    h.bodies = f.quads.filter (!·.op.isControl) := by
  have body : (List.range f.segments.length).map h.body = f.segments.map (·.body) := by
    refine ext_getElem (by simp) fun k bound bound' => ?_
    rw [length_map] at bound'
    have whole : f.segments.take k ++ f.segments[k] :: f.segments.drop (k + 1) = f.segments := by
      rw [getElem_cons_drop, take_append_drop]
    have here := (renders.block _ _ _ whole).1
    rw [length_take_of_le (Nat.le_of_lt bound')] at here
    simpa using here
  rw [Graph.bodies, layout, ← flatMap_body_split, ← Function.segments_eq nonempty, flatMap_def, flatMap_def, body]

/-- The rebuilt function has the quadruples of the old one, in the same order. -/
theorem Orderly.filter_linearize (orderly : g.Orderly s) (built : build g.toFunction s = .ok (h, s')) :
    h.linearize.filter (!·.op.isControl) = g.bodies := by
  have renders := build_renders built
  have layout := build_layout built fun k bound => orderly.reaches renders bound
  have bodies : h.bodies = g.linearize.filter (!·.op.isControl) := renders.bodies layout orderly.linearize_ne_nil
  have plain : ∀ b ∈ h.layout, ∀ q ∈ h.body b, q.op.isControl = false := by
    intro b member q inside
    have listed : q ∈ h.bodies := mem_flatMap.2 ⟨b, member, inside⟩
    rw [bodies, mem_filter] at listed
    simpa using listed.2
  rw [linearize, filter_linearFrom plain]
  exact bodies.trans (filter_linearFrom orderly.plain)

end Graph

end Quadcode
