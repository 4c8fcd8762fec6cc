import Quadcode.Proofs.Graph.Built

/-!
# How flat code falls into blocks

Cutting code from the back, each quadruple starts a segment of its own or joins the first one. So the
segments of the rest of a function are segments of the whole, the first of them perhaps in part.
-/

namespace Quadcode

open List

variable {s : Segment} {more heads : List Segment} {l : Label} {op : Op} {f : Function} {k : Nat}

namespace Segment

variable {quads back : List Quad} {q : Quad} {segments : List Segment}

/-- A quadruple inside a block stands in front of what it runs on into. -/
theorem cons_other (other : q.op.isControl = false) (following : List Segment) :
    (cons q following = { body := [q] } :: following) ∨
      cons q following = { (continuing following).1 with body := q :: (continuing following).1.body } ::
        (continuing following).2 := by
  cases call : q.op.isCall with
  | true => exact .inl (cons_call call following)
  | false => exact .inr (cons_plain other call following)

/-- Code in front leaves the segments as they are if the first has a label. -/
theorem labelled_suffix_split_append (front : List Quad) (first : split back = s :: more) (label : s.label = some l) :
    s :: more <:+ split (front ++ back) := by
  induction front with
  | nil => exact first ▸ suffix_rfl
  | cons q front ih =>
    rw [cons_append, split_cons]
    rcases cons_cases q (split (front ++ back)) with
      ⟨t, eq, -⟩ | ⟨u, t, rest, whole, unlabelled, eq, -⟩
    · rw [eq]
      exact ih.trans (suffix_cons t _)
    · rw [whole] at ih
      rw [eq]
      rcases suffix_cons_iff.1 ih with same | later
      · cases same
        simp [label] at unlabelled
      · exact later.trans (suffix_cons t rest)

/-- Code in front may only lengthen the segment that it runs on into, and that keeps its stop. -/
theorem split_append_stop (front : List Quad) (first : split back = s :: more) :
    ∃ heads t, split (front ++ back) = heads ++ t :: more ∧ t.stop = s.stop := by
  induction front with
  | nil => exact ⟨[], s, first, rfl⟩
  | cons q front ih =>
    obtain ⟨heads, t, whole, stop⟩ := ih
    rw [cons_append, split_cons]
    rcases cons_cases q (split (front ++ back)) with
      ⟨u, eq, -⟩ | ⟨v, u, rest, split_eq, -, eq, -, kept, -⟩
    · exact ⟨u :: heads, t, by rw [eq, whole]; rfl, stop⟩
    · rw [split_eq] at whole
      cases heads with (obtain ⟨rfl, rfl⟩ := List.cons.inj whole)
      | nil =>
        exact ⟨[], u, eq, kept.trans stop⟩
      | cons h heads =>
        exact ⟨u :: heads, t, eq, stop⟩

/-- Every segment but the first of a rest of the code is a segment of the whole. -/
theorem tail_split_suffix {code : List Quad} (suffix : code <:+ f.quads) : (split code).tail <:+ f.segments := by
  cases first : split code with
  | nil => exact nil_suffix
  | cons s more =>
    obtain ⟨front, quads⟩ := suffix
    obtain ⟨heads, t, whole, -⟩ := split_append_stop front first
    have nonempty : f.quads ≠ [] := by
      rintro empty
      rw [empty, append_eq_nil_iff] at quads
      rw [quads.2] at first
      cases first
    rw [Function.segments_eq nonempty, ← quads, whole]
    exact ⟨heads ++ [t], by simp⟩

/-- Every segment is the first one of some rest of the code, if perhaps in part. -/
theorem exists_split_of_mem (whole : split quads = heads ++ s :: more) :
    ∃ front back t, quads = front ++ back ∧ split back = t :: more := by
  induction quads generalizing heads s with
  | nil => simp [split] at whole
  | cons q rest ih =>
    cases heads with
    | nil => exact ⟨[], q :: rest, s, rfl, whole⟩
    | cons h heads =>
      obtain ⟨u, heads', split_eq⟩ : ∃ u heads', split rest = heads' ++ u :: more := by
        rw [split_cons] at whole
        rcases cons_cases q (split rest) with ⟨u, eq, -⟩ | ⟨v, u, others, eq, -, eq', -⟩
        · rw [eq] at whole
          exact ⟨s, heads, (List.cons.inj whole).2⟩
        · rw [eq'] at whole
          exact ⟨s, v :: heads, by rw [eq, (List.cons.inj whole).2]; rfl⟩
      obtain ⟨front, back, t, rfl, first⟩ := ih split_eq
      exact ⟨q :: front, back, t, rfl, first⟩

/-- The segments hold the code but for its labels, jumps and returns. -/
theorem flatMap_body_split (quads : List Quad) : (split quads).flatMap (·.body) = quads.filter (!·.op.isControl) := by
  rw [split, flatMap_map, flatMap_def]
  exact filter_flatten.symm.trans (congrArg _ (flatten_splitBy ..))

/-! ## Labels and jumps of the segments -/

/-- The labels of the code are those of its segments. -/
theorem filterMap_label_split (quads : List Quad) :
    (split quads).filterMap (·.label) = quads.filterMap (·.op.label?) := by
  induction quads with
  | nil => rfl
  | cons q rest ih =>
    rw [split_cons, filterMap_cons, ← ih]
    rcases cons_cases q (split rest) with ⟨t, eq, own, -⟩ | ⟨u, t, more, whole, none, eq, own, -⟩
    · rw [eq, filterMap_cons, own]
    · rw [eq, filterMap_cons, own, whole, filterMap_cons_none none]

theorem filterMap_label_segments (f : Function) : f.segments.filterMap (·.label) = f.quads.filterMap (·.op.label?) := by
  by_cases empty : f.quads = []
  · rw [Function.segments_of_nil empty, empty]
    rfl
  · rw [Function.segments_eq empty, filterMap_label_split]

/-- A label of a segment stands in the code. -/
theorem exists_label (member : s ∈ f.segments) (label : s.label = some l) : ∃ q ∈ f.quads, q.op = .label l := by
  have listed : l ∈ f.quads.filterMap (·.op.label?) := by
    rw [← filterMap_label_segments]
    exact mem_filterMap.2 ⟨s, member, label⟩
  obtain ⟨q, found, eq⟩ := mem_filterMap.1 listed
  exact ⟨q, found, Op.label?_eq_some.1 eq⟩

/-- Every jump and return of the code ends a segment. -/
theorem exists_stop (member : q ∈ quads) (leaving : q.op.leaving? = some op) : ∃ s ∈ split quads, s.stop = some op := by
  rw [← flatten_splitBy Quad.together quads] at member
  obtain ⟨piece, inside, here⟩ := mem_flatten.1 member
  obtain ⟨front, back, rfl⟩ := append_of_mem here
  refine ⟨_, mem_map_of_mem inside, ?_⟩
  cases back with
  | nil => simp [ofPiece, leaving]
  | cons r back =>
    -- Nothing stands together with a jump or return before it.
    have chain := (isChain_append.1 (isChain_of_mem_splitBy inside)).2.1
    simp [Quad.together, (Op.of_leaving leaving).2.2] at chain

/-- What ends a segment is a jump or return of the code. -/
theorem exists_leaving (member : s ∈ split quads) (stop : s.stop = some op) : ∃ q ∈ quads, q.op.leaving? = some op := by
  obtain ⟨piece, inside, rfl⟩ := mem_map.1 member
  obtain ⟨q, last, leaving⟩ := Option.bind_eq_some_iff.1 stop
  refine ⟨q, ?_, leaving⟩
  rw [← flatten_splitBy Quad.together quads]
  exact mem_flatten.2 ⟨piece, inside, mem_of_getLast? last⟩

/-- The last segment ends as the code does. -/
theorem stop_of_last (whole : split quads = heads ++ [s]) : s.stop = quads.getLast?.bind (·.op.leaving?) := by
  obtain ⟨pieces, final, cut, -, last⟩ := map_eq_append_iff.1 whole
  obtain ⟨piece, rfl, rfl⟩ := map_eq_singleton_iff.1 last
  have nonempty : piece ≠ [] := ne_nil_of_mem_splitBy (cut ▸ mem_append_right pieces (mem_singleton_self piece))
  rw [← flatten_splitBy Quad.together quads, cut, flatten_append, flatten_singleton,
    getLast?_append_of_ne_nil _ nonempty]
  rfl

/-! ## Names -/

theorem names_next (segments : List Segment) (s : Supply) :
    (names segments s).2.next = s.next + segments.countP (·.label.isNone) := by
  induction segments generalizing s with
  | nil => rfl
  | cons h rest ih =>
    rw [names_cons, ih]
    cases label : h.label with
    | none =>
      have drawn : (s.fresh blockStem).2.next = s.next + 1 := rfl
      simp only [label, Option.isSome_none, Option.isNone_none, Bool.false_eq_true, if_false, countP_cons, if_true]
      omega
    | some own => simp [label]

/-- A block label that the supply may have made up. -/
def Generated (l : Label) : Prop := ∃ n : Nat, l = blockStem ++ toString n

/-- A segment with a label keeps it. -/
theorem names_of_label {g : Segment} (found : segments[k]? = some g) (label : g.label = some l) (s : Supply) :
    (names segments s).1[k]? = some l := by
  induction segments generalizing k s with
  | nil => cases found
  | cons h rest ih =>
    rw [names_cons]
    cases k with
    | zero =>
      obtain rfl : h = g := by simpa using found
      simp [label]
    | succ k => exact ih (by simpa using found) _

theorem labels_sublist_names (segments : List Segment) (s : Supply) :
    (segments.filterMap (·.label)).Sublist (names segments s).1 := by
  induction segments generalizing s with
  | nil => exact List.Sublist.refl []
  | cons g rest ih =>
    rw [names_cons, filterMap_cons]
    cases g.label with
    | none => exact (ih _).cons _
    | some l => exact (ih _).cons_cons l

/-- The names are the labels of the segments and what has been generated on the way. -/
theorem mem_names {s : Supply} : l ∈ (names segments s).1 ↔ (∃ g ∈ segments, g.label = some l) ∨
      ∃ n, l = blockStem ++ toString n ∧ s.next ≤ n ∧ n < (names segments s).2.next := by
  induction segments generalizing s with
  | nil =>
    have none (n : Nat) : ¬(s.next ≤ n ∧ n < s.next) := by omega
    simp [names, Build.names, none]
  | cons h rest ih =>
    rw [names_cons]
    cases label : h.label with
    | none =>
      have drawn : (s.fresh blockStem).2.next = s.next + 1 := rfl
      have later := names_next rest (s.fresh blockStem).2
      simp only [Option.getD_none, Option.isSome_none, Bool.false_eq_true, if_false, List.mem_cons, ih]
      constructor
      · rintro (rfl | ⟨g, found, own⟩ | ⟨n, made, since, below⟩)
        · exact .inr ⟨s.next, rfl, le_rfl, by omega⟩
        · exact .inl ⟨g, .inr found, own⟩
        · exact .inr ⟨n, made, by omega, below⟩
      · rintro (⟨g, rfl | found, own⟩ | ⟨n, made, since, below⟩)
        · simp [label] at own
        · exact .inr (.inl ⟨g, found, own⟩)
        · by_cases first : n = s.next
          · subst first
            exact .inl made
          · exact .inr (.inr ⟨n, made, by omega, below⟩)
    | some own => simp [ih, label, or_assoc, eq_comm]

end Segment

theorem firstRepeated_eq_none {before rest : List Label} :
    firstRepeated before rest = none ↔ rest.Nodup ∧ ∀ l ∈ rest, l ∉ before := by
  induction rest generalizing before with
  | nil => simp [firstRepeated]
  | cons l rest ih =>
    rw [firstRepeated]
    by_cases seen : l ∈ before
    · simp [seen]
    · simp only [contains_iff_mem, seen, if_false, ih, nodup_cons, mem_cons]
      grind

namespace Build

variable {labels : List Label}

/-- The block after a segment, if code follows. -/
def after (f : Function) (more : List Segment) : Option BlockId :=
  if more.isEmpty then none else some (f.segments.length - more.length)

/-- Each segment becomes the block of its index. -/
theorem blocks_getElem? {bs : List Block} (success : Segment.blocks f labels k (heads ++ s :: more) = .ok bs) :
    ∃ t, tail f labels (if more.isEmpty then none else some (k + heads.length + 1)) s.stop = .ok t ∧ bs[heads.length]? =
        some { label := labels.getD (k + heads.length) "", body := s.body, tail := t } := by
  induction heads generalizing k bs with
  | nil =>
    simp only [nil_append, Segment.blocks, bind_eq_ok, pure_eq_ok] at success
    obtain ⟨t, ended, rest, -, rfl⟩ := success
    exact ⟨t, ended, rfl⟩
  | cons h heads ih =>
    simp only [cons_append, Segment.blocks, bind_eq_ok, pure_eq_ok] at success
    obtain ⟨t, -, rest, others, rfl⟩ := success
    obtain ⟨u, ended, found⟩ := ih others
    refine ⟨u, ?_, ?_⟩
    · rwa [length_cons, show k + (heads.length + 1) + 1 = k + 1 + heads.length + 1 by omega]
    · rw [length_cons, getElem?_cons_succ, found, show k + (heads.length + 1) = k + 1 + heads.length by omega]

theorem resolve_eq {b : BlockId} (success : resolve f labels l = .ok b) : labels[b]? = some l := by
  unfold resolve at success
  split at success
  next found =>
    cases success
    obtain ⟨bound, eq, -⟩ := idxOf?_eq_some_iff.1 found
    rw [getElem?_eq_getElem bound]
    simpa using eq
  · cases success

end Build

namespace Graph

/-- A graph whose blocks are the segments of a function. -/
structure Renders (g : Graph) (f : Function) (labels : List Label) : Prop where
  name : g.name = f.name
  vars : g.vars = f.vars
  params : g.params = f.params
  entry : g.entry = 0
  nodup : labels.Nodup
  written : (f.quads.filterMap (·.op.label?)).Sublist labels
  named : ∀ (k : Nat) (s : Segment) (l : Label), f.segments[k]? = some s → s.label = some l → labels[k]? = some l
  labelled : ∀ l ∈ labels, (∃ s ∈ f.segments, s.label = some l) ∨ Segment.Generated l
  block : ∀ (heads : List Segment) (s : Segment) (more : List Segment), heads ++ s :: more = f.segments →
    g.body heads.length = s.body ∧ Build.tail f labels (Build.after f more) s.stop = .ok (g.tail heads.length)

theorem build_renders {s s' : Supply} {g : Graph} (built : build f s = .ok (g, s')) :
    g.Renders f (Segment.names f.segments s).1 := by
  obtain ⟨bs, distinct, success, rfl, -⟩ := build_cases built
  refine ⟨rfl, rfl, rfl, rfl, (firstRepeated_eq_none.1 distinct).1,
    Segment.filterMap_label_segments f ▸ Segment.labels_sublist_names _ s,
    fun k t l found label => Segment.names_of_label found label s,
    fun l member => (Segment.mem_names.1 member).imp_right (Exists.imp fun _ => And.left),
    fun heads t more whole => ?_⟩
  rw [← whole] at success
  obtain ⟨u, ended, found⟩ := Build.blocks_getElem? success
  have next : Build.after f more = if more.isEmpty then none else some (0 + heads.length + 1) := by
    have index : (heads ++ t :: more).length - more.length = 0 + heads.length + 1 := by
      simp only [length_append, length_cons]
      omega
    rw [Build.after, ← whole, index]
  rw [relink_body, relink_tail, next]
  simp only [body, tail, Graph.block, Array.getD_eq_getD_getElem?, getElem?_toArray, found]
  exact ⟨rfl, whole ▸ ended⟩

end Graph

end Quadcode
