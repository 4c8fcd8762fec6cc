import Quadcode.Graph.Linear
import Quadcode.Proofs.Graph.Normal

/-!
# Flat code of blocks

The flat form of a function lists its blocks one after the other. That code can be cut into blocks
again: each jump in it finds its label, no label stands twice, and control does not run off its end.
-/

namespace Quadcode

open List Option Segment

/-- Control never runs on behind a jump or return. -/
def Op.isFinal : Op → Bool
  | .goto _ | .ret _ => true
  | _ => false

variable {op : Op} {segments : List Segment} {next : Option BlockId} {l : Label} {s : Supply} {g : Graph}

theorem Op.not_final_of_not_control (other : op.isControl = false) : op.isFinal = false := by
  cases op <;> simp_all [isControl, isFinal]

theorem Op.target?_of_not_control (other : op.isControl = false) : op.target? = none := by
  cases op <;> simp_all [isControl, target?]

theorem Op.label?_of_not_control (other : op.isControl = false) : op.label? = none := by
  cases op <;> simp_all [isControl, label?]

namespace Graph

/-- The entry comes first and the layout lists the reachable blocks, each once. Their labels are
distinct, and the supply will draw none of them. No label, jump or return stands inside a block. -/
structure Orderly (g : Graph) (s : Supply) : Prop where
  entry_first : g.layout.head? = some g.entry
  layout_nodup : g.layout.Nodup
  mem_layout : ∀ b, b ∈ g.layout ↔ g.Reaches g.entry b
  labels : ∀ b ∈ g.layout, ∀ c ∈ g.layout, g.label b = g.label c → b = c
  drawn : ∀ b ∈ g.layout, ∀ n, g.label b = blockStem ++ toString n → n < s.next
  plain : ∀ b ∈ g.layout, ∀ q ∈ g.body b, q.op.isControl = false

/-- The code of a block in front of the block `next`. -/
def blockCode (g : Graph) (next : Option BlockId) (b : BlockId) : List Quad :=
  (.effect (.label (g.label b)) :: g.body b) ++ g.tailQuads next (g.tail b)

variable {b : BlockId} {bs : List BlockId} {t : Tail} {q : Quad}

theorem linearFrom_cons : g.linearFrom (b :: bs) = g.blockCode bs.head? b ++ g.linearFrom bs := rfl

theorem linearFrom_suffix (front back : List BlockId) : g.linearFrom back <:+ g.linearFrom (front ++ back) := by
  induction front with
  | nil => exact suffix_rfl
  | cons b front ih =>
    rw [cons_append, linearFrom_cons]
    exact ih.trans (suffix_append _ _)

/-! ## The code of a tail -/

/-- The code of a tail jumps only where the tail leads. -/
theorem mem_tailQuads (member : q ∈ g.tailQuads next t) : q.op.isControl = true ∧
    q.op.label? = none ∧ ∀ l, q.op.target? = some l → ∃ d ∈ t.targets, g.label d = l := by
  cases t with
  | jump d | fall d =>
    simp only [tailQuads, tailQuads.goto] at member
    split at member
    · cases member
    · obtain rfl := mem_singleton.1 member
      simp [Quad.effect, Op.isControl, Op.label?, Op.target?, Tail.targets, Tail.successors]
  | branch c x y onTrue onFalse =>
    simp only [tailQuads, tailQuads.goto] at member
    split at member
    · obtain rfl := mem_singleton.1 member
      simp [Quad.effect, Op.isControl, Op.label?, Op.target?, Tail.targets, Tail.successors]
    · rcases mem_cons.1 member with rfl | member
      · simp [Quad.effect, Op.isControl, Op.label?, Op.target?, Tail.targets, Tail.successors]
      · split at member
        · cases member
        · obtain rfl := mem_singleton.1 member
          simp [Quad.effect, Op.isControl, Op.label?, Op.target?, Tail.targets, Tail.successors]
  | ret x =>
    obtain rfl := mem_singleton.1 member
    simp [Quad.effect, Op.isControl, Op.label?, Op.target?]

/-- At the end of a function, the code of a tail leaves for good. -/
theorem tailQuads_last (g : Graph) (t : Tail) : ∃ front q, g.tailQuads none t = front ++ [q] ∧ q.op.isFinal = true := by
  cases t with
  | jump d | fall d => exact ⟨[], _, rfl, rfl⟩
  | branch c x y onTrue onFalse => exact ⟨[_], _, rfl, rfl⟩
  | ret x => exact ⟨[], _, rfl, rfl⟩

/-- Only the last quadruple of a tail leaves for good. -/
theorem not_final_of_mem_dropLast (member : q ∈ (g.tailQuads next t).dropLast) : q.op.isFinal = false := by
  cases t with
  | jump d | fall d =>
    simp only [tailQuads, tailQuads.goto] at member
    split at member <;> cases member
  | branch c x y onTrue onFalse =>
    simp only [tailQuads, tailQuads.goto] at member
    split at member
    · cases member
    · split at member
      · cases member
      · obtain rfl := mem_singleton.1 member
        rfl
  | ret x => cases member

/-- Nothing in front of another quadruple of its block leaves for good. -/
theorem not_final_of_blockCode (plain : ∀ q ∈ g.body b, q.op.isControl = false) {front back : List Quad}
    (cut : g.blockCode next b = front ++ back) (nonempty : back ≠ []) (member : q ∈ front) : q.op.isFinal = false := by
  have early : q ∈ (g.blockCode next b).dropLast := by
    rw [cut, dropLast_append_of_ne_nil nonempty]
    exact mem_append_left _ member
  have start : q ∈ .effect (.label (g.label b)) :: g.body b → q.op.isFinal = false := by
    intro member
    rcases mem_cons.1 member with rfl | inside
    · rfl
    · exact Op.not_final_of_not_control (plain q inside)
  by_cases empty : g.tailQuads next (g.tail b) = []
  · rw [blockCode, empty, append_nil] at early
    exact start (dropLast_subset _ early)
  · rw [blockCode, dropLast_append_of_ne_nil empty] at early
    rcases mem_append.1 early with inside | last
    · exact start inside
    · exact not_final_of_mem_dropLast last

/-! ## The code of a function -/

theorem mem_linearFrom (member : q ∈ g.linearFrom bs) : ∃ b ∈ bs, ∃ next, q ∈ g.blockCode next b := by
  induction bs with
  | nil => cases member
  | cons b bs ih =>
    rcases mem_append.1 (linearFrom_cons ▸ member) with here | later
    · exact ⟨b, mem_cons_self, _, here⟩
    · obtain ⟨c, inside, found⟩ := ih later
      exact ⟨c, mem_cons_of_mem b inside, found⟩

section Plain

variable (plain : ∀ b ∈ bs, ∀ q ∈ g.body b, q.op.isControl = false)
include plain

/-- The labels of the code are those of the blocks. -/
theorem filterMap_label_linearFrom : (g.linearFrom bs).filterMap (·.op.label?) = bs.map g.label := by
  induction bs with
  | nil => rfl
  | cons b bs ih =>
    have body : (g.body b).filterMap (·.op.label?) = [] := by
      rw [filterMap_eq_nil_iff]
      exact fun q inside => Op.label?_of_not_control (plain b mem_cons_self q inside)
    have tail : (g.tailQuads bs.head? (g.tail b)).filterMap (·.op.label?) = [] := by
      rw [filterMap_eq_nil_iff]
      exact fun q inside => (mem_tailQuads inside).2.1
    rw [linearFrom_cons, blockCode, filterMap_append, filterMap_append, tail,
      append_nil, filterMap_cons, body, ih fun c later => plain c (mem_cons_of_mem b later)]
    rfl

/-- What else stands in the code is what stands in the blocks. -/
theorem filter_linearFrom : (g.linearFrom bs).filter (!·.op.isControl) = bs.flatMap g.body := by
  induction bs with
  | nil => rfl
  | cons b bs ih =>
    have body : (g.body b).filter (!·.op.isControl) = g.body b := by
      rw [filter_eq_self]
      intro q inside
      simp [plain b mem_cons_self q inside]
    have tail : (g.tailQuads bs.head? (g.tail b)).filter (!·.op.isControl) = [] := by
      rw [filter_eq_nil_iff]
      intro q inside
      simp [(mem_tailQuads inside).1]
    rw [linearFrom_cons, blockCode, filter_append, filter_append, tail, append_nil,
      filter_cons_of_neg (by simp [Quad.effect, Op.isControl]), body,
      ih fun c later => plain c (mem_cons_of_mem b later), flatMap_cons]

/-- The code jumps only where tails lead. -/
theorem target_linearFrom (member : q ∈ g.linearFrom bs) (target : q.op.target? = some l) :
    ∃ b ∈ bs, ∃ d ∈ g.targets b, g.label d = l := by
  obtain ⟨b, inside, next, found⟩ := mem_linearFrom member
  refine ⟨b, inside, ?_⟩
  rcases mem_append.1 found with start | tail
  · rcases mem_cons.1 start with rfl | body
    · cases target
    · simp [Op.target?_of_not_control (plain b inside q body)] at target
  · exact (mem_tailQuads tail).2.2 l target

end Plain

/-- Control does not run off the end of the code. -/
theorem linearFrom_last (nonempty : bs ≠ []) : ∃ front q, g.linearFrom bs = front ++ [q] ∧ q.op.isFinal = true := by
  induction bs with
  | nil => contradiction
  | cons b bs ih =>
    rw [linearFrom_cons]
    by_cases last : bs = []
    · subst last
      obtain ⟨front, q, ended, final⟩ := tailQuads_last g (g.tail b)
      exact ⟨_ ++ front, q, by rw [blockCode, head?_nil, ended, linearFrom, append_nil, append_assoc], final⟩
    · obtain ⟨front, q, ended, final⟩ := ih last
      exact ⟨_ ++ front, q, by rw [ended, append_assoc], final⟩

end Graph

/-! ## Code that builds -/

theorem Segment.names_nodup (nodup : (segments.filterMap (·.label)).Nodup)
    (drawn : ∀ l ∈ segments.filterMap (·.label), ∀ n, l = blockStem ++ toString n → n < s.next) :
    (names segments s).1.Nodup := by
  induction segments generalizing s with
  | nil => exact .nil
  | cons h rest ih =>
    rw [names_cons, nodup_cons]
    cases label : h.label with
    | none =>
      -- The name drawn here is below the supply for the rest, and no written label has its number.
      rw [filterMap_cons_none label] at nodup drawn
      refine ⟨fun member => ?_, ih nodup fun l inside n made =>
        Nat.lt_succ_of_lt (drawn l inside n made)⟩
      rcases mem_names.1 member with ⟨g, found, own⟩ | ⟨n, made, since, -⟩
      · have inside : blockStem ++ toString s.next ∈ rest.filterMap (·.label) := mem_filterMap.2 ⟨g, found, own⟩
        exact Nat.lt_irrefl _ (drawn _ inside s.next rfl)
      · have since : s.next + 1 ≤ n := since
        rw [drawn_inj made] at since
        exact Nat.not_succ_le_self n since
    | some l =>
      rw [filterMap_cons_some label, nodup_cons] at nodup
      rw [filterMap_cons_some label] at drawn
      refine ⟨fun member => ?_, ih nodup.2 fun l' inside n made =>
        drawn l' (mem_cons_of_mem l inside) n made⟩
      rcases mem_names.1 member with ⟨g, found, own⟩ | ⟨n, made, since, -⟩
      · exact nodup.1 (mem_filterMap.2 ⟨g, found, own⟩)
      · exact Nat.not_le_of_lt (drawn l mem_cons_self n made) since

namespace Build

variable {f : Function} {labels : List Label}

theorem resolve_ok (member : l ∈ labels) : ∃ b, resolve f labels l = .ok b := by
  obtain ⟨b, found⟩ : ∃ b, labels.idxOf? l = some b := by
    rw [← isSome_iff_exists, isSome_idxOf?]
    exact member
  exact ⟨b, by rw [resolve, found]⟩

/-- A segment builds if its jump finds its label and code follows a conditional one. -/
theorem tail_ok {stop : Option Op} (known : ∀ op ∈ stop, ∀ l, op.target? = some l → l ∈ labels)
    (last : next = none → ∀ op ∈ stop, op.isFinal = true) : ∃ t, tail f labels next stop = .ok t := by
  have conditional {l : Label} (member : l ∈ labels) (more : next ≠ none) :
      ∃ b c, resolve f labels l = .ok b ∧ following f next = .ok c := by
    obtain ⟨b, resolved⟩ := resolve_ok (f := f) member
    obtain ⟨c, rfl⟩ := ne_none_iff_exists'.1 more
    exact ⟨b, c, resolved, rfl⟩
  unfold tail
  split
  next l =>
    obtain ⟨b, resolved⟩ := resolve_ok (f := f) (known (.goto l) rfl l rfl)
    exact ⟨_, bind_eq_ok.2 ⟨b, resolved, rfl⟩⟩
  next c x y l =>
    obtain ⟨b, d, resolved, next⟩ := conditional (known (.jumpIf c x y l) rfl l rfl) fun none => by
      cases last none _ rfl
    exact ⟨_, bind_eq_ok.2 ⟨b, resolved, bind_eq_ok.2 ⟨d, next, rfl⟩⟩⟩
  next c x y l =>
    obtain ⟨b, d, resolved, next⟩ := conditional (known (.jumpIfNot c x y l) rfl l rfl) fun none => by
      cases last none _ rfl
    exact ⟨_, bind_eq_ok.2 ⟨d, next, bind_eq_ok.2 ⟨b, resolved, rfl⟩⟩⟩
  · exact ⟨_, rfl⟩
  · exact ⟨_, rfl⟩

theorem blocks_ok {k : Nat} (tails : ∀ heads s more, segments = heads ++ s :: more →
      ∀ next : Option BlockId, (next = none → more = []) → ∃ t, tail f labels next s.stop = .ok t) :
    ∃ bs, Segment.blocks f labels k segments = .ok bs := by
  induction segments generalizing k with
  | nil => exact ⟨[], rfl⟩
  | cons s rest ih =>
    obtain ⟨t, ended⟩ := tails [] s rest rfl (if rest.isEmpty then none else some (k + 1)) (by simp)
    obtain ⟨bs, built⟩ := @ih (k + 1) fun heads u more whole =>
      tails (s :: heads) u more (by rw [whole]; rfl)
    exact ⟨_, bind_eq_ok.2 ⟨t, ended, bind_eq_ok.2 ⟨bs, built, rfl⟩⟩⟩

end Build

namespace Graph.Orderly

variable (orderly : g.Orderly s) {u : Segment}
include orderly

theorem layout_ne_nil : g.layout ≠ [] := by
  intro empty
  have first := orderly.entry_first
  rw [empty] at first
  cases first

theorem target_mem {b c : BlockId} (member : b ∈ g.layout) (edge : c ∈ g.targets b) : c ∈ g.layout :=
  (orderly.mem_layout c).2 (((orderly.mem_layout b).1 member).tail edge)

theorem linearize_ne_nil : g.linearize ≠ [] := by
  obtain ⟨front, q, ended, -⟩ := linearFrom_last (g := g) orderly.layout_ne_nil
  rw [linearize, ended]
  simp

theorem segments_eq : g.toFunction.segments = Segment.split g.linearize := Function.segments_eq orderly.linearize_ne_nil

theorem segment_labels : g.toFunction.segments.filterMap (·.label) = g.layout.map g.label := by
  rw [filterMap_label_segments]
  exact filterMap_label_linearFrom orderly.plain

theorem names_nodup : (Segment.names g.toFunction.segments s).1.Nodup := by
  refine Segment.names_nodup ?_ ?_ <;> rw [orderly.segment_labels]
  · refine List.Nodup.map_on ?_ orderly.layout_nodup
    exact fun b member c member' => orderly.labels b member c member'
  · intro l member n made
    obtain ⟨b, inside, rfl⟩ := List.mem_map.1 member
    exact orderly.drawn b inside n made

/-- Each jump finds its label. -/
theorem target_known (member : u ∈ g.toFunction.segments) (stop : u.stop = some op) (target : op.target? = some l) :
    l ∈ (Segment.names g.toFunction.segments s).1 := by
  rw [orderly.segments_eq] at member
  obtain ⟨q, inside, leaving⟩ := exists_leaving member stop
  obtain rfl := Op.eq_of_leaving leaving
  obtain ⟨b, placed, d, edge, rfl⟩ := target_linearFrom orderly.plain inside target
  refine (labels_sublist_names _ s).subset ?_
  rw [orderly.segment_labels]
  exact mem_map_of_mem (orderly.target_mem placed edge)

/-- The last segment leaves for good. -/
theorem last_final {heads : List Segment} (whole : g.toFunction.segments = heads ++ [u]) :
    ∀ op ∈ u.stop, op.isFinal = true := by
  intro op stop
  obtain ⟨front, q, ended, final⟩ := linearFrom_last (g := g) orderly.layout_ne_nil
  rw [orderly.segments_eq] at whole
  have last := stop_of_last whole
  rw [stop, linearize, ended, getLast?_concat, bind_some] at last
  rw [← Op.eq_of_leaving last.symm]
  exact final

/-- The flat form of a function builds. -/
theorem build_ok : ∃ g' s', build g.toFunction s = .ok (g', s') := by
  have distinct : firstRepeated [] (Segment.names g.toFunction.segments s).1 = none :=
    firstRepeated_eq_none.2 ⟨orderly.names_nodup, by simp⟩
  obtain ⟨bs, built⟩ : ∃ bs, Segment.blocks g.toFunction (Segment.names g.toFunction.segments s).1 0
      g.toFunction.segments = .ok bs := by
    refine Build.blocks_ok fun heads u more whole next follows => Build.tail_ok ?_ fun none => ?_
    · have member : u ∈ g.toFunction.segments := by simp [whole]
      exact fun op stop l target => orderly.target_known member stop target
    · obtain rfl := follows none
      exact orderly.last_final whole
  rw [build_eq, distinct, built]
  exact ⟨_, _, rfl⟩

end Graph.Orderly

end Quadcode
