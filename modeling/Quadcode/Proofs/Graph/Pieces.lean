import Mathlib.Data.List.SplitBy
import Quadcode.Graph.Build
import Quadcode.Proofs.Outcome

/-!
# How a function is cut into blocks

Flat code is cut in front of each label and behind each jump, return and call. The ranges from one start of a block
to the next are the pieces between the cuts. So a label stands in a piece at its start only and a jump or return at
its end only, and what goes through the code of a block never meets one inside: each piece is a segment, which has a
label, a body and a stop.
-/

namespace Quadcode

open List

variable {op : Op} {l : Label} {piece quads : List Quad}

namespace Op

variable {op' : Op}

/-- A jump or return, which ends its block. -/
def leaving? : Op → Option Op
  | .goto l => some (.goto l)
  | .jumpIf c x y l => some (.jumpIf c x y l)
  | .jumpIfNot c x y l => some (.jumpIfNot c x y l)
  | .ret x => some (.ret x)
  | _ => none

/-- A quadruple is a label, ends its block or stands inside it. -/
theorem kind_cases (op : Op) : (∃ l, op = .label l) ∨ (∃ op', op.leaving? = some op') ∨ op.isControl = false := by
  cases op <;> simp [leaving?, isControl]

theorem eq_of_leaving (leaving : op.leaving? = some op') : op = op' := by
  cases op <;> cases leaving <;> rfl

theorem of_leaving (leaving : op.leaving? = some op') :
    op.label? = none ∧ op.isControl = true ∧ op.endsBlock = true := by
  cases op <;> cases leaving <;> exact ⟨rfl, rfl, rfl⟩

theorem of_plain (plain : op.isControl = false) : op.label? = none ∧ op.leaving? = none ∧ op.endsBlock = op.isCall := by
  cases op <;> cases plain <;> exact ⟨rfl, rfl, rfl⟩

theorem label?_eq_some : op.label? = some l ↔ op = .label l := by
  cases op <;> simp [label?]

theorem isLabel_eq (op : Op) : op.isLabel = op.label?.isSome := by
  cases op <;> rfl

end Op

/-- Two quadruples that follow each other stand in one block. -/
def Quad.together (q r : Quad) : Bool := !q.op.endsBlock && !r.op.isLabel

/-- The code of each block, its label and the jump or return behind it included. A function without code has
one block. -/
def Function.pieces (f : Function) : List (List Quad) :=
  if f.quads.isEmpty then [[]] else f.quads.splitBy Quad.together

theorem Function.flatten_pieces (f : Function) : f.pieces.flatten = f.quads := by
  unfold pieces
  split
  next empty => simp [isEmpty_iff.1 empty]
  · exact flatten_splitBy _ _

/-- Code in front of a piece that it belongs to lengthens that piece. -/
theorem splitBy_cons_of_together {α : Type} {r : α → α → Bool} {a b : α} {l piece : List α} {more : List (List α)}
    (joined : r a b = true) (whole : (b :: l).splitBy r = piece :: more) :
    (a :: b :: l).splitBy r = (a :: piece) :: more := by
  obtain ⟨flat, nonempty, chains, apart⟩ := splitBy_eq_iff.1 whole
  obtain ⟨c, rest, rfl⟩ : ∃ c rest, piece = c :: rest := by
    cases piece with
    | nil => simp at nonempty
    | cons c rest => exact ⟨c, rest, rfl⟩
  obtain ⟨rfl, -⟩ := List.cons.inj flat
  refine splitBy_eq_iff.2 ⟨?_, ?_, ?_, ?_⟩
  · rw [flat]
    rfl
  · simpa using nonempty
  · intro m member
    rcases mem_cons.1 member with rfl | later
    · exact isChain_cons_cons.2 ⟨joined, chains _ mem_cons_self⟩
    · exact chains m (mem_cons_of_mem _ later)
  · rw [isChain_cons] at apart ⊢
    refine ⟨fun next first => ?_, apart.2⟩
    obtain ⟨_, hb, ends⟩ := apart.1 next first
    exact ⟨cons_ne_nil _ _, hb, by simpa using ends⟩

/-! ## Ranges -/

namespace Build

variable {i start : Nat}

/-- A block starts at the first quadruple and wherever two quadruples do not stand together. -/
theorem mem_starts : i ∈ starts quads ↔
    i = 0 ∨ ∃ j q r, i = j + 1 ∧ quads[j]? = some q ∧ quads[i]? = some r ∧ q.together r = false := by
  simp only [starts, Std.ExtTreeSet.mem_toList, Std.ExtTreeSet.mem_ofList, List.contains_iff_mem, List.mem_cons,
    List.mem_flatMap, Prod.exists, List.mem_append, List.mem_zipIdx_iff_getElem?, Quad.together]
  refine or_congr_right ⟨?_, ?_⟩
  · rintro ⟨q, k, here, marked | marked⟩
    · obtain ⟨label, rfl, positive⟩ : q.op.isLabel = true ∧ i = k ∧ k ≠ 0 := by grind
      obtain ⟨j, rfl⟩ := Nat.exists_eq_succ_of_ne_zero positive
      have bound := (List.getElem?_eq_some_iff.1 here).1
      exact ⟨j, quads[j], q, rfl, getElem?_eq_getElem (by omega), here, by simp [label]⟩
    · obtain ⟨ends, rfl, bound⟩ : q.op.endsBlock = true ∧ i = k + 1 ∧ k + 1 < quads.length := by grind
      exact ⟨k, q, quads[k + 1], rfl, here, getElem?_eq_getElem bound, by simp [ends]⟩
  · rintro ⟨j, q, r, rfl, before, here, cut⟩
    have bound := (List.getElem?_eq_some_iff.1 here).1
    cases ends : q.op.endsBlock with
    | true => exact ⟨q, j, before, .inr (by simp [ends, bound])⟩
    | false => exact ⟨r, j + 1, here, .inl (by simp_all)⟩

theorem starts_pairwise (quads : List Quad) : (starts quads).Pairwise (· < ·) :=
  Std.ExtTreeSet.ordered_toList.imp Nat.compare_eq_lt.1

/-- Code in which no block starts but at its front is one piece. -/
theorem splitBy_slice {stop : Nat} (nonempty : start < stop) (high : stop ≤ quads.length)
    (inside : ∀ i, start < i → i < stop → i ∉ starts quads) :
    ((quads.take stop).drop start).splitBy Quad.together = [(quads.take stop).drop start] := by
  refine splitBy_of_isChain (length_pos_iff.1 (by simp; omega)) (isChain_iff_getElem.2 fun j small => ?_)
  simp only [length_drop, length_take] at small
  simp only [getElem_drop, getElem_take]
  by_contra apart
  exact inside _ (by omega) (by omega) (mem_starts.2 (.inr ⟨start + j, _, _, rfl, getElem?_eq_getElem (by omega),
    getElem?_eq_getElem (by omega), Bool.not_eq_true _ ▸ apart⟩))

theorem ranges_eq_splitBy {more : List Nat} (sorted : more.Pairwise (· < ·))
    (listed : ∀ i, i ∈ more ↔ start < i ∧ i ∈ starts quads) (bound : start < quads.length) :
    ranges quads (start :: more) = (quads.drop start).splitBy Quad.together := by
  induction more generalizing start with
  | nil =>
    have slice := splitBy_slice bound le_rfl fun i low _ cut => not_mem_nil ((listed i).2 ⟨low, cut⟩)
    rw [take_length] at slice
    rw [slice, ranges, ranges, headD_nil, take_length]
  | cons next more ih =>
    obtain ⟨least, ordered⟩ := pairwise_cons.1 sorted
    obtain ⟨low, cut⟩ := (listed next).1 mem_cons_self
    obtain rfl | ⟨j, q, r, rfl, last, head, apart⟩ := mem_starts.1 cut
    · omega
    have high := (List.getElem?_eq_some_iff.1 head).1
    have whole : quads.drop start = (quads.take (j + 1)).drop start ++ quads.drop (j + 1) := by
      rw [← drop_append_of_le_length (by rw [length_take]; omega), take_append_drop]
    have slice := splitBy_slice low high.le fun i low high cut => by
      rcases mem_cons.1 ((listed i).2 ⟨low, cut⟩) with same | later
      · omega
      · have := least i later
        omega
    have later (i : Nat) : i ∈ more ↔ j + 1 < i ∧ i ∈ starts quads := by
      refine ⟨fun member => ⟨least i member, ((listed i).1 (.tail _ member)).2⟩, fun ⟨above, cut⟩ => ?_⟩
      rcases mem_cons.1 ((listed i).2 ⟨by omega, cut⟩) with same | member
      · omega
      · exact member
    rw [ranges, headD_cons, whole, splitBy_append, slice, singleton_append, ih ordered later high]
    intro x final y first
    rw [head?_drop, head] at first
    rw [getLast?_drop, getLast?_take] at final
    simp_all

/-- The code is cut where blocks start. -/
theorem ranges_starts (f : Function) : ranges f.quads (starts f.quads) = f.pieces := by
  unfold Function.pieces
  split
  next empty =>
    rw [isEmpty_iff.1 empty]
    rfl
  next nonempty =>
    have sorted := starts_pairwise f.quads
    have zero : 0 ∈ starts f.quads := mem_starts.2 (.inl rfl)
    cases all : starts f.quads with
    | nil => simp [all] at zero
    | cons start more =>
      rw [all] at sorted zero
      obtain ⟨least, ordered⟩ := pairwise_cons.1 sorted
      obtain rfl : start = 0 := by
        rcases mem_cons.1 zero with same | later
        · exact same.symm
        · exact absurd (least 0 later) (Nat.not_lt_zero _)
      refine ranges_eq_splitBy ordered (fun i => ?_) (length_pos_iff.2 (by simpa using nonempty))
      rw [all, mem_cons]
      refine ⟨fun later => ⟨least i later, .inr later⟩, fun ⟨above, cut⟩ => cut.resolve_left ?_⟩
      omega

end Build

/-! ## Segments -/

/-- A stretch of flat code that control enters at its start and leaves at its end. -/
structure Segment where
  label : Option Label := none
  body : List Quad := []
  /-- The jump or return that ends it; control runs on without one. -/
  stop : Option Op := none

namespace Segment

/-- Splits off the segment that code standing before `following` runs on into. -/
def continuing : List Segment → Segment × List Segment
  | s :: more => if s.label.isNone then (s, more) else ({}, s :: more)
  | [] => ({}, [])

/-- Puts one quadruple in front of segmented code. -/
def cons (q : Quad) (following : List Segment) : List Segment :=
  match q.op with
  | .goto _ | .jumpIf .. | .jumpIfNot .. | .ret _ => { stop := some q.op } :: following
  | .call .. => { body := [q] } :: following
  | .label l =>
    let (s, more) := continuing following
    { s with label := some l } :: more
  | _ =>
    let (s, more) := continuing following
    { s with body := q :: s.body } :: more

/-- What stands in a piece of the code. -/
def ofPiece (piece : List Quad) : Segment where
  label := Build.label? piece
  body := piece.filter (!·.op.isControl)
  stop := piece.getLast?.bind (·.op.leaving?)

/-- The segments of code that need not be a whole function. -/
def split (quads : List Quad) : List Segment := (quads.splitBy Quad.together).map ofPiece

variable {q : Quad} {s : Segment}

/-- A jump or return is a segment of its own. -/
theorem cons_leaving (leaving : q.op.leaving? = some op) (following : List Segment) :
    cons q following = { stop := some op } :: following := by
  unfold cons
  revert leaving
  generalize q.op = kind
  cases kind <;> rintro ⟨⟩ <;> rfl

theorem cons_call (call : q.op.isCall = true) (following : List Segment) :
    cons q following = { body := [q] } :: following := by
  unfold cons
  revert call
  generalize q.op = kind
  cases kind with
  | call => exact fun _ => rfl
  | _ => exact nofun

theorem cons_label (label : q.op = .label l) (following : List Segment) : cons q following =
      { (continuing following).1 with label := some l } :: (continuing following).2 := by
  unfold cons
  rw [label]

/-- Any other quadruple stands in front of what it runs on into. -/
theorem cons_plain (plain : q.op.isControl = false) (call : q.op.isCall = false) (following : List Segment) :
    cons q following =
      { (continuing following).1 with body := q :: (continuing following).1.body } :: (continuing following).2 := by
  unfold cons
  revert plain call
  generalize q.op = kind
  cases kind with
  | call => exact fun _ => nofun
  | label | goto | jumpIf | jumpIfNot | ret => exact nofun
  | _ => exact fun _ _ => rfl

/-- Cutting code from the back, each quadruple starts a segment of its own or joins the first one. -/
theorem split_cons (q : Quad) (quads : List Quad) : split (q :: quads) = cons q (split quads) := by
  have alone (following : List Segment) (free : continuing following = ({}, following) ∨ q.op.endsBlock = true) :
      ofPiece [q] :: following = cons q following := by
    rcases q.op.kind_cases with ⟨l, label⟩ | ⟨op, leaving⟩ | plain
    · rw [cons_label label, free.resolve_right (by simp [label, Op.endsBlock])]
      simp [ofPiece, Build.label?, label, Op.label?, Op.isControl, Op.leaving?]
    · obtain ⟨unlabelled, control, -⟩ := Op.of_leaving leaving
      rw [cons_leaving leaving]
      simp [ofPiece, Build.label?, unlabelled, control, leaving]
    · obtain ⟨unlabelled, stays, ends⟩ := Op.of_plain plain
      have piece : ofPiece [q] = { body := [q] } := by simp [ofPiece, Build.label?, unlabelled, plain, stays]
      cases call : q.op.isCall with
      | true => rw [cons_call call, piece]
      | false => rw [cons_plain plain call, free.resolve_right (by simp [ends, call]), piece]
  cases quads with
  | nil => exact alone [] (.inl rfl)
  | cons r rest =>
    obtain ⟨piece, more, whole⟩ := exists_cons_of_ne_nil (splitBy_ne_nil.2 (cons_ne_nil r rest))
    have first : Build.label? piece = r.op.label? ∧ piece ≠ [] := by
      obtain ⟨flat, nonempty, -⟩ := splitBy_eq_iff.1 whole
      cases piece with
      | nil => simp at nonempty
      | cons c others => exact ⟨by rw [(List.cons.inj flat).1, Build.label?, head?_cons, Option.bind_some], nofun⟩
    have following : split (r :: rest) = ofPiece piece :: more.map ofPiece := by rw [split, whole, map_cons]
    cases joined : q.together r with
    | false =>
      have apart : (q :: r :: rest).splitBy Quad.together = [q] :: (r :: rest).splitBy Quad.together :=
        splitBy_append_cons (l := [q]) rest (by simpa using joined)
      rw [split, apart, map_cons]
      refine alone _ ?_
      rw [← split, following]
      cases ends : q.op.endsBlock with
      | true => exact .inr rfl
      | false =>
        rw [Quad.together, Op.isLabel_eq, ← first.1, ends] at joined
        exact .inl (by simp_all [continuing, ofPiece, Option.isSome_iff_ne_none])
    | true =>
      rw [split, splitBy_cons_of_together joined whole, following, map_cons]
      rw [Quad.together, Op.isLabel_eq, ← first.1] at joined
      obtain ⟨runsOn, unlabelled⟩ : q.op.endsBlock = false ∧ Build.label? piece = none := by simpa using joined
      have onward : continuing (ofPiece piece :: more.map ofPiece) = (ofPiece piece, more.map ofPiece) := by
        simp [continuing, ofPiece, unlabelled]
      have last : (q :: piece).getLast? = piece.getLast? := getLast?_cons_of_ne_nil first.2
      rcases q.op.kind_cases with ⟨l, label⟩ | ⟨op, leaving⟩ | plain
      · rw [cons_label label, onward]
        simp [ofPiece, Build.label?, label, Op.label?, Op.isControl, last]
      · simp [(Op.of_leaving leaving).2.2] at runsOn
      · obtain ⟨none, -, ends⟩ := Op.of_plain plain
        have front : Build.label? (q :: piece) = Build.label? piece := none.trans unlabelled.symm
        rw [cons_plain plain (ends.symm.trans runsOn), onward]
        simp [ofPiece, front, plain, last]

/-- One more quadruple in front is a segment of its own or joins one without a label. -/
theorem cons_cases (q : Quad) (following : List Segment) :
    (∃ s, cons q following = s :: following ∧ s.label = q.op.label? ∧ s.stop = q.op.leaving?) ∨
      ∃ s t more, following = s :: more ∧ s.label = none ∧ cons q following = t :: more ∧
        t.label = q.op.label? ∧ t.stop = s.stop ∧ q.op.leaving? = none := by
  unfold cons
  generalize q.op = op
  cases op
  case goto | jumpIf | jumpIfNot | ret | call => exact .inl ⟨_, rfl, rfl, rfl⟩
  all_goals
    cases following with
    | nil => exact .inl ⟨_, rfl, rfl, rfl⟩
    | cons s more =>
      cases label : s.label with (
        dsimp only
        rw [continuing, label])
      | none => exact .inr ⟨s, _, more, rfl, label, rfl, by simp [Op.label?, label], rfl, rfl⟩
      | some l => exact .inl ⟨_, rfl, rfl, rfl⟩

theorem split_ne_nil (nonempty : quads ≠ []) : split quads ≠ [] := by
  simpa [split] using nonempty

variable {f : Function} {labels : List Label} {next : Option BlockId} {own : Label}

theorem ofPiece_stop (q r : Quad) (rest : List Quad) :
    (ofPiece (q :: r :: rest)).stop = (ofPiece (r :: rest)).stop := by
  rw [ofPiece, getLast?_cons_cons]
  rfl

theorem scan_plain (plain : q.op.isControl = false) (code body : List Quad) :
    Build.scan f labels next own (q :: code) body none = Build.scan f labels next own code (body ++ [q]) none := by
  rw [Build.scan]
  revert plain
  cases q.op with
  | label | goto | jumpIf | jumpIfNot | ret => exact nofun
  | _ => exact fun _ => rfl

theorem scan_leaving (leaving : q.op.leaving? = some op) (body : List Quad) :
    Build.scan f labels next own [q] body none =
      ({ label := own, body, tail := · }) <$> Build.tail f labels next (some op) := by
  rw [Build.scan]
  revert leaving
  cases q.op <;> rintro ⟨⟩ <;> rfl

/-- Going through code that stands together meets no label behind its front and nothing behind a tail. -/
theorem scan_eq (chain : piece.IsChain (·.together ·)) (unlabelled : Build.label? piece = none) (before : List Quad) :
    Build.scan f labels next own piece before none =
      ({ label := own, body := before ++ (ofPiece piece).body, tail := · }) <$>
        Build.tail f labels next (ofPiece piece).stop := by
  induction piece generalizing before with
  | nil => simp [Build.scan, ofPiece]
  | cons q rest ih =>
    rcases q.op.kind_cases with ⟨l, label⟩ | ⟨op, leaving⟩ | plain
    · simp [Build.label?, label, Op.label?] at unlabelled
    · obtain ⟨-, control, ends⟩ := Op.of_leaving leaving
      cases rest with
      | nil => simp [scan_leaving leaving, ofPiece, control, leaving]
      | cons r rest => simp [Quad.together, ends] at chain
    · have body : before ++ (ofPiece (q :: rest)).body = before ++ [q] ++ (ofPiece rest).body := by simp [ofPiece, plain]
      rw [scan_plain plain, body]
      cases rest with
      | nil => simp [Build.scan, ofPiece, (Op.of_plain plain).2.1]
      | cons r rest =>
        obtain ⟨joined, chain⟩ := isChain_cons_cons.1 chain
        rw [Quad.together, Op.isLabel_eq] at joined
        rw [ofPiece_stop]
        exact ih chain (by simpa [Build.label?] using (Bool.and_eq_true_iff.1 joined).2) _

/-- The code of a block becomes its body and tail. -/
theorem scan_piece (chain : piece.IsChain (·.together ·)) :
    Build.scan f labels next own (if (Build.label? piece).isSome then piece.tail else piece) [] none =
      ({ label := own, body := (ofPiece piece).body, tail := · }) <$>
        Build.tail f labels next (ofPiece piece).stop := by
  cases label : Build.label? piece with
  | none => exact scan_eq chain label []
  | some l =>
    cases piece with
    | nil => cases label
    | cons q rest =>
      have op : q.op = .label l := Op.label?_eq_some.1 label
      have body : (ofPiece (q :: rest)).body = (ofPiece rest).body := by simp [ofPiece, op, Op.isControl]
      cases rest with
      | nil => simp [Build.scan, ofPiece, op, Op.isControl, Op.leaving?]
      | cons r rest =>
        obtain ⟨joined, chain⟩ := isChain_cons_cons.1 chain
        rw [Quad.together, Op.isLabel_eq] at joined
        rw [body, ofPiece_stop]
        exact scan_eq chain (by simpa [Build.label?] using (Bool.and_eq_true_iff.1 joined).2) []

/-- Only the last quadruple of a body is a call. -/
theorem calls (chain : piece.IsChain (·.together ·)) : ∀ q ∈ (ofPiece piece).body.dropLast, q.op.isCall = false := by
  induction piece with
  | nil => simp [ofPiece]
  | cons q rest ih =>
    cases rest with
    | nil => cases plain : !q.op.isControl <;> simp [ofPiece, plain]
    | cons r rest =>
      obtain ⟨joined, chain⟩ := isChain_cons_cons.1 chain
      have call : q.op.isCall = false := by
        revert joined
        cases op : q.op <;> simp [Quad.together, op, Op.endsBlock, Op.isCall]
      have front (later : List Quad) (calls : ∀ c ∈ later.dropLast, c.op.isCall = false) :
          ∀ c ∈ (q :: later).dropLast, c.op.isCall = false := by
        cases later with
        | nil => simp
        | cons => exact forall_mem_cons.2 ⟨call, calls⟩
      rw [ofPiece, filter_cons]
      split
      · exact front _ (ih chain)
      · exact ih chain

/-- The label of each segment, generated where the code has none. -/
def names (segments : List Segment) (s : Supply) : List Label × Supply := Build.names (segments.map (·.label)) s

theorem names_cons (g : Segment) (rest : List Segment) (s : Supply) : names (g :: rest) s =
      let more := names rest (if g.label.isSome then s else (s.fresh blockStem).2)
      (g.label.getD (s.fresh blockStem).1 :: more.1, more.2) := by
  simp only [names, map_cons, Build.names]
  cases g.label <;> rfl

/-- The blocks of the segments from index `k` on. -/
def blocks (f : Function) (labels : List Label) : Nat → List Segment → Except Failure (List Block)
  | _, [] => pure []
  | k, s :: rest => do
    let next := if rest.isEmpty then none else some (k + 1)
    let tail ← Build.tail f labels next s.stop
    let more ← blocks f labels (k + 1) rest
    pure ({ label := labels.getD k "", body := s.body, tail } :: more)

end Segment

namespace Function

/-- The segments of a function; one without code has an empty one. -/
def segments (f : Function) : List Segment := f.pieces.map .ofPiece

variable (f : Function)

theorem segments_eq {f : Function} (nonempty : f.quads ≠ []) : f.segments = Segment.split f.quads := by
  rw [segments, pieces, if_neg (mt List.isEmpty_iff.1 nonempty), Segment.split]

theorem segments_of_nil {f : Function} (empty : f.quads = []) : f.segments = [{}] := by
  rw [segments, pieces, if_pos (isEmpty_iff.2 empty)]
  rfl

theorem segments_ne_nil : f.segments ≠ [] := by
  by_cases empty : f.quads = []
  · simp [segments_of_nil empty]
  · exact segments_eq empty ▸ Segment.split_ne_nil empty

theorem isChain_of_mem_pieces {f : Function} (member : piece ∈ f.pieces) : piece.IsChain (·.together ·) := by
  unfold pieces at member
  split at member
  · rw [mem_singleton.1 member]
    exact .nil
  · exact isChain_of_mem_splitBy member

theorem label?_pieces : f.pieces.map Build.label? = f.segments.map (·.label) := by
  rw [segments, map_map]
  rfl

/-- Blocks are made of pieces as of segments. -/
theorem blocks_pieces (labels : List Label) :
    Build.blocks f labels 0 f.pieces = Segment.blocks f labels 0 f.segments := by
  have chains : ∀ piece ∈ f.pieces, piece.IsChain (·.together ·) := fun _ => isChain_of_mem_pieces
  rw [segments]
  generalize f.pieces = pieces at chains
  generalize 0 = k
  induction pieces generalizing k with
  | nil => rfl
  | cons piece pieces ih =>
    obtain ⟨chain, chains⟩ := forall_mem_cons.1 chains
    simp only [map_cons, Build.blocks, Segment.blocks, Segment.scan_piece chain, ih chains, bind_map_left, isEmpty_map]

end Function

end Quadcode
