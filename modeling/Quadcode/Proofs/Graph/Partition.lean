import Quadcode.Proofs.Graph.Normal

/-!
# The blocks of a function

The blocks of a built graph are the pieces of the code, one after the other: nothing of the code is lost, doubled or
moved, whatever part of it control can reach.
-/

namespace Quadcode

open List Segment

namespace Graph

variable {g : Graph} {f : Function} {s s' : Supply}

/-- Where control comes to no other blocks, those of the layout that it comes to stay. -/
theorem Inside.liveLayout_of_all (inside : g.Inside) (all : ∀ b, g.Reaches g.entry b → b ∈ g.layout) :
    g.liveLayout = g.layout.filter (· ∈ (.ofList g.reversePostorder : BlockSet)) := by
  have none : g.reversePostorder.filter (· ∉ (.ofList (g.layout.filter
      (· ∈ (.ofList g.reversePostorder : BlockSet))) : BlockSet)) = [] := by
    rw [filter_eq_nil_iff]
    intro b member
    simpa [member] using all b (inside.mem_reversePostorder.1 member)
  rw [liveLayout, none, append_nil]

/-- The block of a segment, in the order of the segments. -/
theorem build_segments (built : build f s = .ok (g, s')) :
    g.blocks.size = f.segments.length ∧ ∀ (k : Nat) (seg : Segment),
      f.segments[k]? = some seg → g.body k = seg.body ∧ ∀ l, seg.label = some l → g.label k = l := by
  have renders := build_renders built
  have bodies (k : Nat) (seg : Segment) (found : f.segments[k]? = some seg) : g.body k = seg.body := by
    obtain ⟨bound, here⟩ := List.getElem?_eq_some_iff.1 found
    have whole : f.segments.take k ++ seg :: f.segments.drop (k + 1) = f.segments := by
      rw [← here, getElem_cons_drop, take_append_drop]
    have body := (renders.block _ _ _ whole).1
    rwa [length_take_of_le (Nat.le_of_lt bound)] at body
  obtain ⟨bs, -, success, rfl, -⟩ := build_cases built
  have size := Build.blocks_length success
  refine ⟨(relink_size _).trans (size_toArray.trans size), fun k seg found => ⟨bodies k seg found, ?_⟩⟩
  intro l label
  have bound : k < bs.length := size ▸ (List.getElem?_eq_some_iff.1 found).1
  have named := blocks_label success (names_length ..) bound
  rw [names_of_label found label] at named
  rw [relink_label]
  exact (Option.some.inj named).symm

/-- The layout of a built graph is a part of the order in which its blocks were made. -/
theorem build_layout_sublist (built : build f s = .ok (g, s')) : g.layout.Sublist (List.range g.blocks.size) := by
  have linked := build_linked built
  obtain ⟨bs, -, success, rfl, -⟩ := build_cases built
  have inside := linked.inside
  simp only [Inside, relink_reaches, relink_entry, relink_size] at inside
  rw [relink_layout, relink_size, Inside.liveLayout_of_all inside fun b path => by simpa using inside b path]
  simp

/-- The block of a piece, in the order of the pieces. -/
theorem build_pieces (built : build f s = .ok (g, s')) : g.blocks.size = f.pieces.length ∧
    ∀ (k : Nat) (piece : List Quad), f.pieces[k]? = some piece → g.body k = piece.filter (!·.op.isControl) ∧
        (∀ q ∈ piece.head?, ∀ l, q.op = .label l → g.label k = l) ∧
        ∀ q ∈ (g.body k).dropLast, q.op.isCall = false := by
  obtain ⟨size, blocks⟩ := build_segments built
  refine ⟨size.trans (length_map _), fun k piece found => ?_⟩
  have segment : f.segments[k]? = some (.ofPiece piece) := by
    rw [Function.segments, List.getElem?_map, found, Option.map_some]
  obtain ⟨body, label⟩ := blocks k _ segment
  refine ⟨body, fun q first l op => label l ?_, fun q member => ?_⟩
  · rw [ofPiece, Build.label?, first, Option.bind_some, Op.label?_eq_some.2 op]
  · exact calls (Function.isChain_of_mem_pieces (mem_of_getElem? found)) q (body ▸ member)

/-- Building cuts the code into pieces, one for each block. The blocks hold the code but for its labels, jumps
and returns, in the order of the code; a block carries the label that its piece starts with, and no code follows
a call in its block. The layout lists the blocks that control can reach from the first one, in the order in
which they were made. -/
theorem build_partitions (built : build f s = .ok (g, s')) :
    g.blocks.toList.flatMap (·.body) = f.quads.filter (!·.op.isControl) ∧
      (g.layout.Sublist (List.range g.blocks.size) ∧ ∀ b, b ∈ g.layout ↔ g.Reaches 0 b) ∧
      (f.pieces.flatten = f.quads ∧ g.blocks.size = f.pieces.length ∧
        ∀ (k : Nat) (piece : List Quad), f.pieces[k]? = some piece → g.body k = piece.filter (!·.op.isControl) ∧
            ∀ q ∈ piece.head?, ∀ l, q.op = .label l → g.label k = l) ∧
      ∀ k, ∀ q ∈ (g.body k).dropLast, q.op.isCall = false := by
  obtain ⟨size, pieces⟩ := build_pieces built
  have renders := build_renders built
  have bodies : g.blocks.toList.map (·.body) = f.pieces.map (List.filter (!·.op.isControl)) := by
    refine ext_getElem (by simp [size]) fun k bound bound' => ?_
    rw [length_map] at bound bound'
    have body := (pieces k _ (getElem?_eq_getElem bound')).1
    rw [List.getElem_map, List.getElem_map, ← body, Graph.body, Graph.block, Array.getD_eq_getD_getElem?,
      Array.getElem?_eq_getElem bound]
    rfl
  refine ⟨?_, ⟨build_layout_sublist built, fun b => ?_⟩, ⟨f.flatten_pieces, size, fun k piece found => ?_⟩, ?_⟩
  · rw [List.flatMap_def, bodies, ← List.filter_flatten, f.flatten_pieces]
  · rw [(build_linked built).mem_layout, renders.entry]
  · obtain ⟨body, label, -⟩ := pieces k piece found
    exact ⟨body, label⟩
  · intro k q member
    by_cases bound : k < f.pieces.length
    · exact (pieces k _ (getElem?_eq_getElem bound)).2.2 q member
    · have past : g.blocks.size ≤ k := size ▸ Nat.le_of_not_lt bound
      have missing : g.body k = [] := by
        rw [Graph.body, Graph.block, Array.getD_eq_getD_getElem?, Array.getElem?_eq_none past]
        rfl
      simp [missing] at member

end Graph

/-- Two labels at one place, code that control cannot reach, and a call at the end. -/
def slicing : Function where
  name := "slicing"
  vars := #[.declare "n" .int .param]
  params := [0]
  quads := [
    .effect (.label "first"),
    .effect (.label "second"),
    ⟨some 0, .call "less" [.var 0]⟩,
    .effect (.print (.var 0)),
    .effect (.goto "last"),
    .effect .printLine,
    .effect (.label "last"),
    .effect (.print (.var 0)),
    .effect (.call "less" [.var 0])]

theorem slicing_partitions : Graph.build slicing {} = .ok (slicing.graph, ⟨2⟩) ∧
    slicing.pieces.length = 5 ∧ slicing.graph.label 1 = "second" ∧ slicing.graph.layout = [0, 1, 2, 4] ∧
    slicing.graph.blocks.toList.flatMap (·.body) = slicing.quads.filter (!·.op.isControl) ∧
    ∀ k, ∀ q ∈ (slicing.graph.body k).dropLast, q.op.isCall = false := by
  have built : Graph.build slicing {} = .ok (slicing.graph, ⟨2⟩) := by rfl
  have pieces : slicing.pieces.length = 5 := by decide +kernel
  have second : slicing.pieces[1]? = some [.effect (.label "second"), ⟨some 0, .call "less" [.var 0]⟩] := by
    decide +kernel
  obtain ⟨code, -, ⟨-, -, blocks⟩, calls⟩ := Graph.build_partitions built
  refine ⟨built, pieces, ?_, by decide +kernel, code, calls⟩
  exact (blocks 1 _ second).2 _ rfl "second" rfl

end Quadcode
