import Quadcode.Flow.Dominators
import Quadcode.Sorting

/-!
# Natural loops

An edge to a block that dominates its source closes a loop. Loops with one header are one loop.
-/

namespace Quadcode

structure Loop where
  header : BlockId
  blocks : BlockSet
  /-- Sources of the edges back to the header. -/
  latches : List BlockId
  /-- 1 for an outermost loop. -/
  depth : Nat := 0
  /-- The smallest loop around this one, by its number. -/
  parent : Option Nat := none

namespace Loop

variable (l : Loop) (g : Graph)

def contains (b : BlockId) : Bool := b ∈ l.blocks

def blocksInLayout : List BlockId := g.layout.filter l.contains

/-- Edges that leave the loop. -/
def exits : List (BlockId × BlockId) :=
  (l.blocksInLayout g).flatMap fun b =>
    ((g.succs b).filter fun s => !l.contains s).map (b, ·)

def outsidePreds : List BlockId := (g.preds l.header).filter fun p => !l.contains p

/-- The only block from which the loop is entered, if it leads nowhere else. -/
def preheader? : Option BlockId :=
  match l.outsidePreds g with
  | [p] => if g.succs p = [l.header] then some p else none
  | _ => none

end Loop

structure Loops where
  loops : Array Loop := #[]

namespace Loops

/-- The header and the blocks that reach the latch without passing through it. -/
def naturalLoop (g : Graph) (header latch : BlockId) : BlockSet :=
  (Walk.visit g.preds (g.blocks.size + 1) latch { entered := (∅ : BlockSet).insert header }).entered

/-- Adds the loop of one edge back to a header. -/
def addEdge (g : Graph) (loops : Array Loop) (header latch : BlockId) : Array Loop :=
  let body := naturalLoop g header latch
  match loops.findIdx? (·.header == header) with
  | some i => loops.modify i fun l =>
    { l with blocks := l.blocks ∪ body, latches := l.latches ++ [latch] }
  | none => loops.push { header, blocks := body, latches := [latch] }

/-- The smallest of the loops strictly around loop `i`; the first of several. -/
def parent? (loops : Array Loop) (i : Nat) : Option Nat :=
  match loops[i]? with
  | none => none
  | some inner =>
    (List.range loops.size).foldl (fun best j =>
      match loops[j]? with
      | none => best
      | some outer =>
        if j ≠ i ∧ outer.contains inner.header ∧ inner.blocks.size < outer.blocks.size then
          match best.bind (loops[·]?) with
          | some b => if outer.blocks.size < b.blocks.size then some j else best
          | none => some j
        else best) none

def depthFrom (parents : Array (Option Nat)) : (steps : Nat) → Option Nat → Nat
  | 0, _ | _, none => 0
  | steps + 1, some i => depthFrom parents steps (parents.getD i none) + 1

def detect (g : Graph) (d : Dominators) : Loops :=
  let loops := d.order.foldl (fun loops b =>
    (g.succs b).foldl (fun loops h =>
      if d.dominates h b then addEdge g loops h b else loops) loops) #[]
  let parents := (Array.range loops.size).map (parent? loops)
  ⟨loops.mapIdx fun i l =>
    { l with
      parent := parents.getD i none
      depth := depthFrom parents loops.size (some i) }⟩

variable (s : Loops)

def toList : List Loop := s.loops.toList

/-- The loops by descending depth; those of one depth keep their order. -/
def innermostFirst : List Loop :=
  sortBy (fun a b => b.depth ≤ a.depth) s.toList

/-- Nesting depth of a block, 0 outside every loop. -/
def depthOf (b : BlockId) : Nat :=
  (s.toList.filter (·.contains b)).foldl (fun n l => max n l.depth) 0

end Loops

def Graph.dominators (g : Graph) : Except Failure Dominators := Dominators.compute g

end Quadcode
