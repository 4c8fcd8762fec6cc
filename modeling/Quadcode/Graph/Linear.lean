import Quadcode.Graph.Basic

/-!
# Back to flat code

Each laid-out block becomes its label, its body and the jumps its tail needs where control does not
run on into the next block.
-/

namespace Quadcode.Graph

/-- The control quadruples for a tail in front of the block `next`. -/
def tailQuads (g : Graph) (next : Option BlockId) : Tail → List Quad
  | .jump b | .fall b => goto b
  | .branch c x y t f =>
    if some t = next then [.effect (.jumpIfNot c x y (g.label f))]
    else .effect (.jumpIf c x y (g.label t)) :: goto f
  | .ret x => [.effect (.ret x)]
where
  goto (b : BlockId) : List Quad := if some b = next then [] else [.effect (.goto (g.label b))]

/-- The code of the blocks in order. -/
def linearFrom (g : Graph) : List BlockId → List Quad
  | [] => []
  | b :: rest =>
    .effect (.label (g.label b)) :: g.body b ++ g.tailQuads rest.head? (g.tail b) ++
      g.linearFrom rest

def linearize (g : Graph) : List Quad := g.linearFrom g.layout

def toFunction (g : Graph) : Function where
  name := g.name
  ret := g.ret
  vars := g.vars
  params := g.params
  quads := g.linearize

def text (g : Graph) : String := g.toFunction.text

end Quadcode.Graph
