import Quadcode.Graph.Basic

/-!
# Changing code block by block

Passes within a block go through its quadruples with a state that starts afresh in every block, and
count the changes.
-/

namespace Quadcode

/-- Transforms quadruples from the first to the last. -/
def transformBody {σ : Type} (step : σ → Quad → Quad × σ × Nat) :
    σ → List Quad → List Quad × σ × Nat
  | s, [] => ([], s, 0)
  | s, q :: rest =>
    let (q, s, n) := step s q
    let (rest, s, k) := transformBody step s rest
    (q :: rest, s, n + k)

namespace Graph

/-- Transforms every laid-out block. -/
def transformBlocks (f : Block → Block × Nat) (g : Graph) : Graph × Nat :=
  g.layout.foldl (fun (g, n) b =>
    let (block, k) := f (g.block b)
    (g.modifyBlock b fun _ => block, n + k)) (g, 0)

end Graph

end Quadcode
