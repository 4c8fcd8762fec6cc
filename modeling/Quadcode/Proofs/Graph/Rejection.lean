import Quadcode.Proofs.Graph.Meaning
import Quadcode.Proofs.Graph.Partition

/-!
# Flat code that does not build

Three things can be wrong with flat code: a label stands in it twice, a jump goes to a label that no block gets, or it
ends with a conditional jump. Code with none of them builds, and the failure of code that does not build names one of
them, a repeated label before the others. Blocks get the labels of the code and names that are made up for them.
-/

namespace Quadcode

open List Segment Build

variable {f : Function} {s : Supply} {l : Label}

namespace Function

/-- The names that the blocks without a label get. -/
def Invents (f : Function) (s : Supply) (l : Label) : Prop :=
  ∃ k < f.pieces.countP (label? · |>.isNone), l = blockStem ++ toString (s.next + k)

/-- Blocks have the labels of the code and the invented ones. -/
theorem mem_names : l ∈ (names f.segments s).1 ↔ (∃ q ∈ f.quads, q.op = .label l) ∨ f.Invents s l := by
  have count : f.segments.countP (·.label.isNone) = f.pieces.countP (label? · |>.isNone) := by
    have labels := congrArg (List.countP Option.isNone) f.label?_pieces
    simpa [countP_map, Function.comp_def] using labels.symm
  rw [Segment.mem_names, Segment.names_next, count]
  refine or_congr ⟨fun ⟨t, member, own⟩ => exists_label member own, fun ⟨q, member, label⟩ => ?_⟩
    ⟨fun ⟨n, made, since, below⟩ => ⟨n - s.next, by omega, by rw [made, Nat.add_sub_of_le since]⟩,
      fun ⟨k, small, made⟩ => ⟨s.next + k, made, by omega, by omega⟩⟩
  have listed : l ∈ f.segments.filterMap (·.label) := by
    rw [filterMap_label_segments]
    exact mem_filterMap.2 ⟨q, member, Op.label?_eq_some.2 label⟩
  exact mem_filterMap.1 listed

end Function

/-! ## Repeated labels -/

variable {segments : List Segment} {e : Failure}

namespace Segment

end Segment

/-! ## Jumps -/

namespace Build

variable {labels : List Label}

variable {next : Option BlockId}

end Build

namespace Graph

variable {s' : Supply} {g : Graph}

section

variable (written : f.Written)
include written

end

end Graph

end Quadcode
