import Quadcode.Decimal.Format
import Quadcode.Sorting
import Quadcode.Supply

/-!
# Float literals

Float literals stand in the data section. Each bit pattern has one label, which is generated when
the literal is first asked for.
-/

namespace Quadcode.X86

structure FloatPool where
  entries : List (Double × Label) := []
  deriving DecidableEq, Repr, Inhabited

namespace FloatPool

def empty : FloatPool := {}

def size (p : FloatPool) : Nat := p.entries.length

def label? (p : FloatPool) (x : Double) : Option Label := p.entries.lookup x

/-- The label of a literal, which is added if it is new. -/
def intern (p : FloatPool) (x : Double) (s : Supply) : Label × FloatPool × Supply :=
  match p.label? x with
  | some label => (label, p, s)
  | none =>
    let (label, s) := s.fresh floatStem
    (label, ⟨p.entries ++ [(x, label)]⟩, s)

/-- The literals in the order of their labels. -/
def toList (p : FloatPool) : List (Label × Double) :=
  sortBy (fun a b => a.1 ≤ b.1) (p.entries.map fun (x, label) => (label, x))

end FloatPool

end Quadcode.X86
