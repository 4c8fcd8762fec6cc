import Quadcode.Ty

/-!
# Generated names

One counter numbers all generated names, whatever their stem, so no two of them are equal.
-/

namespace Quadcode

structure Supply where
  next : Nat := 0
  deriving DecidableEq, Repr, Inhabited

/-- The next name with a stem. -/
def Supply.fresh (stem : String) (s : Supply) : Label × Supply :=
  (stem ++ toString s.next, ⟨s.next + 1⟩)

/-- Stem of the labels of blocks that the front end did not name. -/
def blockStem : String := ".B"

/-- Stem of the names of temporaries. -/
def temporaryStem : String := "T"

/-- Stem of the labels of float literals. -/
def floatStem : String := "__float"

end Quadcode
