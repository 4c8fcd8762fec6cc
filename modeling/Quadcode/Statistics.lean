import Quadcode.Text.Delimited
import Quadcode.Ty
import Std.Data.ExtTreeMap

/-!
# Counters

Named counters that tell how often something was done. A counter exists from its first addition on,
also when nothing was added.
-/

namespace Quadcode

structure Statistics where
  counters : Std.ExtTreeMap String Nat := ∅
  deriving DecidableEq

namespace Statistics

def empty : Statistics := {}

def get (s : Statistics) (name : String) : Nat := s.counters[name]?.getD 0

def add (s : Statistics) (name : String) (n : Nat) : Statistics :=
  ⟨s.counters.insert name (s.get name + n)⟩

/-- Adds every counter of `other`. -/
def merge (s other : Statistics) : Statistics :=
  other.counters.foldl (fun s name n => s.add name n) s

/-- The counters in the order of their names. -/
def toList (s : Statistics) : List (String × Nat) := s.counters.toList

def isEmpty (s : Statistics) : Bool := s.counters.isEmpty

/-- Whether every counter fits a word. -/
def fits (s : Statistics) : Bool := s.toList.all fun c => c.2 < wordLimit

/-- One line for each counter. The column of names is as many characters wide as the longest name
has bytes. -/
def text (s : Statistics) : String :=
  let width := s.toList.foldl (fun w c => max w c.1.utf8ByteSize) 0
  Text.lines (s.toList.map fun (name, n) =>
    name.pushn ' ' (width - name.length) ++ "  " ++ toString n)

end Statistics

end Quadcode
