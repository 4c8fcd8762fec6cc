import Quadcode.Ty

/-!
# String literals

A pool only grows. A text that is in it already keeps its label; a new one gets a label made of the
pool's size. Labels are looked up in an index, texts among the entries.
-/

namespace Quadcode

structure StringPool where
  /-- Labels and texts in order of entry. -/
  entries : List (Label × String) := []
  index : List (String × Label) := []
  /-- The index holds the label under which a text was entered first. -/
  index_eq (text : String) : index.lookup text = (entries.find? (·.2 == text)).map (·.1) := by simp
  deriving DecidableEq, Repr

namespace StringPool

instance : Inhabited StringPool := ⟨{}⟩

def empty : StringPool := {}

def size (p : StringPool) : Nat := p.entries.length

def isEmpty (p : StringPool) : Bool := p.entries.isEmpty

/-- Enters a text under a label, whether or not either is there already. -/
def insert (p : StringPool) (label : Label) (text : String) : StringPool where
  entries := p.entries ++ [(label, text)]
  index := if (p.index.lookup text).isSome then p.index else p.index ++ [(text, label)]
  index_eq other := by
    have old := p.index_eq other
    rw [List.find?_append]
    cases found : p.entries.find? (·.2 == other) with
    | some e =>
      rw [found] at old
      split <;> simp [List.lookup_append, old]
    | none =>
      rw [found] at old
      by_cases same : text = other
      · subst same
        simp [List.lookup_append, old]
      · have unlike : (other == text) = false := by simpa using Ne.symm same
        split <;> simp [List.lookup_append, List.lookup_cons, old, same, unlike]

def ofList (entries : List (Label × String)) : StringPool :=
  entries.foldl (fun p e => p.insert e.1 e.2) empty

/-- The label under which a text was entered first. -/
def label? (p : StringPool) (text : String) : Option Label := p.index.lookup text

/-- The text that was entered first under a label. -/
def get? (p : StringPool) (label : Label) : Option String :=
  (p.entries.find? (·.1 == label)).map (·.2)

/-- The label of a text, which is entered if it is new. -/
def intern (p : StringPool) (text : String) : Label × StringPool :=
  match p.label? text with
  | some label => (label, p)
  | none =>
    let label := "__str" ++ toString p.size
    (label, p.insert label text)

end StringPool

end Quadcode
