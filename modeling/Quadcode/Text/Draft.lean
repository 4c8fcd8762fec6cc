/-!
# Drafts

Text that is written piece by piece. A piece that cannot be written ends the draft: what stands
before it stays, and nothing comes after it.
-/

namespace Quadcode.Text

structure Draft where
  /-- What has been written. -/
  text : String
  /-- Whether nothing is missing. -/
  complete : Bool
  deriving DecidableEq, Repr, Inhabited

namespace Draft

/-- A text that can be written. -/
def whole (s : String) : Draft := ⟨s, true⟩

/-- A piece that cannot be written. -/
def broken : Draft := ⟨"", false⟩

instance : Coe String Draft := ⟨whole⟩

/-- The second draft goes on where the first one ends, unless that one broke off. -/
def append (a b : Draft) : Draft :=
  match a with
  | ⟨s, true⟩ => ⟨s ++ b.text, b.complete⟩
  | ⟨s, false⟩ => ⟨s, false⟩

instance : Append Draft := ⟨append⟩

/-- The drafts one after the other. -/
def concat (drafts : List Draft) : Draft := drafts.foldl append (whole "")

/-- Every draft on a line of its own, the last one included. -/
def lines (drafts : List Draft) : Draft := concat (drafts.map (· ++ whole "\n"))

/-- The text, if nothing is missing. -/
def text? (d : Draft) : Option String := if d.complete then some d.text else none

theorem append_def (a b : Draft) : a ++ b = append a b := rfl

theorem broken_append (d : Draft) : broken ++ d = broken := rfl

theorem append_assoc (a b c : Draft) : a ++ b ++ c = a ++ (b ++ c) := by
  obtain ⟨s, _ | _⟩ := a <;> obtain ⟨t, _ | _⟩ := b <;>
    simp [append_def, append, String.append_assoc]

/-- A draft in two parts is complete if both parts are. -/
theorem text?_append (a b : Draft) : (a ++ b).text? = a.text?.bind fun s => b.text?.map (s ++ ·) := by
  obtain ⟨s, _ | _⟩ := a <;> obtain ⟨t, _ | _⟩ := b <;> rfl

@[simp]
theorem complete_append (a b : Draft) : (a ++ b).complete = (a.complete && b.complete) := by
  obtain ⟨s, _ | _⟩ := a <;> rfl

theorem complete_concat (drafts : List Draft) : (concat drafts).complete = drafts.all (·.complete) := by
  have later (d : Draft) : (drafts.foldl append d).complete = (d.complete && drafts.all (·.complete)) := by
    induction drafts generalizing d with
    | nil => simp
    | cons e rest ih => rw [List.foldl_cons, ih, ← append_def, complete_append, List.all_cons, Bool.and_assoc]
  simpa [concat, whole] using later (whole "")

/-- Lines are complete if each of them is. -/
theorem complete_lines (drafts : List Draft) : (lines drafts).complete = drafts.all (·.complete) := by
  simp [lines, complete_concat, whole, Function.comp_def]

theorem text?_isSome (d : Draft) : d.text?.isSome = d.complete := by
  cases h : d.complete <;> simp [text?, h]

end Draft

end Quadcode.Text
