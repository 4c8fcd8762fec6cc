/-!
# Stable sorting

Insertion sort. Items of which neither has to precede the other keep their order.
-/

namespace Quadcode

variable {α : Type}

/-- Puts an item in front of the first that it may precede. -/
def insertBy (le : α → α → Bool) (a : α) : List α → List α
  | [] => [a]
  | b :: rest => if le a b then a :: b :: rest else b :: insertBy le a rest

def sortBy (le : α → α → Bool) (items : List α) : List α := items.foldr (insertBy le) []

theorem insertBy_perm (le : α → α → Bool) (a : α) (items : List α) : (insertBy le a items).Perm (a :: items) := by
  induction items with
  | nil => exact .refl _
  | cons b rest ih =>
    unfold insertBy
    split
    · exact .refl _
    · exact (ih.cons b).trans (.swap ..)

theorem sortBy_perm (le : α → α → Bool) (items : List α) : (sortBy le items).Perm items := by
  induction items with
  | nil => exact .refl _
  | cons a rest ih => exact (insertBy_perm le a _).trans (ih.cons a)

@[simp]
theorem mem_sortBy {le : α → α → Bool} {x : α} {items : List α} : x ∈ sortBy le items ↔ x ∈ items :=
  (sortBy_perm le items).mem_iff

end Quadcode
