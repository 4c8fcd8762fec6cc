import Quadcode.Json.Basic

/-!
# Records and choices in JSON

A record is an object with named fields, or a list of its fields in order. Unknown fields are
skipped; a known field may not be repeated. A choice is the bare name of an alternative without
data, or an object whose only field is the alternative's name with its data.
-/

namespace Quadcode.Json

/-- The first item filed under a name, unless there are two. -/
def uniqueField? (fields : List (String × Json)) (name : String) : Option (Option Json) :=
  match fields.filter (·.1 == name) with
  | [] => some none
  | [(_, item)] => some (some item)
  | _ => none

/-- The items of a record in the order of `names`, each absent or present. -/
def record? (names : List String) (j : Json) : Option (List (Option Json)) :=
  match j with
  | .obj fields => do
    let fields ← fields.mapM fun (name, item) => name.map (·, item)
    names.mapM (uniqueField? fields)
  | .arr items =>
    if items.length ≤ names.length then
      some (items.map some ++ List.replicate (names.length - items.length) none)
    else none
  | _ => none

/-- The name of an alternative and its data. -/
def choice? : Json → Option (String × Option Json)
  | .str (some name) => some (name, none)
  | .obj [(some name, data)] => some (name, some data)
  | _ => none

/-- Data of an alternative that carries none. -/
def isBare : Option Json → Bool
  | none | some .null => true
  | _ => false

/-- A value that may be null. -/
def nullable? {α : Type} (read : Json → Option α) : Json → Option (Option α)
  | .null => some none
  | j => (read j).map some

/-- A list all of whose items can be read. -/
def listOf? {α : Type} (read : Json → Option α) (j : Json) : Option (List α) :=
  j.toList?.bind (·.mapM read)

end Quadcode.Json
