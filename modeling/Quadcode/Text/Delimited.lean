/-!
# Delimited lists

Items one after the other, a separator between neighbours, and one text on each side.
-/

namespace Quadcode.Text

/-- `left`, the items with `separator` between each two, `right`. -/
def delimited (left separator right : String) (items : List String) : String :=
  left ++ separator.intercalate items ++ right

/-- Every item on a line of its own, the last one included. -/
def lines (items : List String) : String :=
  String.join (items.map (· ++ "\n"))

end Quadcode.Text
