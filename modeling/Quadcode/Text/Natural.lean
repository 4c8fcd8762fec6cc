/-!
# Natural numbers in decimal
-/

namespace Quadcode.Text

/-- A number below a limit: decimal digits, perhaps behind a plus sign. -/
def natural? (limit : Nat) (text : List Char) : Option Nat :=
  let digits := match text with
    | '+' :: rest => rest
    | chars => chars
  if digits.isEmpty || !digits.all Char.isDigit then none
  else
    let n := digits.foldl (fun n c => 10 * n + (c.toNat - '0'.toNat)) 0
    if n < limit then some n else none

end Quadcode.Text
