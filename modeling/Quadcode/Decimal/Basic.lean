/-!
# Decimal numerals

Digit strings of natural numbers, and where the first digit of a positive ratio stands.
-/

namespace Quadcode.Decimal

def digits (n : Nat) : String := String.ofList (Nat.toDigits 10 n)

def digitCount (n : Nat) : Nat := (Nat.toDigits 10 n).length

/-- The `e` with `10 ^ e ≤ num / den < 10 ^ (e + 1)`, for positive `num` and `den`. -/
def leadingExponent (num den : Nat) : Int :=
  if den ≤ num then digitCount (num / den) - 1
  else -(digitCount ((den + num - 1) / num - 1) : Int)

/-- Drops the zeros at the end of a numeral, counting them. -/
def stripZeros : (fuel : Nat) → Nat → Int → Nat × Int
  | 0, n, e => (n, e)
  | fuel + 1, n, e => if n ≠ 0 ∧ n % 10 = 0 then stripZeros fuel (n / 10) (e + 1) else (n, e)

end Quadcode.Decimal
