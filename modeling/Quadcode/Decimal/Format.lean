import Quadcode.Decimal.Shortest
import Quadcode.Double

/-!
# Texts of binary64 numbers

`Double.text` writes the fewest digits that read back, positionally when the first digit stands
between the fourth place after the point and the sixteenth before it, and with an exponent
otherwise. `Double.fixed` writes six places, rounded to the nearest and to the even one of two.
-/

namespace Quadcode.Decimal

/-- Digits with the point `places` from the right end, one digit at least before it. -/
def withPoint (n places : Nat) : String :=
  let scale := Nat.pow 10 places
  let fraction := digits (n % scale)
  digits (n / scale) ++ "." ++ "".pushn '0' (places - fraction.length) ++ fraction

/-- `d * 10 ^ k` with a point and a digit after it. -/
def positional (d : Nat) (k : Int) : String :=
  if k ≥ 0 then digits (d * Nat.pow 10 k.toNat) ++ ".0" else withPoint d (-k).toNat

/-- `d * 10 ^ k` with one digit before the point and an exponent. -/
def scientific (d : Nat) (k : Int) : String :=
  let count := digitCount d
  let exponent := toString (k + count - 1)
  if count ≤ 1 then digits d ++ "e" ++ exponent
  else withPoint d (count - 1) ++ "e" ++ exponent

/-- The quotient `num / den` rounded to nearest, and to even when it is half way. -/
def roundHalfEven (num den : Nat) : Nat :=
  let q := num / den
  let r := num % den
  if 2 * r < den then q
  else if den < 2 * r then q + 1
  else if q % 2 = 0 then q else q + 1

end Quadcode.Decimal

namespace Quadcode.Double

def signText (x : Double) : String := if x.isNegative then "-" else ""

/-- The texts of what has no digits. -/
def specialText? (x : Double) : Option String :=
  if x.isNaN then some "NaN"
  else if x.isInfinite then some (x.signText ++ "inf")
  else none

/-- The fewest digits that read back. -/
def text (x : Double) : String :=
  match x.specialText? with
  | some s => s
  | none =>
    if x.significand = 0 then x.signText ++ "0.0"
    else
      let narrow := x.fractionField = 0 && x.exponentField > 1
      let (d, k) := Decimal.shortest x.significand x.scale narrow
      let leading := k + Decimal.digitCount d - 1
      x.signText ++
        (if -4 ≤ leading ∧ leading < 16 then Decimal.positional d k else Decimal.scientific d k)

/-- Six places after the point. -/
def fixed (x : Double) : String :=
  match x.specialText? with
  | some s => s
  | none =>
    let millionths := (x.significand * 1000000) <<< x.scale.toNat
    let n := Decimal.roundHalfEven millionths (1 <<< (-x.scale).toNat)
    x.signText ++ Decimal.withPoint n 6

/-- The bit pattern in sixteen hexadecimal digits; all NaN are one. -/
def pattern (x : Double) : String :=
  if x.isNaN then "NaN"
  else
    let d := String.ofList (Nat.toDigits 16 x.bits.toNat)
    "0x" ++ "".pushn '0' (16 - d.length) ++ d

end Quadcode.Double
