import Quadcode.Decimal.Basic

/-!
# The fewest digits that read back

A positive binary number `m * 2 ^ q` is what a reader that rounds to nearest returns for a whole
interval of reals. `shortest` finds the coarsest decimal grid with a point in that interval and the
point of it that is nearest to the number.
-/

namespace Quadcode.Decimal

/-- A number and the two ends of the reals that round to it, in units of `2 ^ (q - 2)`. -/
structure Rounding where
  value : Nat
  low : Nat
  high : Nat
  /-- Whether the ends themselves round to the number. -/
  closed : Bool
  /-- `q - 2`. -/
  scale : Int
  deriving DecidableEq, Repr

/-- The interval of `m * 2 ^ q`. `narrow` says that the neighbour below is half as far away as the
one above, which is so at a power of two. -/
def Rounding.of (m : Nat) (q : Int) (narrow : Bool) : Rounding where
  value := 4 * m
  low := 4 * m - (if narrow then 1 else 2)
  high := 4 * m + 2
  closed := m % 2 = 0
  scale := q - 2

/-- `10 ^ k` and `2 ^ scale` on one side each: `n * 2 ^ scale` against `d * 10 ^ k` is
`n * left` against `d * right`. -/
def sides (scale k : Int) : Nat × Nat :=
  (Nat.pow 10 (-k).toNat <<< scale.toNat, Nat.pow 10 k.toNat <<< (-scale).toNat)

/-- Whether `d * 10 ^ k` rounds to the number. -/
def Rounding.holds (r : Rounding) (k : Int) (d : Nat) : Bool :=
  let (left, right) := sides r.scale k
  if r.closed then r.low * left ≤ d * right && d * right ≤ r.high * left
  else r.low * left < d * right && d * right < r.high * left

/-- The nearest point of the grid `10 ^ k` that rounds to the number; the upper one of a tie. -/
def Rounding.onGrid? (r : Rounding) (k : Int) : Option Nat :=
  let (left, right) := sides r.scale k
  let below := r.value * left / right
  let above := below + 1
  match r.holds k below, r.holds k above with
  | false, false => none
  | true, false => some below
  | false, true => some above
  | true, true =>
    if r.value * left - below * right < above * right - r.value * left then some below
    else some above

/-- The digits `d` and the exponent `k` of `d * 10 ^ k`, the shortest numeral of `m * 2 ^ q`. -/
def shortest (m : Nat) (q : Int) (narrow : Bool) : Nat × Int :=
  let r := Rounding.of m q narrow
  let (left, right) := sides r.scale 0
  let top := leadingExponent (r.value * left) right
  let found := (List.range 17).findSome? fun (i : Nat) =>
    (r.onGrid? (top - i)).map fun d => (d, top - (i : Int))
  match found with
  | some (d, k) => stripZeros 20 d k
  | none => (0, 0)

end Quadcode.Decimal
