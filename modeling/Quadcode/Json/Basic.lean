import Quadcode.Double

/-!
# JSON values as written

A value keeps what its consumer may still have to judge: the literal of a number, every field of an
object in order, repeated names included, and texts whose escapes name half of a surrogate pair.
`Json.Number` gives the two readings of a literal, as an integer and as a binary64 number.
-/

namespace Quadcode

namespace Json

/-- A number literal by its digits. -/
structure Number where
  negative : Bool
  whole : List Nat
  fraction : List Nat
  /-- Whether the literal has a point. -/
  pointed : Bool
  /-- Sign and digits of the exponent. -/
  exponent : Option (Bool × List Nat)
  deriving DecidableEq, Repr, Inhabited

namespace Number

/-- A literal without point and exponent, as an integer. The literal `-0` is no integer: its value
is the negative zero of the binary64 numbers. -/
def toInt? (n : Number) : Option Int :=
  if n.pointed ∨ n.exponent.isSome then none
  else
    let magnitude : Nat := n.whole.foldl (fun acc d => acc * 10 + d) 0
    if n.negative then
      if magnitude = 0 then none else some (-(magnitude : Int))
    else some magnitude

/-- The leading digits of a literal that fit in 64 bits. -/
structure Leading where
  value : Nat
  /-- Whether a digit has been left out. -/
  full : Bool
  /-- Digits that were taken. -/
  taken : Nat
  /-- Digits that were left out. -/
  dropped : Nat

/-- Takes the next digit unless the value would leave 64 bits; after that no digit is taken. -/
def Leading.push (s : Leading) (d : Nat) : Leading :=
  if s.full || s.value * 10 + d ≥ 18446744073709551616 then
    { s with full := true, dropped := s.dropped + 1 }
  else { s with value := s.value * 10 + d, taken := s.taken + 1 }

/-- `f * 10 ^ e` in binary64 arithmetic: one multiplication or division by a power of ten, after
divisions by `10 ^ 308` for exponents further down. None where the result is infinite. -/
def scaled : (fuel : Nat) → Float → Int → Option Float
  | 0, f, _ => some f
  | fuel + 1, f, e =>
    if e.natAbs ≤ 308 then
      let power := Float.ofScientific 1 false e.natAbs
      if e ≥ 0 then
        let r := f * power
        if r.isInf then none else some r
      else some (f / power)
    else if f == 0.0 then some f
    else if e ≥ 0 then none
    else scaled fuel (f / Float.ofScientific 1 false 308) (e + 308)

/-- The exponent as a number, held within 32 bits; none when it does not fit. -/
def exponentValue? (digits : List Nat) : Option Nat :=
  digits.foldl (fun acc d => acc.bind fun n =>
    if n * 10 + d ≥ 2147483648 then none else some (n * 10 + d)) (some 0)

def clampExponent (e : Int) : Int := max (-2147483648) (min 2147483647 e)

/-- The binary64 reading: the leading digits that fit in 64 bits, scaled by a power of ten in
binary64 arithmetic. None where the magnitude is too large. -/
def toDouble? (n : Number) : Option Double :=
  let signed (f : Float) : Double := Double.ofFloat (if n.negative then -f else f)
  let whole := n.whole.foldl Leading.push ⟨0, false, 0, 0⟩
  let all := n.fraction.foldl Leading.push { whole with full := false, taken := 0 }
  let start : Int := (whole.dropped : Int) - all.taken
  let significand := all.value.toUInt64.toFloat
  match n.exponent with
  | none => (scaled 12 significand start).map signed
  | some (down, digits) =>
    match exponentValue? digits with
    | none => if all.value ≠ 0 ∧ ¬ down then none else some (signed 0.0)
    | some e =>
      let total := clampExponent (if down then start - e else start + e)
      (scaled (total.natAbs / 308 + 2) significand total).map signed

end Number

end Json

/-- A JSON value. A text or a field name is `none` when an escape in it names a lone surrogate. -/
inductive Json where
  | null
  | bool (value : Bool)
  | num (literal : Json.Number)
  | str (text : Option String)
  | arr (items : List Json)
  | obj (fields : List (Option String × Json))
  deriving Inhabited

namespace Json

def toText? : Json → Option String
  | .str s => s
  | _ => none

def toBool? : Json → Option Bool
  | .bool b => some b
  | _ => none

def toInt? : Json → Option Int
  | .num n => n.toInt?
  | _ => none

/-- An integer within the given bounds, both included. -/
def toIntWithin? (low high : Int) (j : Json) : Option Int :=
  j.toInt?.filter fun i => low ≤ i && i ≤ high

def toInt32? (j : Json) : Option Int32 :=
  (j.toIntWithin? (-2147483648) 2147483647).map Int32.ofInt

/-- A count or an index: at most 64 bits. -/
def toSize? (j : Json) : Option Nat :=
  (j.toIntWithin? 0 18446744073709551615).map Int.toNat

def toDouble? : Json → Option Double
  | .num n => n.toDouble?
  | _ => none

def toList? : Json → Option (List Json)
  | .arr items => some items
  | _ => none

def toFields? : Json → Option (List (Option String × Json))
  | .obj fields => some fields
  | _ => none

/-- The field of an object with a name, the last one if it is repeated. -/
def field? (j : Json) (name : String) : Option Json :=
  match j with
  | .obj fields => (fields.reverse.find? (·.1 == some name)).map (·.2)
  | _ => none

end Json

end Quadcode
