import Quadcode.Flow.Liveness
import Quadcode.Flow.Loops

/-!
# Who gets a register

The priority of a variable is how often it is mentioned, where a mention counts ten times as much in
each inner loop, divided by the number of points where it is live. It is computed to 53 significant
bits, and variables whose priorities agree to that precision are taken in the order of their numbers.
-/

namespace Quadcode.Priority

/-- The nearest number of 53 significant bits, the even one of two. -/
def rounded (n : Nat) : Nat :=
  let surplus := n.log2 - 52
  Decimal.roundHalfEven n (1 <<< surplus) <<< surplus

/-- Multiplies `r` by a power, squaring as it goes. -/
def powerFrom (a r : Nat) : (steps n : Nat) → Nat
  | 0, _ => r
  | steps + 1, n =>
    let r := if n % 2 = 1 then rounded (r * a) else r
    if n / 2 = 0 then r else powerFrom (rounded (a * a)) r steps (n / 2)

/-- What one mention in a loop of some depth counts. -/
def mentionWeight (depth : Nat) : Nat := powerFrom 10 1 (depth + 1) depth

/-- The variables that a block mentions, each as often as it does. -/
def mentions (block : Block) : List VarId :=
  block.body.flatMap (fun q => q.uses ++ q.result.toList) ++ block.tail.uses

/-- A quotient as `significand * 2 ^ exponent`. Unless it is zero the significand has 53 bits. -/
structure Quotient where
  exponent : Int
  significand : Nat
  deriving DecidableEq, Repr

namespace Quotient

/-- The nearest quotient of two positive numbers, the even one of two. -/
def ofRatio (num den : Nat) : Quotient :=
  let low : Int := (num.log2 : Int) - den.log2 - 53
  let ratio (e : Int) : Nat × Nat := (num <<< (-e).toNat, den <<< e.toNat)
  let isWide (r : Nat × Nat) : Bool := r.2 <<< 53 ≤ r.1
  let e := if isWide (ratio low) then low + 1 else low
  let m := Decimal.roundHalfEven (ratio e).1 (ratio e).2
  if m = 1 <<< 53 then ⟨e + 1, 1 <<< 52⟩ else ⟨e, m⟩

/-- Compares quotients; zero is the least one. -/
def lt (p q : Quotient) : Bool :=
  if p.significand = 0 ∨ q.significand = 0 then p.significand < q.significand
  else p.exponent < q.exponent || (p.exponent = q.exponent && p.significand < q.significand)

end Quotient

structure Tally where
  weight : Std.ExtTreeMap VarId Nat := ∅
  points : Std.ExtTreeMap VarId Nat := ∅

namespace Tally

def mention (t : Tally) (w : Nat) (v : VarId) : Tally :=
  { t with weight := t.weight.insert v (rounded (t.weight[v]?.getD 0 + w)) }

def live (t : Tally) (v : VarId) : Tally :=
  { t with points := t.points.insert v (t.points[v]?.getD 0 + 1) }

def block (g : Graph) (problem : Problem VarSet) (s : Solution VarSet) (loops : Loops) (t : Tally)
    (b : BlockId) : Except Failure Tally := do
  let w := mentionWeight (loops.depthOf b)
  let t := (mentions (g.block b)).foldl (·.mention w ·) t
  let points ← problem.points g s b
  pure (points.foldl (fun t set => set.toList.foldl live t) t)

def priority (t : Tally) (v : VarId) : Quotient :=
  let w := t.weight[v]?.getD 0
  if w = 0 then ⟨0, 0⟩ else .ofRatio w (max (t.points[v]?.getD 0) 1)

end Tally

/-- Whether `a` with priority `p` comes before `b` with priority `q`, or they are the same. -/
def precedes (a b : VarId × Quotient) : Bool := b.2.lt a.2 || (!a.2.lt b.2 && a.1 ≤ b.1)

/-- The candidates by falling priority, then by their numbers. -/
def order (g : Graph) (s : Solution VarSet) (loops : Loops) (candidates : VarSet) :
    Except Failure (List VarId) := do
  let t ← g.layout.foldlM (Tally.block g (Liveness.problem g) s loops) {}
  let ranked := candidates.toList.map fun v => (v, t.priority v)
  pure ((sortBy precedes ranked).map (·.1))

end Quadcode.Priority
