import Quadcode.Flow.Dataflow

/-!
# Dominators

A block dominates another when every path from the entry to the second passes through the first.
Blocks are numbered in reverse postorder here, and a set of them is a number with one bit for each
member.
-/

namespace Quadcode

structure Dominators where
  order : Array BlockId
  /-- The number of each block in `order`. -/
  index : BlockMap Nat
  /-- The set of dominators of each block, by its number. -/
  sets : Array Nat
  idoms : BlockMap BlockId
  frontiers : BlockMap BlockSet

namespace Dominators

def stage : String := "dominators"

def fail {α : Type} (g : Graph) (cause : Cause) : Except Failure α :=
  .error (.diagnostic ⟨stage, g.name, cause⟩)

def number (g : Graph) (index : BlockMap Nat) (b : BlockId) : Except Failure Nat :=
  match index[b]? with
  | some i => .ok i
  | none => fail g (.unreachable (g.label b))

/-- The set that has every one of `n` members. -/
def full (n : Nat) : Nat := (1 <<< n) - 1

/-- The blocks that dominate all predecessors, and the block itself. -/
def meetPreds (g : Graph) (order : Array BlockId) (index : BlockMap Nat) (sets : Array Nat)
    (i : Nat) : Except Failure Nat := do
  let met ← (g.preds (order.getD i 0)).foldlM (fun acc p => do
    pure (acc &&& sets.getD (← number g index p) 0)) (full order.size)
  pure (met ||| 1 <<< i)

/-- Recomputes every set but the entry's; says whether one has changed. -/
def sweep (g : Graph) (order : Array BlockId) (index : BlockMap Nat) (sets : Array Nat) :
    Except Failure (Array Nat × Bool) :=
  (List.range' 1 (order.size - 1)).foldlM (fun (sets, changed) i => do
    let new ← meetPreds g order index sets i
    if new = sets.getD i 0 then pure (sets, changed)
    else pure (sets.setIfInBounds i new, true)) (sets, false)

def iterate (g : Graph) (order : Array BlockId) (index : BlockMap Nat) :
    (rest done : Nat) → Array Nat → Except Failure (Array Nat)
  | rest, done, sets => do
    let (sets, changed) ← sweep g order index sets
    if changed then
      match rest with
      | 0 => fail g (.diverged (done + 1))
      | rest + 1 => iterate g order index rest (done + 1) sets
    else pure sets

/-- Number of members of a set of numbers below `n`. -/
def card (n set : Nat) : Nat := (List.range n).countP (set.testBit ·)

/-- The strict dominator with the largest set of its own, which is the closest one. -/
def closest? (n : Nat) (sets cards : Array Nat) (i : Nat) : Option Nat :=
  ((List.range n).filter fun j => j ≠ i && (sets.getD i 0).testBit j).foldl (fun best j =>
    match best with
    | none => some j
    | some k => if cards.getD k 0 ≤ cards.getD j 0 then some j else some k) none

def findIdoms (order : Array BlockId) (sets : Array Nat) : BlockMap BlockId :=
  let n := order.size
  let cards := sets.map (card n)
  (List.range' 1 (n - 1)).foldl (fun m i =>
    match closest? n sets cards i with
    | some j => m.insert (order.getD i 0) (order.getD j 0)
    | none => m) ∅

/-- Puts `b` into the frontier of `r` and of the dominators above it, up to `stop`. -/
def climb (idoms : BlockMap BlockId) (stop : Option BlockId) (b : BlockId) :
    (steps : Nat) → Option BlockId → BlockMap BlockSet → BlockMap BlockSet
  | 0, _, m | _, none, m => m
  | steps + 1, some r, m =>
    if some r = stop then m
    else climb idoms stop b steps idoms[r]? (m.insert r ((m[r]?.getD ∅).insert b))

def findFrontiers (g : Graph) (order : Array BlockId) (idoms : BlockMap BlockId) :
    BlockMap BlockSet :=
  order.foldl (fun m b =>
    let preds := g.preds b
    if preds.length < 2 then m
    else preds.foldl (fun m p => climb idoms idoms[b]? b (order.size + 1) (some p) m) m)
    (order.foldl (fun m b => m.insert b ∅) ∅)

def compute (g : Graph) : Except Failure Dominators := do
  let order := g.reversePostorder.toArray
  let index : BlockMap Nat := (List.range order.size).foldl
    (fun m i => m.insert (order.getD i 0) i) ∅
  g.layout.forM fun b => do let _ ← number g index b
  let n := order.size
  let sets ← iterate g order index sweepLimit 0
    ((Array.replicate n (full n)).setIfInBounds 0 1)
  let idoms := findIdoms order sets
  pure { order, index, sets, idoms, frontiers := findFrontiers g order idoms }

variable (d : Dominators)

def entry : BlockId := d.order.getD 0 0

def idom? (b : BlockId) : Option BlockId := d.idoms[b]?

def dominates (a b : BlockId) : Bool :=
  match d.index[a]?, d.index[b]? with
  | some i, some j => (d.sets.getD j 0).testBit i
  | _, _ => false

def strictlyDominates (a b : BlockId) : Bool := a ≠ b && d.dominates a b

def frontier (b : BlockId) : BlockSet := d.frontiers[b]?.getD ∅

/-- Number of immediate dominators above a block. -/
def depthFrom : (steps : Nat) → BlockId → Nat
  | 0, _ => 0
  | steps + 1, b =>
    match d.idom? b with
    | some p => depthFrom steps p + 1
    | none => 0

def depth (b : BlockId) : Nat := d.depthFrom d.order.size b

end Dominators

end Quadcode
