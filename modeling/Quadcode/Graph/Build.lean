import Quadcode.Failure
import Quadcode.Graph.Relink

/-!
# Blocks of flat code

A block starts at the first quadruple, at every label, and after every jump, return and call. The code
between two starts, without its label, becomes the body of a block and its tail.
-/

namespace Quadcode

namespace Op

/-- The label a quadruple is. -/
def label? : Op → Option Label
  | .label l => some l
  | _ => none

/-- A jump, return or call. -/
def endsBlock : Op → Bool
  | .goto _ | .jumpIf .. | .jumpIfNot .. | .ret _ | .call .. => true
  | _ => false

end Op

/-- The first item that stands in a list twice, by its second place. -/
def firstRepeated : (before rest : List Label) → Option Label
  | _, [] => none
  | before, l :: rest => if before.contains l then some l else firstRepeated (l :: before) rest

namespace Build

def stage : String := "cfg"

def fail {α : Type} (f : Function) (cause : Cause) : Except Failure α :=
  .error (.diagnostic ⟨stage, f.name, cause⟩)

/-- Where blocks start, in order. -/
def starts (quads : List Quad) : List Nat :=
  let marks := quads.zipIdx.flatMap fun (q, i) =>
    (if q.op.isLabel && i != 0 then [i] else []) ++
      if q.op.endsBlock && i + 1 < quads.length then [i + 1] else []
  (.ofList (0 :: marks) : Std.ExtTreeSet Nat).toList

/-- The code from each start to the next. -/
def ranges (quads : List Quad) : (starts : List Nat) → List (List Quad)
  | [] => []
  | start :: more => (quads.take (more.headD quads.length)).drop start :: ranges quads more

/-- The label in front of a range. -/
def label? (range : List Quad) : Option Label := range.head?.bind (·.op.label?)

/-- The label of each block, generated where the code has none. -/
def names : List (Option Label) → Supply → List Label × Supply
  | [], s => ([], s)
  | own :: rest, s =>
    let (label, s) := match own with
      | some l => (l, s)
      | none => s.fresh blockStem
    let (labels, s) := names rest s
    (label :: labels, s)

/-- The block that carries a label. -/
def resolve (f : Function) (labels : List Label) (l : Label) : Except Failure BlockId :=
  match labels.idxOf? l with
  | some b => .ok b
  | none => fail f (.unknownLabel l)

/-- The block that follows a conditional jump. -/
def following (f : Function) : Option BlockId → Except Failure BlockId
  | some b => .ok b
  | none => fail f (.malformed ("conditional jump at the end of `" ++ f.name ++ "`"))

/-- The tail of code in front of the block `next` that ends with a jump or return, or with none. -/
def tail (f : Function) (labels : List Label) (next : Option BlockId) :
    Option Op → Except Failure Tail
  | some (.goto l) => do pure (.jump (← resolve f labels l))
  | some (.jumpIf c x y l) => do
    let onTrue ← resolve f labels l
    let onFalse ← following f next
    pure (.branch c x y onTrue onFalse)
  | some (.jumpIfNot c x y l) => do
    let onTrue ← following f next
    let onFalse ← resolve f labels l
    pure (.branch c x y onTrue onFalse)
  | some (.ret x) => pure (.ret x)
  | _ => pure (match next with
    | some b => .fall b
    | none => .ret none)

/-- Goes through the code of a block. Nothing may stand behind its tail, and no label inside. -/
def scan (f : Function) (labels : List Label) (next : Option BlockId) (own : Label) :
    (code body : List Quad) → Option Tail → Except Failure Block
  | [], body, some tail => pure { label := own, body, tail }
  | [], body, none => do pure { label := own, body, tail := ← tail f labels next none }
  | _ :: _, _, some _ => fail f (.misplacedControl own)
  | q :: rest, body, none =>
    match q.op with
    | .goto _ | .jumpIf .. | .jumpIfNot .. | .ret _ => do
      scan f labels next own rest body (some (← tail f labels next (some q.op)))
    | .label _ => fail f (.misplacedControl own)
    | _ => scan f labels next own rest (body ++ [q]) none

/-- The blocks of the ranges from index `k` on. -/
def blocks (f : Function) (labels : List Label) : Nat → List (List Quad) → Except Failure (List Block)
  | _, [] => pure []
  | k, range :: rest => do
    let next := if rest.isEmpty then none else some (k + 1)
    let code := if (label? range).isSome then range.tail else range
    let block ← scan f labels next (labels.getD k "") code [] none
    let more ← blocks f labels (k + 1) rest
    pure (block :: more)

end Build

/-- The block form of a function. -/
def Graph.build (f : Function) (s : Supply) : Except Failure (Graph × Supply) := do
  let ranges := Build.ranges f.quads (Build.starts f.quads)
  let (labels, s) := Build.names (ranges.map Build.label?) s
  match firstRepeated [] labels with
  | some l => Build.fail f (.duplicateLabel l)
  | none =>
    let blocks ← Build.blocks f labels 0 ranges
    let g : Graph := {
      name := f.name
      ret := f.ret
      vars := f.vars
      params := f.params
      blocks := blocks.toArray
      layout := List.range blocks.length
      entry := 0 }
    pure (g.relink, s)

end Quadcode
