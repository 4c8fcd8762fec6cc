import Quadcode.Compile
import Quadcode.FileTree
import Quadcode.Optimizer.Pipeline
import Quadcode.Program.Decode

/-!
# The command line

The arguments name one source file and say how it is compiled. A run is a function of the arguments
and the text of the file; what it gives is left to the caller to print and to write, or is stored in
a tree of files.
-/

namespace Quadcode

/-- Options without a value. -/
inductive Switch where
  | optimize
  | dumpModule
  | dumpListing
  | stats
  | debug
  deriving DecidableEq, Repr

namespace Switch

def ofName? : String → Option Switch
  | "optimize" => some .optimize
  | "dump-mtac" => some .dumpModule
  | "dump-ltac" => some .dumpListing
  | "stats" => some .stats
  | "debug" => some .debug
  | _ => none

def ofLetter? : Char → Option Switch
  | 'O' => some .optimize
  | 'd' => some .debug
  | _ => none

end Switch

/-- Options with a value. -/
inductive Setting where
  | level
  | rounds
  | unroll
  | output
  deriving DecidableEq, Repr

namespace Setting

def ofName? : String → Option Setting
  | "level" => some .level
  | "loop-opt" => some .rounds
  | "unroll" => some .unroll
  | "output" => some .output
  | _ => none

def ofLetter? : Char → Option Setting
  | 'o' => some .output
  | _ => none

end Setting

/-- The arguments read so far. -/
structure Choices where
  switches : List Switch := []
  settings : List (Setting × String) := []
  sources : List String := []
  /-- The option whose value comes next. -/
  pending : Option Setting := none
  /-- Whether options have been ended. -/
  ended : Bool := false
  deriving Repr

namespace Choices

/-- Turns a switch on, once. -/
def turnOn (c : Choices) (s : Switch) : Option Choices :=
  if s ∈ c.switches then none else some { c with switches := s :: c.switches }

/-- Gives an option a value, once. -/
def assign (c : Choices) (s : Setting) (value : String) : Option Choices :=
  if (c.settings.lookup s).isSome then none
  else some { c with settings := (s, value) :: c.settings, pending := none }

/-- Waits for the value of an option. -/
def await (c : Choices) (s : Setting) : Option Choices := some { c with pending := some s }

/-- An option by its long name, with a value behind an equals sign or not. -/
def long (c : Choices) (option : List Char) : Option Choices :=
  let name := String.ofList (option.takeWhile (· ≠ '='))
  match option.dropWhile (· ≠ '=') with
  | _ :: value =>
    (Setting.ofName? name).bind fun s => c.assign s (String.ofList value)
  | [] =>
    match Switch.ofName? name with
    | some s => c.turnOn s
    | none => (Setting.ofName? name).bind c.await

/-- Options by their letters, of which the last may have a value. -/
def short (c : Choices) : List Char → Option Choices
  | [] => some c
  | letter :: rest =>
    match Switch.ofLetter? letter with
    | some s => (c.turnOn s).bind fun c => short c rest
    | none =>
      match Setting.ofLetter? letter, rest with
      | none, _ => none
      | some s, [] => c.await s
      | some s, '=' :: value => c.assign s (String.ofList value)
      | some s, value => c.assign s (String.ofList value)

/-- Reads one more argument. -/
def next (c : Choices) (arg : String) : Option Choices :=
  match c.pending, c.ended, arg.toList with
  | _, true, _ => some { c with sources := arg :: c.sources }
  | some s, _, chars =>
    match chars with
    | '-' :: _ :: _ => none
    | _ => c.assign s arg
  | none, _, ['-', '-'] => some { c with ended := true }
  | none, _, '-' :: '-' :: option => c.long option
  | none, _, '-' :: letter :: letters => c.short (letter :: letters)
  | none, _, _ => some { c with sources := arg :: c.sources }

/-- A number that fits a word. -/
def number? (text : String) : Option Nat := Text.natural? wordLimit text.toList

def number (c : Choices) (s : Setting) (default : Nat) : Option Nat :=
  match c.settings.lookup s with
  | some text => number? text
  | none => some default

end Choices

/-- What the command line asks for. -/
structure Invocation where
  switches : List Switch
  level : Nat
  rounds : Nat
  unroll : Nat
  output : Option String
  source : String
  deriving Repr

namespace Invocation

/-- Reads the arguments; none if they are not used as intended. -/
def parse? (args : List String) : Option Invocation := do
  let c ← args.foldlM Choices.next {}
  if c.pending.isSome then none
  let defaults : Config := {}
  let level ← c.number .level defaults.level
  let rounds ← c.number .rounds defaults.maxRounds
  let unroll ← c.number .unroll defaults.unrollLimit
  match c.sources with
  | [source] =>
    some { switches := c.switches, level, rounds, unroll
           output := c.settings.lookup .output, source }
  | _ => none

def has (i : Invocation) (s : Switch) : Bool := s ∈ i.switches

def config (i : Invocation) : Config :=
  if i.has .optimize then { level := i.level, maxRounds := i.rounds, unrollLimit := i.unroll }
  else .disabled

end Invocation

/-- A stage of compilation, as it is named in complaints. -/
inductive Stage where
  | building
  | optimizing
  | generating
  deriving DecidableEq, Repr

def Stage.complaint : Stage → String
  | .building => "failed to build the control flow graph"
  | .optimizing => "optimization failed"
  | .generating => "code generation failed"

/-- Why a run came to nothing. -/
inductive Trouble where
  | unreadable (path : String)
  | unwritable (path : String) (cause : Refusal)
  | malformed (path : String)
  | failed (stage : Stage) (diagnostic : Diagnostic)
  /-- A fault, or an iteration that was cut off. -/
  | crashed
  deriving DecidableEq, Repr

namespace Trouble

def ofFailure (stage : Stage) : Failure → Trouble
  | .diagnostic d => .failed stage d
  | _ => .crashed

/-- What is said first, and the cause. -/
def complaint : Trouble → Option (String × Option String)
  | .unreadable path => some ("failed to open file: " ++ path, none)
  | .unwritable path cause => some ("failed to write " ++ path, some cause.message)
  | .malformed path => some ("malformed program: " ++ path, none)
  | .failed stage d => some (stage.complaint, some d.message)
  | .crashed => none

/-- The exit code. -/
def exitCode : Trouble → UInt8
  | .crashed => 101
  | _ => 1

end Trouble

/-- What a run prints, in parts, up to where it stops. -/
structure Report where
  /-- The module in block form, if it is asked for. -/
  moduleDump : String := ""
  /-- The listing, if it is asked for separately. -/
  listingDump : String := ""
  listing : String := ""
  stats : Statistics := {}

namespace Invocation

/-- Writes the listing, and puts what was counted in the back end to what was counted before. A
listing that breaks off is shown up to there, in the first place where it is written. -/
def finish (i : Invocation) (r : Report) (listing : X86.Listing) (stats : Statistics) :
    Report × Option Trouble :=
  let listing := listing.draft
  let dump := if i.has .dumpListing then ("[[ltac]]\n" ++ listing ++ "\n").text else ""
  if listing.complete then
    ({ r with listingDump := dump, listing := listing.text, stats := r.stats.merge stats }, none)
  else if i.has .dumpListing then ({ r with listingDump := dump }, some .crashed)
  else ({ r with listing := listing.text }, some .crashed)

/-- Compiles a program. What is dumped before a stage fails stays in the report. -/
def compile (i : Invocation) (p : Program) : Report × Option Trouble :=
  match Module.build p {} with
  | .error e => ({}, some (.ofFailure .building e))
  | .ok (m, s) =>
    match m.optimize i.config s with
    | .error e => ({}, some (.ofFailure .optimizing e))
    | .ok (m, stats, s) =>
      let moduleDump := if i.has .dumpModule then "[[mtac]]\n" ++ m.text ++ "\n" else ""
      let r : Report := { moduleDump, stats }
      match (m.compile (i.has .optimize)).run.run { supply := s } with
      | (.error e, _) => (r, some (.ofFailure .generating e))
      | (.ok (listing, stats), _) => i.finish r listing stats

/-- Compiles the text of the source file, if it could be read. -/
def run (i : Invocation) (source : Option String) : Report × Option Trouble :=
  match source with
  | none => ({}, some (.unreadable i.source))
  | some text =>
    match Program.read? text with
    | none => ({}, some (.malformed i.source))
    | some p => i.compile p

/-- Stores the listing of a run that went well, if there is a path for it. -/
def store (i : Invocation) (t : FileTree) (outcome : Report × Option Trouble) :
    (Report × Option Trouble) × FileTree :=
  match outcome, i.output with
  | (r, none), some path =>
    match t.write path r.listing with
    | .ok t => ((r, none), t)
    | .error cause => ((r, some (.unwritable path cause)), t)
  | outcome, _ => (outcome, t)

/-- What goes to the standard output. -/
def standardOutput (i : Invocation) (r : Report) : String :=
  r.moduleDump ++ r.listingDump ++ (if i.output.isSome then "" else r.listing)

/-- What the counters look like, if they are asked for. -/
def statsText? (i : Invocation) (r : Report) : Option String :=
  if i.has .stats then some ("[[stats]]\n" ++ r.stats.text ++ "\n") else none

end Invocation

end Quadcode
