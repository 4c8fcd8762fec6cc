import Quadcode.CommandLine

/-!
# The program
-/

namespace Quadcode

/-- What the system said about a failed operation. -/
def Refusal.ofError : IO.Error → Refusal
  | .noFileOrDirectory _ code text | .inappropriateType _ code text
  | .permissionDenied _ code text | .resourceExhausted _ code text
  | .invalidArgument _ code text | .alreadyExists _ code text | .noSuchThing _ code text
  | .interrupted _ code text | .otherError code text | .resourceBusy code text
  | .resourceVanished code text | .unsupportedOperation code text | .hardwareFault code text
  | .unsatisfiedConstraints code text | .illegalOperation code text | .protocolError code text
  | .timeExpired code text => ⟨code.toNat, text⟩
  | .unexpectedEof => ⟨0, "end of file"⟩
  | .userError text => ⟨0, text⟩

/-- Writes the listing of a run that went well, if there is a path for it. -/
def writeListing (i : Invocation) (report : Report) : IO (Option Trouble) := do
  match i.output with
  | none => return none
  | some path =>
    try
      IO.FS.writeFile path report.listing
      return none
    catch e => return some (.unwritable path (.ofError e))

/-- Says what went wrong. -/
def complain (t : Trouble) : IO Unit := do
  match t.complaint with
  | some (headline, cause) =>
    IO.eprintln ("Error: " ++ headline)
    match cause with
    | some cause => IO.eprintln ("\nCaused by:\n    " ++ cause)
    | none => pure ()
  | none => IO.eprintln "internal fault"

/-- Reads the source, compiles it and writes what comes out. -/
def compileFile (i : Invocation) : IO UInt8 := do
  let source ← try some <$> IO.FS.readFile i.source catch _ => pure none
  let (report, trouble) := i.run source
  IO.print (i.standardOutput report)
  let trouble ← match trouble with
    | some t => pure (some t)
    | none => writeListing i report
  match trouble with
  | some t =>
    complain t
    return t.exitCode
  | none =>
    match i.statsText? report with
    | some text => IO.eprint text
    | none => pure ()
    return 0

end Quadcode

open Quadcode in
/-- Exits with 0 for success, 1 when compilation fails and 2 when the arguments are wrong. -/
def main (args : List String) : IO UInt32 := do
  match Invocation.parse? args with
  | some i => return (← compileFile i).toUInt32
  | none =>
    IO.eprintln "error: unexpected arguments"
    return 2
