import Quadcode.Graph.Build
import Quadcode.Graph.Linear
import Quadcode.StringPool

/-!
# Modules

All functions of a program in block form, with its globals and string literals.
-/

namespace Quadcode

structure Module where
  globals : List Global
  strings : StringPool
  graphs : List Graph
  deriving DecidableEq, Repr, Inhabited

namespace Module

/-- The first function with a name. -/
def graph? (m : Module) (name : Label) : Option Graph := m.graphs.find? (·.name == name)

/-- Builds functions one after the other; the first failure stops. -/
def buildAll : List Function → Supply → Except Failure (List Graph × Supply)
  | [], s => pure ([], s)
  | f :: rest, s => do
    let (g, s) ← Graph.build f s
    let (graphs, s) ← buildAll rest s
    pure (g :: graphs, s)

def build (p : Program) (s : Supply) : Except Failure (Module × Supply) := do
  let (graphs, s) ← buildAll p.functions s
  pure (⟨p.globals, .ofList p.strings, graphs⟩, s)

/-- Takes every function through its flat form. -/
def rebuild (m : Module) (s : Supply) : Except Failure (Module × Supply) := do
  let (graphs, s) ← buildAll (m.graphs.map Graph.toFunction) s
  pure ({ m with graphs }, s)

def text (m : Module) : String :=
  Text.lines (m.globals.map Global.text) ++
    Text.lines (m.strings.entries.map fun (label, s) =>
      "string " ++ label ++ " = " ++ Text.quoted s) ++
    Text.lines (m.graphs.map Graph.text)

end Module

end Quadcode
