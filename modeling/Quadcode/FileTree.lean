/-!
# A tree of files

What a run needs of a file system. A path is followed from the root, or from the working directory,
one name at a time; writing makes the file that the last name stands for.
-/

namespace Quadcode

/-- Why the system does not carry out an operation on a file. -/
structure Refusal where
  code : Nat
  text : String
  deriving DecidableEq, Repr

namespace Refusal

def missing : Refusal := ⟨2, "No such file or directory"⟩
def notDirectory : Refusal := ⟨20, "Not a directory"⟩
def isDirectory : Refusal := ⟨21, "Is a directory"⟩
def noSpace : Refusal := ⟨28, "No space left on device"⟩
def nameTooLong : Refusal := ⟨36, "File name too long"⟩

def message (r : Refusal) : String := r.text ++ " (os error " ++ toString r.code ++ ")"

end Refusal

inductive FileTree.Entry where
  /-- A directory, and whether files can be made in it. -/
  | directory (extensible : Bool)
  | file (contents : String)
  /-- A device that drops what it is given and holds nothing. -/
  | sink
  /-- A device that takes nothing. -/
  | full
  deriving DecidableEq, Repr

/-- The names on the way from the root. -/
abbrev FileTree.Route := List String

structure FileTree where
  /-- Everything but the root. Of two entries at one place the first counts. -/
  entries : List (FileTree.Route × FileTree.Entry) := []
  workingDirectory : FileTree.Route := []
  deriving Repr

namespace FileTree

def entry? (t : FileTree) (route : Route) : Option Entry :=
  if route.isEmpty then some (.directory true) else t.entries.lookup route

/-- Bytes of the longest name and of the longest path. -/
def nameLimit : Nat := 255
def pathLimit : Nat := 4095

/-- The parts of a path between its slashes, some of them empty. -/
def parts : List Char → List (List Char)
  | [] => [[]]
  | c :: cs =>
    match c, parts cs with
    | '/', ps => [] :: ps
    | c, p :: ps => (c :: p) :: ps
    | c, [] => [[c]]

/-- The names of a path. Slashes in a row count as one. -/
def names (path : String) : List String :=
  ((parts path.toList).filter (!·.isEmpty)).map String.ofList

/-- Goes down, or up, from a directory to another one. -/
def follow (t : FileTree) (here : Route) : List String → Except Refusal Route
  | [] => .ok here
  | "." :: rest => t.follow here rest
  | ".." :: rest => t.follow here.dropLast rest
  | name :: rest =>
    if nameLimit < name.utf8ByteSize then .error .nameTooLong
    else
      match t.entry? (here ++ [name]) with
      | some (.directory _) => t.follow (here ++ [name]) rest
      | some _ => .error .notDirectory
      | none => .error .missing

/-- Where the file of a path is or would be. A path that ends in a slash or in dots means a
directory, as does the root. -/
def locate (t : FileTree) (path : String) : Except Refusal Route :=
  if path.isEmpty then .error .missing
  else if pathLimit < path.utf8ByteSize then .error .nameTooLong
  else
    let start := if path.toList.head? = some '/' then [] else t.workingDirectory
    match (names path).reverse with
    | [] => .error .isDirectory
    | last :: above => do
      let directory ← t.follow start above.reverse
      if path.toList.getLast? = some '/' ∨ last = "." ∨ last = ".." then .error .isDirectory
      else if nameLimit < last.utf8ByteSize then .error .nameTooLong
      else .ok (directory ++ [last])

/-- The contents of a file. -/
def read? (t : FileTree) (path : String) : Option String :=
  match t.locate path with
  | .error _ => none
  | .ok route =>
    match t.entry? route with
    | some (.file contents) => some contents
    | some .sink => some ""
    | _ => none

/-- Gives a file new contents, and makes it if need be. -/
def write (t : FileTree) (path contents : String) : Except Refusal FileTree := do
  let route ← t.locate path
  match t.entry? route with
  | some (.directory _) => .error .isDirectory
  | some .full => .error .noSpace
  | some .sink => .ok t
  | some (.file _) => .ok { t with entries := (route, .file contents) :: t.entries }
  | none =>
    if t.entry? route.dropLast = some (.directory true) then
      .ok { t with entries := (route, .file contents) :: t.entries }
    else .error .missing

/-- The directories and devices of a usual system, with a directory to work in. -/
def usual : FileTree where
  entries :=
    ["bin", "boot", "dev", "etc", "home", "lib", "media", "mnt", "opt", "root", "run", "sbin",
      "srv", "sys", "tmp", "usr", "var", "work"].map (fun name => ([name], .directory true)) ++
    [(["proc"], .directory false), (["dev", "null"], .sink), (["dev", "full"], .full),
      (["usr", "bin"], .directory true), (["usr", "lib"], .directory true),
      (["var", "tmp"], .directory true)]
  workingDirectory := ["work"]

end FileTree

end Quadcode
