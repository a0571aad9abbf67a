import Lunify.Files.Path

namespace Lunify

/-! ### Files

A directory with all that is in it, as a list of paths from the directory on. The parents of a path
in the list need not be listed. Faults carry the operation and the path that they are about. -/

/-- What stands at a path. -/
inductive FileNode where
  | file (content : Text)
  | directory
deriving DecidableEq, Repr

/-- The files and directories in the working directory. -/
structure Files where
  nodes : List (List Text × FileNode)
deriving DecidableEq, Repr

/-- Why an operation on files fails. -/
inductive FileCause where
  | missing
  | notDirectory
  | isDirectory
  | exists
deriving DecidableEq, Repr

/-- The cause in words. -/
def FileCause.message : FileCause → Text
  | .missing => utf8 "no such file or directory"
  | .notDirectory => utf8 "not a directory"
  | .isDirectory => utf8 "is a directory"
  | .exists => utf8 "file exists"

/-- A failed operation on files. -/
structure FileError where
  operation : Text
  path : Text
  cause : FileCause
deriving DecidableEq, Repr

def FileError.message (e : FileError) : Text :=
  e.operation ++ utf8 " " ++ e.path ++ utf8 ": " ++ e.cause.message

namespace Files

def isDirectory (f : Files) (ns : List Text) : Bool :=
  ns.isEmpty || f.nodes.any fun (p, n) =>
    (p = ns && n = .directory) || (ns.isPrefixOf p && ns.length < p.length)

def node? (f : Files) (ns : List Text) : Option FileNode :=
  if isDirectory f ns then some .directory
  else (f.nodes.find? fun (p, _) => p = ns).map Prod.snd

/-- Where the names of a path lead from a place. Each name but the last must be a directory; `..`
leads out of the place, and nothing is known above the working directory. -/
def walk (f : Files) (place : List Text) : List Text → Except FileCause (List Text)
  | [] => .ok place
  | n :: ns =>
    match f.node? place with
    | none => .error .missing
    | some (.file _) => .error .notDirectory
    | some .directory =>
      if n.isEmpty || n = Path.here then walk f place ns
      else if n = Path.parent then walk f place.dropLast ns
      else walk f (place ++ [n]) ns

/-- The place that a path names. Only the root is known of the rooted paths. -/
def place (f : Files) (path : Text) : Except FileCause (List Text) :=
  if path.isEmpty then .error .missing
  else if Path.isRooted path then
    if (Path.names path).isEmpty then .ok [] else .error .missing
  else f.walk [] (Text.splitOn Path.slash path)

def find (f : Files) (path : Text) : Except FileCause FileNode := do
  match f.node? (← f.place path) with
  | some n => .ok n
  | none => .error .missing

def stat (f : Files) (path : Text) : Except FileError FileNode :=
  (f.find path).mapError fun c => ⟨utf8 "stat", path, c⟩

/-- The content of a file. -/
def read (f : Files) (path : Text) : Except FileError Text :=
  match f.find path with
  | .ok (.file s) => .ok s
  | .ok .directory => .error ⟨utf8 "read", path, .isDirectory⟩
  | .error c => .error ⟨utf8 "open", path, c⟩

def set (f : Files) (ns : List Text) (n : FileNode) : Files :=
  ⟨(f.nodes.filter fun (p, _) => p != ns) ++ [(ns, n)]⟩

/-- The place of a new file: its directory must be there. -/
def newPlace (f : Files) (path : Text) : Except FileCause (List Text) := do
  let ns ← f.place path
  if f.isDirectory ns.dropLast then .ok ns
  else if (f.node? ns.dropLast).isSome then .error .notDirectory
  else .error .missing

/-- Writes a file, in place of the one that may be there. -/
def write (f : Files) (path : Text) (content : Text) : Except FileError Files :=
  match f.newPlace path with
  | .error c => .error ⟨utf8 "open", path, c⟩
  | .ok ns =>
    if f.isDirectory ns then .error ⟨utf8 "open", path, .isDirectory⟩
    else .ok (f.set ns (.file content))

/-- Writes a file where there is none. -/
def create (f : Files) (path : Text) (content : Text) : Except FileError Files :=
  match f.newPlace path with
  | .error c => .error ⟨utf8 "open", path, c⟩
  | .ok ns =>
    if (f.node? ns).isSome then .error ⟨utf8 "open", path, .exists⟩
    else .ok (f.set ns (.file content))

/-- Makes the directories that lead from a place along the given names; `done` is the part of the
path that is there. -/
def makeFrom (f : Files) (done : List Text) : List Text → Except FileError Files
  | [] => .ok f
  | n :: ns =>
    let path := Text.join [Path.slash] (done ++ [n])
    match f.find path with
    | .ok .directory => makeFrom f (done ++ [n]) ns
    | .ok (.file _) => .error ⟨utf8 "mkdir", path, .notDirectory⟩
    | .error _ =>
      match f.newPlace path with
      | .error c => .error ⟨utf8 "mkdir", path, c⟩
      | .ok place => makeFrom (f.set place .directory) (done ++ [n]) ns

/-- Makes a directory and its parents, as far as they are missing. -/
def makeDirectories (f : Files) (path : Text) : Except FileError Files :=
  match f.find path with
  | .ok .directory => .ok f
  | .ok (.file _) => .error ⟨utf8 "mkdir", path, .notDirectory⟩
  | .error _ => f.makeFrom [] (Text.splitOn Path.slash path)

/-- The files below a place, as paths from the place on, with their contents. -/
def below (f : Files) (place : List Text) : List (List Text × Text) :=
  f.nodes.filterMap fun (p, n) =>
    match n with
    | .file s => if place.isPrefixOf p then some (p.drop place.length, s) else none
    | .directory => none

/-- The files with these paths. A path with a text is a file, one without is a directory. -/
def ofList (entries : List (Text × Option Text)) : Files :=
  ⟨entries.map fun (p, s) => (Path.names p, match s with
    | some s => .file s
    | none => .directory)⟩

end Files

end Lunify
