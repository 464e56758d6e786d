import TreeSchema.File.Path
import TreeSchema.Text.Utf8
/-
  Workspaces

  The files a command can see, as values: where each file stands, as names
  below the root, and the bytes it holds. A directory exists if it is listed,
  if it is the working directory, or if something stands below it. Paths are
  walked name by name from the root or from the working directory.
-/

namespace TreeSchema.File

/-- Why a file operation fails. -/
inductive Fault where
  | missing
  | notDirectory
  | isDirectory
  /-- The bytes of the file are no text. -/
  | notText
  deriving DecidableEq, Repr

def Fault.message : Fault → String
  | missing => "No such file or directory (os error 2)"
  | notDirectory => "Not a directory (os error 20)"
  | isDirectory => "Is a directory (os error 21)"
  | notText => "stream did not contain valid UTF-8"

/-- Names from the root down to a file or directory. -/
abbrev Place := List String

/-- Files, and the directory that relative paths start from. Directories that
hold no file are listed on their own. -/
structure Workspace where
  here : Place
  files : List (Place × List UInt8)
  directories : List Place := []
  deriving Repr

namespace Workspace

/-- The place that swallows what is written to it. -/
def sink : Place := ["dev", "null"]

def bytes? (w : Workspace) (place : Place) : Option (List UInt8) :=
  if place = sink then some []
  else (w.files.find? fun (known, _) => known == place).map Prod.snd

def isDirectory (w : Workspace) (place : Place) : Bool :=
  place.isPrefixOf w.here || place.isPrefixOf sink.dropLast
    || w.directories.any (place.isPrefixOf ·)
    || w.files.any fun (known, _) => place.isPrefixOf known && known != place

/-- What stands at a place. -/
inductive Entry where
  | file (bytes : List UInt8)
  | directory
  | absent

def entry (w : Workspace) (place : Place) : Entry :=
  match w.bytes? place with
  | some bytes => .file bytes
  | none => if w.isDirectory place then .directory else .absent

/-- The place reached from a directory by walking the segments of a path. All
but the last segment must lead to directories; the last may be absent. -/
def walk (w : Workspace) : Place → List String → Except Fault Place
  | place, [] => .ok place
  | place, segment :: rest =>
    match w.entry place with
    | .absent => .error .missing
    | .file _ => .error .notDirectory
    | .directory =>
      if segment = "" || segment = "." then w.walk place rest
      else if segment = ".." then w.walk place.dropLast rest
      else w.walk (place ++ [segment]) rest

/-- The place a path names. -/
def locate (w : Workspace) (path : String) : Except Fault Place :=
  if path = "" then .error .missing
  else w.walk (if path.toList.head? = some '/' then [] else w.here) (segments path)

def readBytes (w : Workspace) (path : String) : Except Fault (List UInt8) := do
  let place ← w.locate path
  match w.entry place with
  | .file bytes => .ok bytes
  | .directory => .error .isDirectory
  | .absent => .error .missing

def readText (w : Workspace) (path : String) : Except Fault String := do
  let bytes ← w.readBytes path
  match Text.decode? bytes with
  | some text => .ok text
  | none => .error .notText

def put (w : Workspace) (place : Place) (bytes : List UInt8) : Workspace :=
  if place = sink then w
  else { w with files := w.files.filter (fun (known, _) => known != place) ++ [(place, bytes)] }

def remove (w : Workspace) (place : Place) : Workspace :=
  { w with files := w.files.filter fun (known, _) => known != place }

/-- Writes a file under a path, in a directory that exists. A path with a
slash at its end can only be a directory's. -/
def writeBytes (w : Workspace) (path : String) (bytes : List UInt8) : Except Fault Workspace := do
  let bare := String.ofList (path.toList.reverse.dropWhile (· == '/')).reverse
  let place ← w.locate (if bare = "" then path else bare)
  match w.entry place with
  | .directory => .error .isDirectory
  | _ => if bare = path then .ok (w.put place bytes) else .error .isDirectory

/-- Takes the file under a path away, if there is one. -/
def removePath (w : Workspace) (path : String) : Workspace :=
  match w.locate path with
  | .error _ => w
  | .ok place => w.remove place

def hasEntry (w : Workspace) (path : String) : Bool :=
  match w.locate path with
  | .error _ => false
  | .ok place =>
    match w.entry place with
    | .absent => false
    | _ => true

/-- The name of the file at `known`, if it stands in the directory at
`place`. -/
def nameIn? (place known : Place) : Option String :=
  if known.dropLast == place then known.getLast? else none

/-- The names of the files in the directory under a path, in order; none if
there is no such directory. -/
def fileNames (w : Workspace) (path : String) : List String :=
  match w.locate path with
  | .error _ => []
  | .ok place =>
    (w.files.filterMap fun (known, _) => nameIn? place known).mergeSort
      fun a b => !decide (b < a)

end Workspace

end TreeSchema.File
