import TreeSchema.Command.Run
import TreeSchema.Command.Usage
import TreeSchema.Program.Host
/-
  The command

  Reads the files a command line is about, carries it out, writes the files
  it changed and prints what it has to say. The programs a build can call are
  those that are part of this project.
-/

namespace TreeSchema.Main

open File

/-- The names of a path from the root down. -/
def placeOf (path : String) : Place := (segments path).filter (· != "")

def pathOf (place : Place) : String := "/" ++ "/".intercalate place

/-- The place a path names, seen from a directory. -/
def placeFrom (here : Place) (path : String) : Place :=
  let start := if path.startsWith "/" then [] else here
  (segments path).foldl (fun place segment =>
    if segment = "" || segment = "." then place
    else if segment = ".." then place.dropLast
    else place ++ [segment]) start

/-- Adds what stands at a place, and all that stands below it. -/
partial def collect (w : Workspace) (place : Place) : IO Workspace := do
  let found ← IO.FS.realPath (pathOf place)
  if ← found.isDir then
    let entries ← found.readDir
    entries.foldlM (fun w entry => collect w (place ++ [entry.fileName]))
      { w with directories := place :: w.directories }
  else if ← found.pathExists then
    let bytes ← IO.FS.readBinFile (pathOf place)
    return w.put place bytes.toList
  else return w

/-- Adds the directory a place is in, if there is one. -/
def collectParent (w : Workspace) (place : Place) : IO Workspace := do
  let found ← IO.FS.realPath (pathOf place.dropLast)
  if ← found.isDir then return { w with directories := place.dropLast :: w.directories }
  else return w

/-- The files that a request is about. -/
def gather (here : Place) (paths : List String) : IO Workspace :=
  paths.foldlM (fun w path => do
    collectParent (← collect w (placeFrom here path)) (placeFrom here path))
    { here, files := [] }

/-- Writes the files that were changed. -/
def store (before after : Workspace) : IO Unit :=
  after.files.forM fun (place, bytes) =>
    if before.bytes? place = some bytes then pure ()
    else IO.FS.writeBinFile (pathOf place) (ByteArray.mk bytes.toArray)

/-- Where a grammar is put for a program. -/
def stagedPath : String := "/tmp/hashgram-stage.grammar"

/-- Prints a response and gives its exit code. -/
def conclude (before : Workspace) (response : Command.Response) : IO UInt32 := do
  store before response.files
  IO.print response.output
  IO.eprint response.errors
  return response.exitCode.toUInt32

end TreeSchema.Main

open TreeSchema TreeSchema.Main in
def main (args : List String) : IO UInt32 := do
  match Command.Request.ofArgs args with
  | .error .version =>
    IO.print Command.versionLine
    return 0
  | .error .help =>
    IO.print Command.usageText
    return 0
  | .error (.usage error) =>
    IO.eprint s!"error: {error.message}\n\n{Command.usageText}"
    return 2
  | .ok request =>
    let here ← IO.currentDir
    let gathered ← gather (placeOf here.toString) request.paths
    let workspace ← collectParent gathered (placeOf stagedPath)
    conclude workspace (request.run { host := Program.smallHost, stagedPath } workspace)
