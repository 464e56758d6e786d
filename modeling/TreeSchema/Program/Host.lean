import TreeSchema.Shell.Run
/-
  The programs at hand

  A host with a shell and the small programs, known by their names or by
  their places in the directories that hold programs.
-/

namespace TreeSchema.Program

open File

/-- The name of a program without the directory that holds programs. -/
def bareName (program : String) : String :=
  match segments program with
  | ["", "bin", name] => name
  | ["", "usr", "bin", name] => name
  | _ => program

/-- Why a program that is none of those at hand is not started. Only a name
with a slash is a path; what stands there may not be run. -/
def startFault (files : Workspace) (program : String) : StartFault :=
  if program.toList.contains '/' then
    match files.locate program with
    | .error .notDirectory => .notDirectory
    | .error _ => .missing
    | .ok place =>
      match files.entry place with
      | .absent => .missing
      | _ => .denied
  else .missing

/-- The shell and the small programs. -/
def smallHost : Host := fun program args input files =>
  match bareName program with
  | "sh" => .ok (Shell.program args input files)
  | name =>
    match Tool.named? name with
    | some tool => .ok (tool args input files)
    | none => .error (startFault files program)

end TreeSchema.Program
