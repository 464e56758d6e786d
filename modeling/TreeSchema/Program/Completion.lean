import TreeSchema.File.Workspace
/-
  Running programs

  A program is known by a name and takes arguments. It reads and may change
  the files of a workspace, writes bytes to two streams, and ends with a
  status or by a signal.
-/

namespace TreeSchema.Program

open File

/-- Bytes written to one of the two streams. -/
structure Chunk where
  toErrors : Bool := false
  bytes : List UInt8

def Chunk.out (text : String) : Chunk := { bytes := Text.encode text }

def Chunk.err (text : String) : Chunk := { toErrors := true, bytes := Text.encode text }

/-- All that chunks write to the output. -/
def outputOf (chunks : List Chunk) : List UInt8 :=
  (chunks.filter fun c => !c.toErrors).flatMap Chunk.bytes

def errorsOf (chunks : List Chunk) : List UInt8 :=
  (chunks.filter Chunk.toErrors).flatMap Chunk.bytes

inductive Ending where
  | exited (code : Nat)
  | killed (signal : Nat)
  deriving DecidableEq, Repr

/-- The exit code, if the program was not killed. -/
def Ending.code? : Ending → Option Nat
  | exited code => some code
  | killed _ => none

/-- What a run of a program leaves behind. -/
structure Completion where
  ending : Ending
  chunks : List Chunk
  files : Workspace

/-- A run that only writes and ends. -/
def Completion.plain (files : Workspace) (code : Nat) (chunks : List Chunk := []) : Completion :=
  { ending := .exited code, chunks, files }

/-- Why the system does not start a program. -/
inductive StartFault where
  | missing
  /-- There is something by that name, but it may not be run. -/
  | denied
  /-- The name leads through a file as if that were a directory. -/
  | notDirectory
  /-- The file may be run and holds no program. -/
  | notProgram
  /-- The name or an argument holds a zero byte, at which the system would cut
  it off. -/
  | zeroByte
  | other (code : Nat) (wording : String)
  deriving DecidableEq, Repr

def StartFault.message : StartFault → String
  | missing => "No such file or directory (os error 2)"
  | denied => "Permission denied (os error 13)"
  | notDirectory => "Not a directory (os error 20)"
  | notProgram => "Exec format error (os error 8)"
  | zeroByte => "nul byte found in provided data"
  | other code wording => s!"{wording} (os error {code})"

/-- The system as far as it runs programs: a program name, arguments, standard
input and files give a completion, or the reason why there is none. -/
abbrev Host :=
  (program : String) → (args : List String) → (input : List UInt8) → Workspace →
    Except StartFault Completion

end TreeSchema.Program
