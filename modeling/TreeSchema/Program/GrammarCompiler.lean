import TreeSchema.Grammar.Reader
import TreeSchema.Program.Completion
import TreeSchema.Text.Blank
import TreeSchema.Text.Escaped
import TreeSchema.Text.Split
/-
  External grammar compilers

  A grammar text is handed to a program as a file. The arguments of the
  program may ask for the path of that file and for the name of the grammar;
  if none asks for the path, it comes last.
-/

namespace TreeSchema.Program

open File

/-- A program and its arguments, placeholders included. -/
structure Invocation where
  program : String
  args : List String
  deriving DecidableEq, Repr

/-- Stands for the path of the grammar file. -/
def pathPlaceholder : String := "\x7bgrammar\x7d"

/-- Stands for the name of the grammar. -/
def namePlaceholder : String := "\x7bname\x7d"

/-- One argument with its placeholders filled in: first the path, then the
name. -/
def fillArgument (path name argument : String) : String :=
  Text.replaceAll namePlaceholder name (Text.replaceAll pathPlaceholder path argument)

def asksForPath (argument : String) : Bool :=
  Text.contains pathPlaceholder.toList argument.toList

/-- The arguments of an invocation with their placeholders filled in. -/
def expandArgs (path name : String) (args : List String) : List String :=
  args.map (fillArgument path name) ++ if args.any asksForPath then [] else [path]

/-- What a compiler that succeeded leaves behind. -/
structure Artifact where
  program : String
  exitCode : Nat
  output : String
  deriving DecidableEq, Repr

/-- Why no artifact comes about. -/
inductive Failure where
  /-- The grammar cannot be written to its file. -/
  | notStaged (path : String) (fault : Fault)
  /-- The program cannot be run. -/
  | notRun (program : String) (fault : StartFault)
  /-- The program ended with an exit code other than zero, or by a signal. -/
  | failed (program : String) (code : Option Nat) (errors : String)
  deriving DecidableEq, Repr

def Failure.message : Failure → String
  | notStaged path fault => "I/O error: " ++ fault.message ++ " at path " ++ Text.escaped path
  | notRun program fault => s!"could not run {program}: " ++ fault.message
  | failed program (some code) errors => s!"{program} failed with exit status {code}: {errors}"
  | failed program none errors => s!"{program} failed with no exit status: {errors}"

/-- The name a grammar text gives itself. -/
def grammarName (grammar : String) : String := (Grammar.nameIn grammar).getD "Schema"

/-- The arguments a program gets for a grammar text in the file at `path`. -/
def Invocation.arguments (i : Invocation) (path grammar : String) : List String :=
  expandArgs path (grammarName grammar) i.args

/-- Whether a text can be handed to a program. -/
def hasNul (text : String) : Bool := text.toList.contains '\x00'

def Completion.artifact (c : Completion) (program : String) : Except Failure Artifact :=
  match c.ending with
  | .exited 0 =>
    .ok { program, exitCode := 0, output := Text.decodeLossy (outputOf c.chunks) }
  | ending =>
    let errors := (Text.decodeLossy (errorsOf c.chunks)).toList
    .error (.failed program ending.code? (String.ofList (Text.trimEnd errors)))

/-- Hands a grammar text to a program in the file at `path`, which is there
only while the program runs. -/
def Invocation.compile (i : Invocation) (host : Host) (path grammar : String)
    (files : Workspace) : Except Failure Artifact × Workspace :=
  match files.writeBytes path (Text.encode grammar) with
  | .error fault => (.error (.notStaged path fault), files)
  | .ok staged =>
    let args := i.arguments path grammar
    if hasNul i.program || args.any hasNul then
      (.error (.notRun i.program .zeroByte), files)
    else
      match host i.program args [] staged with
      | .error fault => (.error (.notRun i.program fault), files)
      -- The grammar file goes away, whatever the program has made of it.
      | .ok completion => (completion.artifact i.program, completion.files.removePath path)

end TreeSchema.Program
