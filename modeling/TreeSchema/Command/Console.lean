import TreeSchema.Command.Config
import TreeSchema.Program.GrammarCompiler
/-
  The console

  A command prints and writes files as it goes, and stops with an exit code
  where it cannot go on. What it has printed and written by then remains.
-/

namespace TreeSchema.Command

open File

/-- What commands are run with beside their workspace: the programs at hand,
and the path under which a grammar is handed to one of them. -/
structure Environment where
  host : Program.Host
  stagedPath : String

/-- What has been printed so far, and the files. -/
structure Console where
  output : String := ""
  errors : String := ""
  files : Workspace

/-- A piece of work at the console, which may stop the command with an exit
code. -/
abbrev Work := EStateM Nat Console

namespace Work

def print (text : String) : Work Unit :=
  modify fun c => { c with output := c.output ++ text }

def printError (text : String) : Work Unit :=
  modify fun c => { c with errors := c.errors ++ text }

def files : Work Workspace := return (← get).files

def setFiles (files : Workspace) : Work Unit := modify fun c => { c with files }

def stop {α : Type} (exitCode : Nat) : Work α := throw exitCode

end Work

end TreeSchema.Command
