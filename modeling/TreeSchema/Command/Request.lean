/-
  Requests

  What the command line can ask for: an action, the settings file to take
  defaults from, and how the outcome is to be shown.
-/

namespace TreeSchema.Command

/-- The form of what is printed. -/
inductive Format where
  | text
  | json
  deriving DecidableEq, Repr

/-- How an outcome is to be shown. -/
structure Presentation where
  format : Format := .text
  quiet : Bool := false
  deriving DecidableEq, Repr

/-- The schema to compile, and what is asked of its grammar. -/
structure SchemaChoice where
  path : String
  name : Option String := none
  root : Option String := none
  deriving DecidableEq, Repr

inductive Action where
  /-- Compile a schema, and print the grammar or write it to a file. -/
  | compile (schema : SchemaChoice) (out : Option String)
  /-- Judge documents by a schema. -/
  | check (schema : SchemaChoice) (documents : List String)
  /-- Hand the grammar of a schema to an external program. -/
  | build (schema : SchemaChoice) (program : Option String) (args : List String)
  /-- Run a conformance suite. -/
  | test (directory : String)
  deriving DecidableEq, Repr

structure Request where
  presentation : Presentation
  config : Option String
  action : Action
  deriving DecidableEq, Repr

end TreeSchema.Command
