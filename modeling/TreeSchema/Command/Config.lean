import TreeSchema.Command.Request
import TreeSchema.Schema.Compile
import TreeSchema.Toml.Reader
/-
  Settings of the command line

  A settings file may give defaults in two sections: the name and root for
  compiling, and the program and arguments for building. The command line
  overrides them. A section may also be a list of its settings in this order.
  Nothing else may be set.
-/

namespace TreeSchema.Command

open Toml

/-- The defaults a settings file gives. -/
structure Config where
  name : Option String := none
  root : Option String := none
  program : Option String := none
  args : List String := []
  deriving DecidableEq, Repr

namespace Config

def textOf? : Value → Option String
  | .text s => some s
  | _ => none

def textsOf? : Value → Option (List String)
  | .list items => items.mapM textOf?
  | _ => none

/-- The defaults with one setting for compiling. -/
def setCompile (c : Config) (key : String) (value : Value) : Option Config :=
  match key with
  | "name" => (textOf? value).map fun name => { c with name := some name }
  | "root" => (textOf? value).map fun root => { c with root := some root }
  | _ => none

/-- The defaults with one setting for building. -/
def setBackend (c : Config) (key : String) (value : Value) : Option Config :=
  match key with
  | "program" => (textOf? value).map fun program => { c with program := some program }
  | "args" => (textsOf? value).map fun args => { c with args }
  | _ => none

def withCompile (c : Config) : Value → Option Config
  | .table _ entries => entries.foldlM (fun c (key, value) => c.setCompile key value) c
  | .list (name :: root :: _) => do (← c.setCompile "name" name).setCompile "root" root
  | _ => none

def withBackend (c : Config) : Value → Option Config
  | .table _ entries => entries.foldlM (fun c (key, value) => c.setBackend key value) c
  | .list [program] => c.setBackend "program" program
  | .list (program :: args :: _) => do (← c.setBackend "program" program).setBackend "args" args
  | _ => none

def withSection (c : Config) (key : String) (value : Value) : Option Config :=
  match key with
  | "compile" => c.withCompile value
  | "backend" => c.withBackend value
  | _ => none

/-- The defaults in a text; `none` if it is malformed or sets anything
else. -/
def ofText? (text : String) : Option Config := do
  let entries ← Toml.read? text
  entries.foldlM (fun c (key, value) => c.withSection key value) {}

/-- What a compilation is asked for. -/
def options (c : Config) (schema : SchemaChoice) : Schema.Options :=
  { name := (schema.name.or c.name).getD "Schema", root := schema.root.or c.root }

end Config

end TreeSchema.Command
