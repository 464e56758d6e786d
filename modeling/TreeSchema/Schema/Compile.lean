import TreeSchema.Grammar.Printer
import TreeSchema.Schema.Assembly
import TreeSchema.Schema.Emission
/-
  Compiling a schema

  From schema text to its grammar, and to the text of that grammar.
  Compilation is all or nothing: it stops at the first error, which names the
  file that the text was read from.
-/

namespace TreeSchema.Schema

/-- What a compilation can be asked for. -/
structure Options where
  /-- The name of the grammar. -/
  name : String := "Schema"
  /-- The root entity as sigil and name; the first declaration if unset. -/
  root : Option String := none
  deriving DecidableEq, Repr

def readEntities (file source : String) : Except Error (List Entity) := do
  let declarations ← Declaration.readAll file source
  assemble file declarations

def resolveEntities (file : String) (entities : List Entity) (root : Option String) :
    Except Error Resolved := do
  let table ← SymbolTable.ofEntities file entities
  table.resolve file root

/-- A schema text, closed and rooted. -/
def resolveSource (file source : String) (root : Option String) : Except Error Resolved := do
  let entities ← readEntities file source
  resolveEntities file entities root

def compileGrammar (file source : String) (options : Options) : Except Error Grammar := do
  let resolved ← resolveSource file source options.root
  return resolved.grammar options.name

/-- The grammar text of a schema text. -/
def compile (file source : String) (options : Options) : Except Error String := do
  let grammar ← compileGrammar file source options
  return grammar.text

end TreeSchema.Schema
