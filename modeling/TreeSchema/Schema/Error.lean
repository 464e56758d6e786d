import TreeSchema.Schema.Kind
/-
  Schema errors

  Why a schema does not compile: the cause, with the file and the lines it
  points at, and the wording of each. Lines have numbers of 32 bits.
-/

namespace TreeSchema.Schema

/-- What is wrong with one declaration line. -/
inductive LineFault where
  /-- The line has no colon. -/
  | missingColon (line : String)
  /-- The line does not begin with a sigil. -/
  | declarationSigil (found : Char)
  /-- An item begins with neither a sigil nor a quote. -/
  | itemSigil (found : Char) (word : String)
  /-- A quote with nothing after it. -/
  | emptyLiteral
  /-- An alias whose parenthesis never closes. -/
  | aliasUnclosed (word : String)
  /-- An alias without a key. -/
  | aliasWithoutKey (word : String)
  /-- A sigil with no name after it. -/
  | missingName
  /-- A character that names may not contain. -/
  | nameCharacter (found : Char) (name : String)
  /-- A scalar that lists something other than literals and the text marker. -/
  | scalarItem (name : String)
  /-- An array that lists a keyed member. -/
  | keyedArrayMember (name : String)
  /-- A container that lists something other than references. -/
  | notReference (kind : Kind) (name : String)
  /-- A mapping that declares one key twice. -/
  | repeatedKey (name key : String)
  deriving DecidableEq, Repr

def LineFault.message : LineFault → String
  | missingColon line => s!"declaration '{line}' is missing the ':' separator"
  | declarationSigil c => s!"unrecognized declaration sigil '{c}'"
  | itemSigil c word => s!"unrecognized item sigil '{c}' in '{word}'"
  | emptyLiteral => "empty literal '''"
  | aliasUnclosed word => s!"malformed alias in '{word}': missing ')'"
  | aliasWithoutKey word => s!"malformed alias in '{word}': empty key"
  | missingName => "missing entity name"
  | nameCharacter c name => s!"invalid character '{c}' in name '{name}'"
  | scalarItem name => s!"scalar '{name}' may only list literal values or TEXT"
  | keyedArrayMember name => s!"array '{name}' cannot use keyed members"
  | notReference kind name =>
    kind.text ++ s!" '{name}' may only list $scalar, @array or %mapping references"
  | repeatedKey name key => s!"mapping '{name}' declares key '{key}' more than once"

/-- Why a schema does not compile. -/
inductive Error where
  /-- A line is malformed. -/
  | syntaxFault (file : String) (line : UInt32) (fault : LineFault)
  /-- A pair of kind and name is declared twice. -/
  | duplicate (file : String) (line : UInt32) (kind : Kind) (name : String) (firstLine : UInt32)
  /-- The root asked for is not declared. -/
  | unknownRoot (wanted : String)
  /-- The schema declares nothing. -/
  | noEntities (file : String)
  /-- The schema text could not be read. -/
  | unreadable (path reason : String)
  deriving DecidableEq, Repr

namespace Error

def message : Error → String
  | syntaxFault file line fault => s!"{file}:{line}: " ++ fault.message
  | duplicate file line kind name firstLine =>
    s!"{file}:{line}: duplicate " ++ kind.text
      ++ s!" '{name}': first declared at line {firstLine}"
  | unknownRoot wanted => s!"root entity '{wanted}' is not declared"
  | noEntities file => s!"{file}: schema declares no entities"
  | unreadable path reason => s!"cannot read '{path}': {reason}"

/-- The name of the error's class in machine-readable reports. -/
def className : Error → String
  | syntaxFault .. => "SpecSyntaxError"
  | duplicate .. => "DuplicateEntityError"
  | unknownRoot _ => "UnknownRootError"
  | noEntities _ => "EmptySchemaError"
  | unreadable .. => "SourceError"

/-- The line an error points at, when it points at one. -/
def line? : Error → Option UInt32
  | syntaxFault _ line _ => some line
  | duplicate _ line .. => some line
  | _ => none

/-- The file an error points at. A root that is not declared is no fault of
the file. -/
def file? : Error → Option String
  | syntaxFault file .. | duplicate file .. | noEntities file => some file
  | unreadable path _ => some path
  | unknownRoot _ => none

end Error

end TreeSchema.Schema
