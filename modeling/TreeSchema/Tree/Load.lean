import TreeSchema.Json.Reader
import TreeSchema.Yaml.Reader
/-
  Loading documents

  A JSON or YAML text as a tree. Both formats come to the same kind of tree:
  scalars are their texts, and mapping keys are texts too.
-/

namespace TreeSchema

/-- Why a document cannot be loaded. -/
inductive LoadError where
  /-- The text is no JSON. -/
  | json (error : Json.Error)
  /-- The text is no YAML. -/
  | yaml
  /-- A mapping of the document has a key that is no scalar. -/
  | keyNotScalar
  deriving DecidableEq, Repr

/-- The wording of an error. What is wrong with a YAML text is not told. -/
def LoadError.message? : LoadError → Option String
  | json error => some ("invalid document: " ++ error.message)
  | yaml => none
  | keyNotScalar => some "invalid document: mapping keys must be scalars"

namespace Document

def ofJson (text : String) : Except LoadError Document :=
  match Json.read text with
  | .ok value => .ok (value.document Json.Number.text)
  | .error e => .error (.json e)

def ofYaml (text : String) : Except LoadError Document :=
  match Yaml.read? text with
  | none => .error .yaml
  | some value =>
    match value.document? Yaml.Number.text with
    | some document => .ok document
    | none => .error .keyNotScalar

end Document

end TreeSchema
