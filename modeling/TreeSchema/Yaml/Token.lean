/-
  YAML tokens

  What YAML text consists of, with the structure that indentation gives made
  explicit: where block collections start and end, and which scalars are
  keys.
-/

namespace TreeSchema.Yaml

/-- Whether a scalar is written bare, or in quotes or as a block. -/
inductive Style where
  | plain
  | quoted
  deriving DecidableEq, Repr

/-- A tag as written: a handle, empty for a verbatim tag, and a suffix. -/
structure TagText where
  handle : String
  suffix : String
  deriving DecidableEq, Repr

inductive Token where
  | version (major minor : Nat)
  | tagDirective (handle content : String)
  | documentStart
  | documentEnd
  | blockSequenceStart
  | blockMappingStart
  | blockEnd
  | flowSequenceStart
  | flowSequenceEnd
  | flowMappingStart
  | flowMappingEnd
  | blockEntry
  | flowEntry
  | key
  | value
  | alias (name : String)
  | anchor (name : String)
  | tag (text : TagText)
  | scalar (text : String) (style : Style)
  deriving DecidableEq, Repr

end TreeSchema.Yaml
