import TreeSchema.Schema.Kind
import TreeSchema.Text.Escaped
/-
  Log events

  What compiling and validating have to say about their progress, as data.
  An event has a level, a message and named fields.
-/

namespace TreeSchema.Log

/-- How much an event matters. -/
inductive Level where
  | debug
  | info
  | warn
  deriving DecidableEq, Repr

def Level.text : Level → String
  | debug => "DEBUG"
  | info => "INFO"
  | warn => "WARN"

inductive Field where
  | number (n : Nat)
  | text (s : String)
  deriving DecidableEq, Repr

inductive Event where
  /-- A scalar lists literals and the text marker. -/
  | literalsIgnored (file : String) (line : UInt32) (scalar : String)
  /-- An array lists a member it already has. -/
  | memberCollapsed (file : String) (line : UInt32) (array member : String)
  | tableBuilt (entities : Nat)
  | anonymousAdded (kind : Schema.Kind) (name : String)
  | referencesResolved (declared anonymous : Nat) (root : String)
  | grammarEmitted (rules : Nat) (start : String)
  | compiling (file : String) (bytes : Nat)
  | validatorBuilt (grammar : String) (rules : Nat)
  | documentValidated (errors : Nat)
  | invoking (program : String) (args : List String)
  | finished (program : String)
  deriving DecidableEq, Repr

namespace Event

def level : Event → Level
  | literalsIgnored .. | memberCollapsed .. => .warn
  | invoking .. | finished _ => .info
  | _ => .debug

def message : Event → String
  | literalsIgnored .. => "literal values ignored: scalar is unconstrained"
  | memberCollapsed .. => "duplicate array member collapsed"
  | tableBuilt _ => "symbol table built"
  | anonymousAdded .. => "synthesizing anonymous entity"
  | referencesResolved .. => "references resolved"
  | grammarEmitted .. => "grammar emitted"
  | compiling .. => "compiling schema"
  | validatorBuilt .. => "validator built"
  | documentValidated _ => "document validated"
  | invoking .. => "invoking grammar compiler"
  | finished _ => "grammar compiler finished"

def fields : Event → List (String × Field)
  | literalsIgnored file line scalar =>
    [("file", .text file), ("line", .number line.toNat), ("scalar", .text scalar)]
  | memberCollapsed file line array member =>
    [("file", .text file), ("line", .number line.toNat), ("array", .text array),
      ("member", .text member)]
  | tableBuilt entities => [("entities", .number entities)]
  | anonymousAdded kind name => [("kind", .text kind.text), ("name", .text name)]
  | referencesResolved declared anonymous root =>
    [("declared", .number declared), ("anonymous", .number anonymous), ("root", .text root)]
  | grammarEmitted rules start => [("rules", .number rules), ("start", .text start)]
  | compiling file bytes => [("file", .text file), ("bytes", .number bytes)]
  | validatorBuilt grammar rules => [("grammar", .text grammar), ("rules", .number rules)]
  | documentValidated errors => [("errors", .number errors)]
  | invoking program args => [("program", .text program), ("args", .text (Text.escapedList args))]
  | finished program => [("program", .text program)]

end Event

end TreeSchema.Log
