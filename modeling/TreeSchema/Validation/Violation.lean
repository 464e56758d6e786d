import TreeSchema.Grammar.Printer
import TreeSchema.Tree.Token
/-
  Violations

  One rejected element: where it is, what was found, what would have been
  accepted, and by which rule.
-/

namespace TreeSchema

def Terminal.accepts : Terminal → TreeToken → Bool
  | .scalar, .scalar _ => true
  | .literal value, .scalar text => value == text
  | .key none, .key _ => true
  | .key (some name), .key found => name == found
  | .openSequence, .openSequence => true
  | .closeSequence, .closeSequence => true
  | .openMapping, .openMapping => true
  | .closeMapping, .closeMapping => true
  | _, _ => false

/-- One rejected element. -/
structure Violation where
  path : String
  found : String
  expected : List String
  rule : String
  deriving DecidableEq, Repr

namespace Violation

/-- The element that begins the remaining tokens is rejected. -/
def reject (rule : String) (expected : List Terminal) (rest : List PlacedToken) : Violation :=
  match rest with
  | [] => { path := Path.root, found := "end of document",
            expected := expected.map Terminal.text, rule }
  | t :: _ => { path := t.path, found := t.token.display,
                expected := expected.map Terminal.text, rule }

/-- A violation as a line of a report. -/
def display (v : Violation) : String :=
  v.path ++ ": unexpected " ++ v.found ++ " in " ++ v.rule ++ ", expected "
    ++ " | ".intercalate v.expected

end Violation

end TreeSchema
