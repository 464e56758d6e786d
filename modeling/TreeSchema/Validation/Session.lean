import TreeSchema.Tree.Load
import TreeSchema.Validation.Cursor
/-
  Sessions

  A validator that judges one document after another and holds the
  violations of the last one. A document that cannot be loaded is not judged
  and leaves them as they are.
-/

namespace TreeSchema.Validation

/-- A validator and the violations it holds. -/
structure Session where
  validator : Validator
  held : List Violation
  deriving Repr

namespace Session

def start (validator : Validator) : Session := { validator, held := [] }

def judge (s : Session) (document : Document) : Session :=
  { s with held := (s.validator.validate? document.node).getD [] }

def step (s : Session) : Except LoadError Document → Session
  | .ok document => s.judge document
  | .error _ => s

def steps (s : Session) : List (Except LoadError Document) → List Session
  | [] => []
  | d :: rest => s.step d :: (s.step d).steps rest

end Session

end TreeSchema.Validation
