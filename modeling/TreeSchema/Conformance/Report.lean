import TreeSchema.Text.Lines
/-
  Test reports

  The outcome of test cases in the line format that test runners read: a
  version, a plan, one line for each case with the reason of a failure below
  it, and the totals.
-/

namespace TreeSchema.Conformance

/-- A test case, and why it failed if it did. -/
structure Case where
  name : String
  failure : Option String := none
  deriving DecidableEq, Repr

def Case.failed (c : Case) : Bool := c.failure.isSome

def failures (cases : List Case) : Nat := cases.countP Case.failed

/-- The lines of a case with its number. -/
def Case.lines (c : Case) (number : Nat) : List String :=
  match c.failure with
  | none => [s!"ok {number} - {c.name}"]
  | some reason =>
    s!"not ok {number} - {c.name}"
      :: (Text.lines reason.toList).map fun line => "  # " ++ String.ofList line

def reportLines (cases : List Case) : List String :=
  ["TAP version 14", s!"1..{cases.length}"]
    ++ (cases.zipIdx 1).flatMap (fun (c, number) => c.lines number)
    ++ [s!"# tests {cases.length}", s!"# pass  {cases.length - failures cases}",
        s!"# fail  {failures cases}"]

def reportText (cases : List Case) : String :=
  "".intercalate ((reportLines cases).map (· ++ "\n"))

end TreeSchema.Conformance
