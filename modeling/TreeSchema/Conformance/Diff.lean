import TreeSchema.Text.Lines
/-
  Comparing texts

  Where two texts differ: at the first line that is not the same in both, or,
  if all lines are, only in how their lines end.
-/

namespace TreeSchema.Conformance

/-- Where two texts differ. -/
inductive Difference where
  /-- At a line, counted from one; a line that is missing is `none`. -/
  | atLine (line : Nat) (expected got : Option String)
  /-- All lines are the same. -/
  | lineEnds
  deriving DecidableEq, Repr

def Difference.message : Difference → String
  | atLine line expected got =>
    let shown (text : Option String) : String := text.getD "<end of file>"
    s!"output mismatch at line {line}:\n  expected: " ++ shown expected
      ++ "\n  got:      " ++ shown got
  | lineEnds => "output differs only in trailing newlines"

def differenceFrom (line : Nat) : (expected got : List (List Char)) → Difference
  | [], [] => .lineEnds
  | e :: _, [] => .atLine line (some (String.ofList e)) none
  | [], g :: _ => .atLine line none (some (String.ofList g))
  | e :: es, g :: gs =>
    if e = g then differenceFrom (line + 1) es gs
    else .atLine line (some (String.ofList e)) (some (String.ofList g))

/-- The first difference between two texts that are not the same. -/
def difference (expected got : String) : Difference :=
  differenceFrom 1 (Text.lines expected.toList) (Text.lines got.toList)

end TreeSchema.Conformance
