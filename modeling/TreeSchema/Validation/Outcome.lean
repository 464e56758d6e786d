import TreeSchema.Validation.Violation
/-
  Outcomes of parsing

  Parsing a stretch of tokens either fails, or leaves the tokens it did not
  take and the violations it recorded on the way. A third outcome says that
  the allowance of nested rules ran out before either could be told.
-/

namespace TreeSchema.Validation

inductive Outcome where
  /-- The allowance of nested rules ran out. -/
  | exhausted
  /-- The tokens do not fit. -/
  | mismatch
  /-- The tokens fit, apart from the elements recorded. -/
  | parsed (rest : List PlacedToken) (recorded : List Violation)
  deriving DecidableEq, Repr

namespace Outcome

/-- The outcome with violations recorded before it. -/
def after (earlier : List Violation) : Outcome → Outcome
  | parsed rest recorded => parsed rest (earlier ++ recorded)
  | other => other

/-- One parse, then another on what it leaves. -/
def andThen (first : Outcome) (next : List PlacedToken → Outcome) : Outcome :=
  match first with
  | parsed rest recorded => (next rest).after recorded
  | other => other

end Outcome

/-- A way to parse: from the tokens ahead to an outcome. -/
abbrev Parse := List PlacedToken → Outcome

/-- Takes one token that the terminal accepts. -/
def takeTerminal (t : Terminal) : Parse
  | [] => .mismatch
  | token :: rest => if t.accepts token.token then .parsed rest [] else .mismatch

/-- Repeats a parse until the enclosing container closes. An element that
does not fit is recorded and passed as a whole. A parse that takes nothing
ends the repetition. Every repetition takes a token, so that the number of
tokens ahead is allowance enough. -/
def repeatFrom (inner : Parse) (expected : List Terminal) (rule : String) :
    (allowance : Nat) → Parse
  | 0, rest => .parsed rest []
  | _ + 1, [] => .parsed [] []
  | allowance + 1, token :: rest =>
    if token.token.isClose then .parsed (token :: rest) []
    else
      let attempt :=
        if expected.any fun t => t.accepts token.token then inner (token :: rest) else .mismatch
      match attempt with
      | .exhausted => .exhausted
      | .parsed left recorded =>
        -- Nothing was taken, so that going on would change nothing.
        if left.length = rest.length + 1 then .parsed left recorded
        else (repeatFrom inner expected rule allowance left).after recorded
      | .mismatch =>
        (repeatFrom inner expected rule allowance (skipElement (token :: rest))).after
          [.reject rule expected (token :: rest)]

def repeatParse (inner : Parse) (expected : List Terminal) (rule : String) : Parse :=
  fun rest => repeatFrom inner expected rule rest.length rest

/-- The better of two results: the one with fewer violations, the earlier
one on a tie. -/
def better (best : Option (List PlacedToken × List Violation))
    (rest : List PlacedToken) (recorded : List Violation) :
    List PlacedToken × List Violation :=
  match best with
  | none => (rest, recorded)
  | some (bestRest, bestRecorded) =>
    if recorded.length < bestRecorded.length then (rest, recorded) else (bestRest, bestRecorded)

/-- Tries candidates in order on the same tokens. The first that records
nothing wins at once, else the first of those that record least; if all
fail, so does the choice. -/
def chooseFrom {α : Type} (parse : α → Outcome)
    (best : Option (List PlacedToken × List Violation)) : List α → Outcome
  | [] => match best with
    | none => .mismatch
    | some (rest, recorded) => .parsed rest recorded
  | candidate :: others =>
    match parse candidate with
    | .exhausted => .exhausted
    | .mismatch => chooseFrom parse best others
    | .parsed rest recorded =>
      -- A clean parse ends the search; later candidates are not looked at.
      if recorded.isEmpty then .parsed rest []
      else chooseFrom parse (some (better best rest recorded)) others

def choose {α : Type} (parse : α → Outcome) (candidates : List α) : Outcome :=
  chooseFrom parse none candidates

end TreeSchema.Validation
