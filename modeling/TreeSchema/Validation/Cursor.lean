import TreeSchema.Validation.Validator
/-
  Cursors

  Parsing with one cursor, which holds the tokens ahead and the violations
  recorded so far. A parse moves it on and adds to it as it goes, and where it
  fails it leaves the cursor as it is. Whoever goes on with something else
  first sets the cursor back to the tokens where it was, and drops what has
  been recorded since.
-/

namespace TreeSchema.Validation

/-- The tokens ahead, and the violations recorded so far. -/
structure Cursor where
  ahead : List PlacedToken
  recorded : List Violation
  deriving DecidableEq, Repr

namespace Cursor

/-- The cursor set back to the tokens at `start`, with only the first `mark`
violations. -/
def backTo (c : Cursor) (start : List PlacedToken) (mark : Nat) : Cursor :=
  { ahead := start, recorded := c.recorded.take mark }

/-- Records the element ahead as rejected, and passes it as a whole. -/
def reject (c : Cursor) (rule : String) (expected : List Terminal) : Cursor :=
  { ahead := skipElement c.ahead, recorded := c.recorded ++ [.reject rule expected c.ahead] }

end Cursor

/-- How a parse that moves a cursor ends. -/
inductive Attempt where
  /-- The allowance of nested rules ran out. -/
  | exhausted
  /-- The tokens do not fit; the cursor is left where that was found. -/
  | failed (cursor : Cursor)
  | passed (cursor : Cursor)
  deriving DecidableEq, Repr

def Attempt.andThen : Attempt → (Cursor → Attempt) → Attempt
  | passed c, next => next c
  | other, _ => other

/-- A way to move a cursor. -/
abbrev Move := Cursor → Attempt

/-- Takes one token that the terminal accepts. -/
def moveTerminal (t : Terminal) : Move := fun c =>
  match c.ahead with
  | [] => .failed c
  | token :: rest => if t.accepts token.token then .passed { c with ahead := rest } else .failed c

/-- Repeats a parse until the enclosing container closes. An element that
does not fit is rejected. A parse that takes nothing ends the repetition. -/
def moveRepeatedFrom (inner : Move) (expected : List Terminal) (rule : String) :
    (allowance : Nat) → Move
  | 0, c => .passed c
  | allowance + 1, c =>
    match c.ahead with
    | [] => .passed c
    | token :: _ =>
      if token.token.isClose then .passed c
      else
        let start := c.ahead
        let mark := c.recorded.length
        let attempt := if expected.any fun t => t.accepts token.token then inner c else .failed c
        match attempt with
        | .exhausted => .exhausted
        | .passed next =>
          if next.ahead.length = start.length then .passed next
          else moveRepeatedFrom inner expected rule allowance next
        | .failed next =>
          moveRepeatedFrom inner expected rule allowance
            ((next.backTo start mark).reject rule expected)

def moveRepeated (inner : Move) (expected : List Terminal) (rule : String) : Move :=
  fun c => moveRepeatedFrom inner expected rule c.ahead.length c

/-- Tries candidates in order, each from the tokens at `start` and with the
first `mark` violations. The best result so far is kept apart, as the tokens
that it leaves and the violations that it adds. -/
def tryFrom {α : Type} (parse : α → Move) (start : List PlacedToken) (mark : Nat)
    (best : Option (List PlacedToken × List Violation)) : List α → Move
  | [], c =>
    match best with
    | none => .failed (c.backTo start mark)
    | some (rest, added) =>
      .passed { ahead := rest, recorded := (c.backTo start mark).recorded ++ added }
  | candidate :: others, c =>
    match parse candidate (c.backTo start mark) with
    | .exhausted => .exhausted
    | .failed next => tryFrom parse start mark best others next
    | .passed next =>
      -- A clean parse ends the search; later candidates are not looked at.
      if next.recorded.length = mark then .passed next
      else if best.all fun (_, added) => next.recorded.length - mark < added.length then
        tryFrom parse start mark (some (next.ahead, next.recorded.drop mark)) others next
      else tryFrom parse start mark best others next

/-- Tries candidates in order, each from where the cursor is: the first that
records nothing wins, else the first of those that record least. -/
def tryAll {α : Type} (parse : α → Move) (candidates : List α) : Move :=
  fun c => tryFrom parse c.ahead c.recorded.length none candidates c

namespace Validator

/-- Moves over one symbol of the rule `rule`, where `call` moves over a
nonterminal. -/
def moveSymbol (v : Validator) (call : String → Move) (rule : String) : Symbol → Move
  | .terminal t => moveTerminal t
  | .nonterminal name => call name
  | .repeated inner =>
    moveRepeated (v.moveSymbol call rule inner) (v.firstOfSymbol inner) rule

def moveSymbols (v : Validator) (call : String → Move) (rule : String) : List Symbol → Move
  | [], c => .passed c
  | s :: others, c => (v.moveSymbol call rule s c).andThen (v.moveSymbols call rule others)

def moveBranch (v : Validator) (call : String → Move) (rule : String) (b : Branch) : Move :=
  v.moveSymbols call rule b.symbols

def moveChoice (v : Validator) (call : String → Move) (rule : String)
    (candidates : List Branch) : Move :=
  tryAll (v.moveBranch call rule) candidates

/-- Moves over a nonterminal, with an allowance of nested rules. -/
def moveRule (v : Validator) : (allowance : Nat) → String → Move
  | 0, _, _ => .exhausted
  | allowance + 1, name, c =>
    match v.candidates name c.ahead with
    | [] => .failed c
    | [only] => v.moveBranch (v.moveRule allowance) name only c
    | candidates => v.moveChoice (v.moveRule allowance) name candidates c

/-- The violations of a document, or `none` if the allowance of nested rules
runs out. -/
def validate? (v : Validator) (document : Node) : Option (List Violation) :=
  let start : Cursor := { ahead := document.tokens, recorded := [] }
  match v.moveRule (v.allowance document) v.start start with
  | .exhausted => none
  | .passed { ahead := [], recorded } => some recorded
  -- Nothing that has been recorded counts if the document does not fit as a whole.
  | _ => some (start.reject v.start (v.firstOf v.start)).recorded

end Validator

end TreeSchema.Validation
