import TreeSchema.Yaml.Input
/-
  Block scalars

  Scalars that take up the lines indented below them, either literally or
  with lines folded together. A header says how the line ends at the end are
  kept and, if need be, how deep the lines are indented; else the first line
  that is not empty says so.
-/

namespace TreeSchema.Yaml

/-- What becomes of the line ends at the end of a block scalar. -/
inductive Chomping where
  /-- None is kept. -/
  | strip
  /-- One is kept. -/
  | clip
  /-- All are kept. -/
  | keep
  deriving DecidableEq, Repr

def Chomping.ofChar? (c : Char) : Option Chomping :=
  if c = '+' then some keep else if c = '-' then some strip else none

structure BlockHeader where
  chomping : Chomping
  /-- The indent of the lines against the collection around them, if
  given. -/
  increment : Option Nat
  deriving DecidableEq, Repr

/-- Reads an indentation indicator if one follows; zero is ill-formed. -/
def readIncrement (i : Input) : Option (Option Nat × Input) :=
  match i.peek with
  | some c =>
    if isDigit c then
      if c = '0' then none else some (some (c.toNat - '0'.toNat), i.skip)
    else some (none, i)
  | none => some (none, i)

/-- Reads the indicators after `|` or `>`, in either order. -/
def readBlockHeader (i : Input) : Option (BlockHeader × Input) :=
  match i.peek.bind Chomping.ofChar? with
  | some chomping => do
    let (increment, i) ← readIncrement i.skip
    return ({ chomping, increment }, i)
  | none => do
    let (increment, i) ← readIncrement i
    match increment, i.peek.bind Chomping.ofChar? with
    | some n, some chomping => return ({ chomping, increment := some n }, i.skip)
    | increment, _ => return ({ chomping := .clip, increment }, i)

/-- Passes spaces up to the column `indent`; all of them if none is known. -/
def skipIndent (indent : Option Nat) : (fuel : Nat) → Input → Input
  | 0, i => i
  | fuel + 1, i =>
    if i.peek = some ' ' ∧ indent.all (fun n => i.column < n) then skipIndent indent fuel i.skip
    else i

/-- Reads the empty lines ahead and the indent of the line after them: the
line ends, the deepest indent seen, and what follows. A tab where a space of
the indent should stand is ill-formed. -/
def readEmptyLines (indent : Option Nat) :
    (fuel : Nat) → (breaks : List Char) → (deepest : Nat) → Input →
      Option (List Char × Nat × Input)
  | 0, breaks, deepest, i => some (breaks, deepest, i)
  | fuel + 1, breaks, deepest, i =>
    let i := skipIndent indent (i.rest.length + 1) i
    let deepest := max deepest i.column
    if indent.all (fun n => i.column < n) && i.peek == some '\t' then none
    else if i.peek.any isBreak then
      let (newline, i) := i.takeBreak
      readEmptyLines indent fuel (breaks ++ newline) deepest i
    else some (breaks, deepest, i)

structure BlockLines where
  text : List Char
  /-- The line end after the last line. -/
  lastBreak : List Char
  /-- The empty lines after it. -/
  emptyLines : List Char
  /-- Whether the last line began with a blank. -/
  startsBlank : Bool
  deriving Repr

/-- What joins the next line to the text. Between two lines that do not begin
with a blank, a folded scalar reads a line end as a space, or as nothing if
empty lines follow it. -/
def BlockLines.joint (folded nextBlank : Bool) (b : BlockLines) : List Char :=
  if folded && b.lastBreak == ['\n'] && !b.startsBlank && !nextBlank then
    (if b.emptyLines.isEmpty then [' '] else []) ++ b.emptyLines
  else b.lastBreak ++ b.emptyLines

/-- Reads lines indented to the column `indent`. -/
def readBlockLines (folded : Bool) (indent : Nat) :
    (fuel : Nat) → BlockLines → Input → Option (BlockLines × Input)
  | 0, b, i => some (b, i)
  | fuel + 1, b, i =>
    if i.column = indent ∧ i.peek.isSome then do
      let nextBlank := i.peek.any isBlank
      let (line, after) := i.takeWhile fun c => !isBreak c
      let (lastBreak, after) := after.takeBreak
      let (emptyLines, _, after) ← readEmptyLines (some indent) (after.rest.length + 1) [] 0 after
      readBlockLines folded indent fuel
        { text := b.text ++ b.joint folded nextBlank ++ line
          lastBreak, emptyLines, startsBlank := nextBlank } after
    else some (b, i)

/-- Reads a block scalar, its indicator being next; `parent` is the indent of
the collection around it. -/
def readBlock (folded : Bool) (parent : Int) (i : Input) : Option (String × Input) := do
  let (header, i) ← readBlockHeader i.skip
  let i ← i.finishLine
  let given := header.increment.map fun n => if 0 ≤ parent then parent.toNat + n else n
  let (emptyLines, deepest, i) ← readEmptyLines given (i.rest.length + 1) [] 0 i
  let indent := given.getD (max (max deepest (parent + 1).toNat) 1)
  let start : BlockLines := { text := [], lastBreak := [], emptyLines, startsBlank := false }
  let (b, i) ← readBlockLines folded indent (i.rest.length + 1) start i
  let tail := match header.chomping with
    | .strip => []
    | .clip => b.lastBreak
    | .keep => b.lastBreak ++ b.emptyLines
  return (String.ofList (b.text ++ tail), i)

end TreeSchema.Yaml
