import TreeSchema.Yaml.Input
/-
  Plain scalars

  A scalar without quotes. It ends at a colon before a blank, at a comment,
  and inside flow collections at a comma or bracket. It may go on over lines
  that are indented deeper than the collection around it; a single line end
  between two words reads as a space, further ones are kept.
-/

namespace TreeSchema.Yaml

/-- Blanks and line ends between two words of a scalar. -/
inductive Gap where
  /-- Blanks within a line. -/
  | blanks (text : List Char)
  /-- The first line end, and the line ends after it. -/
  | lines (first : List Char) (others : List Char)
  deriving DecidableEq, Repr

namespace Gap

/-- What a gap reads as. -/
def text : Gap → List Char
  | blanks text => text
  | lines first others =>
    if first = ['\n'] then (if others.isEmpty then [' '] else others) else first ++ others

def crossesLine : Gap → Bool
  | blanks _ => false
  | lines .. => true

def addBreak (newline : List Char) : Gap → Gap
  | blanks _ => lines newline []
  | lines first others => lines first (others ++ newline)

/-- The gap with one more blank; after a line end blanks do not count. -/
def addBlank (c : Char) : Gap → Gap
  | blanks text => blanks (text ++ [c])
  | lines first others => lines first others

end Gap

/-- Reads the blanks and line ends ahead. A tab to the left of `indent` on a
later line is ill-formed. -/
def readGap (indent : Int) : (fuel : Nat) → Gap → Input → Option (Gap × Input)
  | 0, gap, i => some (gap, i)
  | fuel + 1, gap, i =>
    match i.peek with
    | none => some (gap, i)
    | some c =>
      if isBlank c then
        if gap.crossesLine && (i.column : Int) < indent && c = '\t' then none
        else readGap indent fuel (gap.addBlank c) i.skip
      else if isBreak c then
        let (newline, i) := i.takeBreak
        readGap indent fuel (gap.addBreak newline) i
      else some (gap, i)

/-- Whether `c` ends a plain scalar inside a flow collection. -/
def isFlowIndicator (c : Char) : Bool :=
  c = ',' || c = '[' || c = ']' || c = '\x7b' || c = '\x7d'

/-- Reads a run of characters without blanks. Inside a flow collection a
colon just before an indicator is ill-formed. -/
def readRun (inFlow : Bool) : (fuel : Nat) → Input → Option (List Char × Input)
  | 0, i => some ([], i)
  | fuel + 1, i =>
    match i.rest with
    | [] => some ([], i)
    | c :: rest =>
      let follower := rest.head?
      if isBlank c || isBreak c then some ([], i)
      else if inFlow && c = ':' && follower.any (fun d => isFlowIndicator d || d = '?') then none
      else if c = ':' && endsWord follower then some ([], i)
      else if inFlow && isFlowIndicator c then some ([], i)
      else (readRun inFlow fuel i.skip).map fun (run, i) => (c :: run, i)

/-- What reading a plain scalar leaves: its text, whether line ends follow
it, and the text ahead. -/
structure PlainScalar where
  text : List Char
  beforeLine : Bool
  rest : Input
  deriving Repr

/-- Reads runs and gaps until the scalar ends. -/
def readPlainFrom (inFlow : Bool) (indent : Int) :
    (fuel : Nat) → (text : List Char) → Gap → Input → Option PlainScalar
  | 0, text, gap, i => some { text, beforeLine := gap.crossesLine, rest := i }
  | fuel + 1, text, gap, i =>
    if i.atDocumentMark || i.peek == some '#' then
      some { text, beforeLine := gap.crossesLine, rest := i }
    else do
      let (run, i) ← readRun inFlow (i.rest.length + 1) i
      let (text, gap) := if run.isEmpty then (text, gap) else (text ++ gap.text ++ run, .blanks [])
      if i.peek.any fun c => isBlank c || isBreak c then do
        let (gap, i) ← readGap indent (i.rest.length + 1) gap i
        if !inFlow && (i.column : Int) < indent then
          some { text, beforeLine := gap.crossesLine, rest := i }
        else readPlainFrom inFlow indent fuel text gap i
      else some { text, beforeLine := gap.crossesLine, rest := i }

/-- Reads a plain scalar; `indent` is the least column of its later lines. -/
def readPlain (inFlow : Bool) (indent : Int) (i : Input) : Option PlainScalar :=
  readPlainFrom inFlow indent (i.rest.length + 1) [] (.blanks []) i

end TreeSchema.Yaml
