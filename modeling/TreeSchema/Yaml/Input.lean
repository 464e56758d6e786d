/-
  YAML text

  The character classes of YAML and the text ahead with its place. A line
  ends at a line feed, a carriage return, the two together, or one of the
  three line separators beyond ASCII; all but the last two separators read as
  a line feed.
-/

namespace TreeSchema.Yaml

def isAllowed (c : Char) : Bool :=
  let n := c.toNat
  n == 0x09 || n == 0x0A || n == 0x0D || (0x20 ≤ n && n ≤ 0x7E) || n == 0x85
    || (0xA0 ≤ n && n ≤ 0xD7FF) || (0xE000 ≤ n && n ≤ 0xFFFD) || 0x10000 ≤ n

/-- Whether `c` ends a line. -/
def isBreak (c : Char) : Bool :=
  c = '\n' || c = '\r' || c = '\x85' || c = '\u2028' || c = '\u2029'

/-- Whether `c` is a space or a tab. -/
def isBlank (c : Char) : Bool := c = ' ' || c = '\t'

/-- Whether `c` may stand in names of anchors, handles and directives. -/
def isWordChar (c : Char) : Bool :=
  ('0' ≤ c && c ≤ '9') || ('A' ≤ c && c ≤ 'Z') || ('a' ≤ c && c ≤ 'z') || c = '_' || c = '-'

def isDigit (c : Char) : Bool := '0' ≤ c && c ≤ '9'

/-- Whether a line, or the text, ends here. -/
def endsLine : Option Char → Bool
  | none => true
  | some c => isBreak c

/-- Whether a word ends here: at a blank, a line end or the end of the
text. -/
def endsWord : Option Char → Bool
  | none => true
  | some c => isBlank c || isBreak c

/-- The text ahead and its place, counted from zero. -/
structure Input where
  rest : List Char
  /-- The number of bytes before it. -/
  index : Nat
  line : Nat
  column : Nat
  deriving DecidableEq, Repr

namespace Input

def start (text : List Char) : Input := { rest := text, index := 0, line := 0, column := 0 }

def peek (i : Input) : Option Char := i.rest.head?

def peekAt (i : Input) (n : Nat) : Option Char := i.rest[n]?

/-- Passes one character within a line. -/
def skip (i : Input) : Input :=
  match i.rest with
  | [] => i
  | c :: rest => { i with rest, index := i.index + c.utf8Size, column := i.column + 1 }

def skipMany : (n : Nat) → Input → Input
  | 0, i => i
  | n + 1, i => skipMany n i.skip

/-- Passes one line end: the text it reads as, and what follows. -/
def takeBreak (i : Input) : List Char × Input :=
  match i.rest with
  | '\r' :: '\n' :: rest =>
    (['\n'], { rest, index := i.index + 2, line := i.line + 1, column := 0 })
  | c :: rest =>
    if isBreak c then
      (if c = '\u2028' || c = '\u2029' then [c] else ['\n'],
        { rest, index := i.index + c.utf8Size, line := i.line + 1, column := 0 })
    else ([], i)
  | [] => ([], i)

def skipBreak (i : Input) : Input := i.takeBreak.2

/-- The characters up to the first that fails a test, all within a line, and
what follows. -/
def takeWhile (p : Char → Bool) (i : Input) : List Char × Input :=
  let taken := i.rest.takeWhile p
  (taken, { i with rest := i.rest.dropWhile p
                   index := i.index + (taken.map Char.utf8Size).foldl (· + ·) 0
                   column := i.column + taken.length })

def skipWhile (p : Char → Bool) (i : Input) : Input := (i.takeWhile p).2

def skipComment (i : Input) : Input := i.skipWhile fun c => !isBreak c

/-- Passes blanks and a comment up to the end of the line, and the line end.
Anything else there is ill-formed. -/
def finishLine (i : Input) : Option Input :=
  let i := i.skipWhile isBlank
  let i := if i.peek = some '#' then i.skipComment else i
  if endsLine i.peek then some i.skipBreak else none

/-- Whether a line begins here with three times `c` as a word. -/
def atMark (i : Input) (c : Char) : Bool :=
  i.column == 0 && i.peek == some c && i.peekAt 1 == some c && i.peekAt 2 == some c
    && endsWord (i.peekAt 3)

/-- Whether a line that separates documents begins here. -/
def atDocumentMark (i : Input) : Bool := i.atMark '-' || i.atMark '.'

end Input

end TreeSchema.Yaml
