/-
  Reading positions in JSON text

  A cursor is the text ahead and the place it starts at. Lines are counted
  from one, columns in bytes from the start of the line. An error is reported
  where the cursor stands or some bytes further on: past the byte that was
  looked at, or past all four digits of an escape.
-/

namespace TreeSchema.Json

/-- What is wrong with a JSON text. -/
inductive Fault where
  | endInValue
  | endInList
  | endInObject
  | endInString
  | expectedValue
  | expectedWord
  | expectedColon
  | expectedListComma
  | expectedObjectComma
  | trailingComma
  | trailingCharacters
  | keyNotString
  | invalidNumber
  | invalidEscape
  | numberOutOfRange
  | controlCharacter
  | loneSurrogate
  | endOfHexEscape
  | tooDeep
  deriving DecidableEq, Repr

def Fault.message : Fault → String
  | endInValue => "EOF while parsing a value"
  | endInList => "EOF while parsing a list"
  | endInObject => "EOF while parsing an object"
  | endInString => "EOF while parsing a string"
  | expectedValue => "expected value"
  | expectedWord => "expected ident"
  | expectedColon => "expected `:`"
  | expectedListComma => "expected `,` or `]`"
  | expectedObjectComma => "expected `,` or `\x7d`"
  | trailingComma => "trailing comma"
  | trailingCharacters => "trailing characters"
  | keyNotString => "key must be a string"
  | invalidNumber => "invalid number"
  | invalidEscape => "invalid escape"
  | numberOutOfRange => "number out of range"
  | controlCharacter => "control character (\\u0000-\\u001F) found while parsing a string"
  | loneSurrogate => "lone leading surrogate in hex escape"
  | endOfHexEscape => "unexpected end of hex escape"
  | tooDeep => "recursion limit exceeded"

structure Error where
  fault : Fault
  line : Nat
  column : Nat
  deriving DecidableEq, Repr

def Error.message (e : Error) : String :=
  let line := e.line
  let column := e.column
  e.fault.message ++ s!" at line {line} column {column}"

/-- The text ahead and its place. -/
structure Cursor where
  rest : List Char
  line : Nat
  column : Nat
  deriving DecidableEq, Repr

namespace Cursor

def start (text : String) : Cursor := { rest := text.toList, line := 1, column := 0 }

def peek (c : Cursor) : Option Char := c.rest.head?

def next (c : Cursor) : Cursor :=
  match c.rest with
  | [] => c
  | x :: rest =>
    if x = '\n' then { rest, line := c.line + 1, column := 0 }
    else { rest, line := c.line, column := c.column + x.utf8Size }

/-- Passes `n` characters that are no line feeds. -/
def drop (c : Cursor) (n : Nat) : Cursor :=
  let bytes := ((c.rest.take n).map Char.utf8Size).foldl (· + ·) 0
  { c with rest := c.rest.drop n, column := c.column + bytes }

/-- The line and column some bytes further on, or at the end of the text. -/
def placeAfter (line column : Nat) : (bytes : Nat) → List Char → Nat × Nat
  | 0, _ => (line, column)
  | _ + 1, [] => (line, column)
  | bytes + 1, x :: rest =>
    if x = '\n' then placeAfter (line + 1) 0 bytes rest
    else placeAfter line (column + min x.utf8Size (bytes + 1)) (bytes + 1 - x.utf8Size) rest

/-- A fault some bytes further on. -/
def failAfter {α : Type} (c : Cursor) (bytes : Nat) (fault : Fault) : Except Error α :=
  let (line, column) := placeAfter c.line c.column bytes c.rest
  .error { fault, line, column }

def failHere {α : Type} (c : Cursor) (fault : Fault) : Except Error α := c.failAfter 0 fault

/-- A fault at the next byte. -/
def failNext {α : Type} (c : Cursor) (fault : Fault) : Except Error α := c.failAfter 1 fault

/-- Whether JSON allows `x` between tokens. -/
def isSpace (x : Char) : Bool := x = ' ' || x = '\n' || x = '\t' || x = '\r'

/-- The place after some of the characters ahead. -/
def skipSpacesFrom (line column : Nat) : List Char → Cursor
  | [] => { rest := [], line, column }
  | x :: rest =>
    if x = '\n' then skipSpacesFrom (line + 1) 0 rest
    else if isSpace x then skipSpacesFrom line (column + 1) rest
    else { rest := x :: rest, line, column }

def skipSpaces (c : Cursor) : Cursor := skipSpacesFrom c.line c.column c.rest

end Cursor

end TreeSchema.Json
