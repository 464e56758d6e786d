import TreeSchema.Toml.Plain
import TreeSchema.Toml.Text
import TreeSchema.Toml.Value
/-
  Reading settings

  A settings file is a run of lines: headers that open a table, and
  assignments to the table that is open. Lists of tables are not read, since
  no setting is one. A file that breaks a rule anywhere is refused as a
  whole.
-/

namespace TreeSchema.Toml

def isKeyChar (c : Char) : Bool :=
  ('a' ≤ c && c ≤ 'z') || ('A' ≤ c && c ≤ 'Z') || ('0' ≤ c && c ≤ '9') || c == '-' || c == '_'

def keyPart? (text : List Char) : Option (String × List Char) :=
  match text with
  | '"' :: _ => lineText? text
  | '\'' :: _ => lineText? text
  | _ =>
    let name := text.takeWhile isKeyChar
    if name.isEmpty then none else some (String.ofList name, text.dropWhile isKeyChar)

/-- The parts of a key, with the blanks around each, and what follows. -/
def keyParts : (allowance : Nat) → List Char → Option (List String × List Char)
  | 0, _ => none
  | allowance + 1, text => do
    let (part, rest) ← keyPart? (skipBlanks text)
    match skipBlanks rest with
    | '.' :: more =>
      let (parts, last) ← keyParts allowance more
      return (part :: parts, last)
    | rest => return ([part], rest)

/-- The most levels that keys and values may nest. -/
def depthLimit : Nat := 79

def key? (text : List Char) : Option (List String × List Char) := keyParts depthLimit text

def skipComment (text : List Char) : List Char :=
  match text with
  | '#' :: rest => rest.dropWhile isTextChar
  | _ => text

/-- What follows blanks, line breaks and comments. -/
def skipFiller : (allowance : Nat) → List Char → List Char
  | 0, text => text
  | allowance + 1, text =>
    match skipSpace text with
    | '#' :: rest => skipFiller allowance (skipComment ('#' :: rest))
    | rest => rest

/-- What follows the end of a line, which blanks and a comment may precede. -/
def lineEnd? (text : List Char) : Option (List Char) :=
  match skipComment (skipBlanks text) with
  | [] => some []
  | rest => afterNewline? rest

/-- The items of a list up to its closing bracket, and what follows. -/
def listItems (value? : List Char → Option (Value × List Char)) :
    (allowance : Nat) → List Char → Option (List Value × List Char)
  | 0, _ => none
  | allowance + 1, text =>
    match skipFiller text.length text with
    | ']' :: rest => some ([], rest)
    | rest => do
      let (item, after) ← value? rest
      match skipFiller after.length after with
      | ',' :: more =>
        let (items, last) ← listItems value? allowance more
        return (item :: items, last)
      | ']' :: last => return ([item], last)
      | _ => none

/-- The entries of a table up to its closing brace, after those already
read, and what follows. -/
def inlineEntries (value? : List Char → Option (Value × List Char)) :
    (allowance : Nat) → Entries → List Char → Option (Entries × List Char)
  | 0, _, _ => none
  | allowance + 1, entries, text => do
    let (path, rest) ← key? text
    let (value, after) ← value? (skipBlanks (← after? '=' rest))
    let entries ← assign value path entries
    match skipBlanks after with
    | ',' :: more => inlineEntries value? allowance entries more
    | '\x7d' :: last => return (entries, last)
    | _ => none

/-- A value, and what follows it; lists and tables may nest `depth` levels. -/
def value? : (depth : Nat) → List Char → Option (Value × List Char)
  | depth, text =>
    match text with
    | '"' :: _ => (text? text).map fun (s, rest) => (.text s, rest)
    | '\'' :: _ => (text? text).map fun (s, rest) => (.text s, rest)
    | '[' :: rest =>
      match depth with
      | 0 => none
      | depth + 1 =>
        (listItems (value? depth) (rest.length + 1) rest).map
          fun (items, last) => (.list items, last)
    | '\x7b' :: rest =>
      match depth with
      | 0 => none
      | depth + 1 =>
        match skipBlanks rest with
        -- Only an empty table has no key after its opening brace.
        | '\x7d' :: last => some (.table .inline [], last)
        | _ =>
          (inlineEntries (value? depth) (rest.length + 1) [] rest).map
            fun (entries, last) => (.table .inline entries, last)
    | _ => (plain? text).map fun rest => (.plain, rest)

/-- A file as far as it is read: the table that is open, and everything set
so far. -/
structure Reading where
  opened : List String := []
  entries : Entries := []

def header? (r : Reading) (text : List Char) : Option (Reading × List Char) := do
  let (path, rest) ← key? text
  let rest ← lineEnd? (← after? ']' rest)
  let entries ← openTable path r.entries
  return ({ opened := path, entries }, rest)

def assignment? (r : Reading) (text : List Char) : Option (Reading × List Char) := do
  let (path, rest) ← key? text
  let (value, rest) ← value? depthLimit (skipBlanks (← after? '=' rest))
  let rest ← lineEnd? rest
  let entries ← assignUnder value path r.opened r.entries
  return ({ r with entries }, rest)

def readLines : (allowance : Nat) → Reading → List Char → Option Entries
  | 0, _, _ => none
  | allowance + 1, r, text =>
    match skipBlanks text with
    | [] => some r.entries
    | '[' :: rest => (header? r rest).bind fun (r, rest) => readLines allowance r rest
    | rest =>
      match lineEnd? rest with
      | some after => readLines allowance r after
      | none => (assignment? r rest).bind fun (r, rest) => readLines allowance r rest

/-- The settings in a text, which a byte order mark may precede; `none` if it
is malformed. -/
def read? (text : String) : Option Entries :=
  let chars := match text.toList with
    | '\ufeff' :: rest => rest
    | chars => chars
  readLines (chars.length + 1) {} chars

end TreeSchema.Toml
