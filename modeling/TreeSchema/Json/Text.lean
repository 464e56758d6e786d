import TreeSchema.Json.Cursor
/-
  JSON strings

  Reading what follows an opening quote. Control characters must be escaped,
  and characters beyond the basic plane may be written as two escapes, a
  leading and a trailing surrogate.
-/

namespace TreeSchema.Json

def hexValue? (c : Char) : Option Nat :=
  if '0' ≤ c && c ≤ '9' then some (c.toNat - '0'.toNat)
  else if 'a' ≤ c && c ≤ 'f' then some (c.toNat - 'a'.toNat + 10)
  else if 'A' ≤ c && c ≤ 'F' then some (c.toNat - 'A'.toNat + 10)
  else none

def hexNumber? (digits : List Char) : Option Nat :=
  digits.foldl (fun value c => do return (← value) * 16 + (← hexValue? c)) (some 0)

/-- Reads four hexadecimal digits. The next four bytes are taken, whatever
they are. -/
def readHex (c : Cursor) : Except Error (Nat × Cursor) :=
  let bytes := (c.rest.map Char.utf8Size).foldl (· + ·) 0
  if bytes < 4 then c.failAfter bytes .endInString
  else match hexNumber? (c.rest.take 4) with
    | some n => .ok (n, c.drop 4)
    | none => c.failAfter 4 .invalidEscape

def shortEscape? (c : Char) : Option Char :=
  if c = '"' then some '"'
  else if c = '\\' then some '\\'
  else if c = '/' then some '/'
  else if c = 'b' then some '\x08'
  else if c = 'f' then some '\x0c'
  else if c = 'n' then some '\n'
  else if c = 'r' then some '\r'
  else if c = 't' then some '\t'
  else none

/-- Takes one expected character of the second of two escapes. -/
def takeSurrogateMark (mark : Char) (c : Cursor) : Except Error Cursor :=
  match c.peek with
  | none => c.failHere .endInString
  | some x => if x = mark then .ok c.next else c.failNext .endOfHexEscape

/-- Reads the digits of a Unicode escape, and a second escape where the first
is a leading surrogate. -/
def readUnicode (c : Cursor) : Except Error (Char × Cursor) := do
  let (n, c) ← readHex c
  if 0xDC00 ≤ n ∧ n ≤ 0xDFFF then c.failHere .loneSurrogate
  else if 0xD800 ≤ n ∧ n ≤ 0xDBFF then do
    let c ← takeSurrogateMark '\\' c
    let c ← takeSurrogateMark 'u' c
    let (m, c) ← readHex c
    if 0xDC00 ≤ m ∧ m ≤ 0xDFFF then
      return (Char.ofNat ((n - 0xD800) * 0x400 + (m - 0xDC00) + 0x10000), c)
    else c.failHere .loneSurrogate
  else return (Char.ofNat n, c)

/-- Reads what follows a backslash. -/
def readEscape (c : Cursor) : Except Error (Char × Cursor) :=
  match c.peek with
  | none => c.failHere .endInString
  | some 'u' => readUnicode c.next
  | some x =>
    match shortEscape? x with
    | some y => .ok (y, c.next)
    | none => c.failNext .invalidEscape

/-- Reads up to and with the closing quote. Every step takes a character, so
that the length of the text is fuel enough. -/
def readCharsFrom : (fuel : Nat) → Cursor → Except Error (List Char × Cursor)
  | 0, c => c.failHere .endInString
  | fuel + 1, c =>
    match c.peek with
    | none => c.failHere .endInString
    | some '"' => .ok ([], c.next)
    | some '\\' => do
      let (x, c) ← readEscape c.next
      let (chars, c) ← readCharsFrom fuel c
      return (x :: chars, c)
    | some x =>
      if x.toNat < 0x20 then c.failNext .controlCharacter
      else do
        let (chars, c) ← readCharsFrom fuel c.next
        return (x :: chars, c)

/-- Reads what follows an opening quote. -/
def readString (c : Cursor) : Except Error (String × Cursor) := do
  let (chars, c) ← readCharsFrom (c.rest.length + 1) c
  return (String.ofList chars, c)

end TreeSchema.Json
