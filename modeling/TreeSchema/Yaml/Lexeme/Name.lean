import TreeSchema.Json.Text
import TreeSchema.Yaml.Input
import TreeSchema.Yaml.Token
/-
  Anchors, tags and directives

  The lexemes that name something: anchors and aliases, tags with their
  handles and suffixes, and the two directives that may stand before a
  document.
-/

namespace TreeSchema.Yaml

def readAnchor (i : Input) : Option (String × Input) :=
  let (name, i) := i.skip.takeWhile isWordChar
  let ends := endsWord i.peek || i.peek.any fun c =>
    c = '?' || c = ':' || c = ',' || c = ']' || c = '\x7d' || c = '%' || c = '@' || c = '\x60'
  if name.isEmpty || !ends then none else some (String.ofList name, i)

/-- Reads a tag handle: an exclamation mark, and perhaps a word and another
mark. -/
def readHandle (i : Input) : Option (List Char × Input) :=
  if i.peek = some '!' then
    let (word, i) := i.skip.takeWhile isWordChar
    if i.peek = some '!' then some ('!' :: word ++ ['!'], i.skip) else some ('!' :: word, i)
  else none

/-- Whether a tag suffix may contain `c`; `verbatim` ones may contain more. -/
def isTagChar (verbatim : Bool) (c : Char) : Bool :=
  isWordChar c || ";/?:@&=+$.%!~*'()".toList.contains c
    || (verbatim && (c = ',' || c = '[' || c = ']'))

/-- The number of octets of a character, by its first octet. -/
def octetCount (octet : Nat) : Nat :=
  if octet < 0x80 then 1
  else if 0xC0 ≤ octet ∧ octet < 0xE0 then 2
  else if 0xE0 ≤ octet ∧ octet < 0xF0 then 3
  else if 0xF0 ≤ octet ∧ octet < 0xF8 then 4
  else 0

/-- Reads one octet written as a percent sign and two digits. -/
def readOctet (i : Input) : Option (Nat × Input) :=
  match i.rest with
  | '%' :: a :: b :: _ => do
    let high ← Json.hexValue? a
    let low ← Json.hexValue? b
    return (high * 16 + low, i.skipMany 3)
  | _ => none

/-- Reads `n` octets that go on with a character. -/
def readOctets : (n : Nat) → (value : Nat) → Input → Option (Nat × Input)
  | 0, value, i => some (value, i)
  | n + 1, value, i => do
    let (octet, i) ← readOctet i
    if 0x80 ≤ octet ∧ octet < 0xC0 then readOctets n (value * 64 + (octet - 0x80)) i else none

def readOctetChar (i : Input) : Option (Char × Input) := do
  let (octet, i) ← readOctet i
  let count := octetCount octet
  if count = 0 then none
  else
    let head := if count = 1 then octet else octet % Nat.pow 2 (7 - count)
    let (value, i) ← readOctets (count - 1) head i
    return (Char.ofNat value, i)

def readSuffix (verbatim : Bool) : (fuel : Nat) → Input → Option (List Char × Input)
  | 0, i => some ([], i)
  | fuel + 1, i =>
    match i.peek with
    | none => some ([], i)
    | some c =>
      if isTagChar verbatim c then do
        let (d, i) ← if c = '%' then readOctetChar i else some (c, i.skip)
        let (suffix, i) ← readSuffix verbatim fuel i
        return (d :: suffix, i)
      else some ([], i)

def readSomeSuffix (verbatim : Bool) (i : Input) : Option (List Char × Input) := do
  let (suffix, i) ← readSuffix verbatim (i.rest.length + 1) i
  if suffix.isEmpty then none else some (suffix, i)

def readVerbatimTag (i : Input) : Option (TagText × Input) := do
  let (suffix, i) ← readSomeSuffix true (i.skipMany 2)
  if i.peek = some '>' then return ({ handle := "", suffix := String.ofList suffix }, i.skip)
  else none

/-- Reads a tag written with a handle, or with the primary one. A lone mark
is the tag `!`. -/
def readShortTag (i : Input) : Option (TagText × Input) := do
  let (handle, i) ← readHandle i
  if 1 < handle.length ∧ handle.getLast? = some '!' then do
    let (suffix, i) ← readSomeSuffix false i
    return ({ handle := String.ofList handle, suffix := String.ofList suffix }, i)
  else do
    let (more, i) ← readSuffix false (i.rest.length + 1) i
    let suffix := handle.tail ++ more
    if suffix.isEmpty then return ({ handle := "", suffix := "!" }, i)
    else return ({ handle := "!", suffix := String.ofList suffix }, i)

/-- Reads a tag, its mark being next. It ends with a word, or at a comma in a
flow collection. -/
def readTag (inFlow : Bool) (i : Input) : Option (TagText × Input) := do
  let (tag, i) ← if i.peekAt 1 = some '<' then readVerbatimTag i else readShortTag i
  if endsWord i.peek || (inFlow && i.peek == some ',') then return (tag, i) else none

/-- Reads a number of at most nine digits. -/
def readVersionNumber (i : Input) : Option (Nat × Input) :=
  let (digits, i) := i.takeWhile isDigit
  if digits.isEmpty || 9 < digits.length then none
  else some (digits.foldl (fun n c => n * 10 + (c.toNat - '0'.toNat)) 0, i)

def readVersion (i : Input) : Option (Token × Input) := do
  let (major, i) ← readVersionNumber (i.skipWhile isBlank)
  if i.peek = some '.' then do
    let (minor, i) ← readVersionNumber i.skip
    return (.version major minor, i)
  else none

/-- Reads a handle and what it stands for after the directive's name. -/
def readTagDirective (i : Input) : Option (Token × Input) := do
  let (handle, i) ← readHandle (i.skipWhile isBlank)
  if handle.getLast? ≠ some '!' then none
  else if i.peek.any isBlank then do
    let (content, i) ← readSomeSuffix true (i.skipWhile isBlank)
    if endsWord i.peek then
      return (.tagDirective (String.ofList handle) (String.ofList content), i)
    else none
  else none

/-- Reads a directive, its percent sign being next, up to the end of its
line. -/
def readDirective (i : Input) : Option (Token × Input) := do
  let (name, i) := i.skip.takeWhile isWordChar
  if endsWord i.peek then do
    let (token, i) ←
      if name = "YAML".toList then readVersion i
      else if name = "TAG".toList then readTagDirective i
      else none
    let i ← i.finishLine
    return (token, i)
  else none

end TreeSchema.Yaml
