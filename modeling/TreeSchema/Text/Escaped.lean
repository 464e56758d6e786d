import TreeSchema.Text.Shown
/-
  Escaped text

  The quoted form in which messages show a string or a character so that
  every character can be seen: backslash escapes for the common controls,
  `\u{hex}` for whatever is not shown as itself. Only the quote mark that
  surrounds the text is escaped.
-/

namespace TreeSchema.Text

/-- The lower-case hexadecimal digits of `n`, without leading zeros. -/
def hexDigits (n : Nat) : List Char := Nat.toDigits 16 n

/-- One character inside text quoted by `mark`. -/
def escapeChar (mark c : Char) : List Char :=
  if c = '\x00' then ['\\', '0']
  else if c = '\t' then ['\\', 't']
  else if c = '\r' then ['\\', 'r']
  else if c = '\n' then ['\\', 'n']
  else if c = '\\' || c = mark then ['\\', c]
  else if isShown c then [c]
  else ['\\', 'u', '\x7b'] ++ hexDigits c.toNat ++ ['\x7d']

/-- A string in double quotes. -/
def escaped (text : String) : String :=
  String.ofList ('"' :: text.toList.flatMap (escapeChar '"') ++ ['"'])

/-- A character in single quotes. -/
def escapedChar (c : Char) : String :=
  String.ofList ('\'' :: escapeChar '\'' c ++ ['\''])

/-- A list of strings in square brackets, each of them quoted. -/
def escapedList (texts : List String) : String :=
  "[" ++ ", ".intercalate (texts.map escaped) ++ "]"

end TreeSchema.Text
