import TreeSchema.Json.Value
/-
  Writing JSON

  Two forms: on one line without spaces, and spread over lines with an indent
  of two spaces. Empty containers are written in two characters in both.
-/

namespace TreeSchema.Json

def hexDigit (n : Nat) : Char := (Nat.toDigits 16 n).headD '0'

/-- One character of a string. -/
def escapeChar (c : Char) : List Char :=
  if c = '"' then ['\\', '"']
  else if c = '\\' then ['\\', '\\']
  else if c = '\x08' then ['\\', 'b']
  else if c = '\x0c' then ['\\', 'f']
  else if c = '\n' then ['\\', 'n']
  else if c = '\r' then ['\\', 'r']
  else if c = '\t' then ['\\', 't']
  else if c.toNat < 0x20 then
    ['\\', 'u', '0', '0', hexDigit (c.toNat / 16), hexDigit (c.toNat % 16)]
  else [c]

/-- A string in quotes. -/
def stringText (s : String) : String :=
  String.ofList ('"' :: s.toList.flatMap escapeChar ++ ['"'])

mutual

/-- A value on one line. -/
def Value.compact : Value → String
  | .null => "null"
  | .bool b => boolText b
  | .number n => n.text
  | .string s => stringText s
  | .array items => "[" ++ ",".intercalate (compactItems items) ++ "]"
  | .object entries => "\x7b" ++ ",".intercalate (compactEntries entries) ++ "\x7d"
termination_by structural v => v

def compactItems : List Value → List String
  | [] => []
  | v :: rest => v.compact :: compactItems rest
termination_by structural l => l

def compactEntries : List (String × Value) → List String
  | [] => []
  | (key, v) :: rest => (stringText key ++ ":" ++ v.compact) :: compactEntries rest
termination_by structural l => l

end

def indent (level : Nat) : String := String.ofList (List.replicate (2 * level) ' ')

/-- The parts of a container at a level, each on a line of its own. -/
def spread (opening closing : String) (level : Nat) (parts : List String) : String :=
  if parts.isEmpty then opening ++ closing
  else opening ++ "\n" ++ indent (level + 1)
    ++ (",\n" ++ indent (level + 1)).intercalate parts ++ "\n" ++ indent level ++ closing

mutual

/-- A value at a level, spread over lines. -/
def Value.prettyAt (level : Nat) : Value → String
  | .array items => spread "[" "]" level (prettyItems (level + 1) items)
  | .object entries => spread "\x7b" "\x7d" level (prettyEntries (level + 1) entries)
  | .null => "null"
  | .bool b => boolText b
  | .number n => n.text
  | .string s => stringText s
termination_by structural v => v

def prettyItems (level : Nat) : List Value → List String
  | [] => []
  | v :: rest => v.prettyAt level :: prettyItems level rest
termination_by structural l => l

def prettyEntries (level : Nat) : List (String × Value) → List String
  | [] => []
  | (key, v) :: rest => (stringText key ++ ": " ++ v.prettyAt level) :: prettyEntries level rest
termination_by structural l => l

end

def Value.pretty (v : Value) : String := v.prettyAt 0

end TreeSchema.Json
