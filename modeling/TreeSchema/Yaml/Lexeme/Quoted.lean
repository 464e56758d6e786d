import TreeSchema.Json.Text
import TreeSchema.Yaml.Lexeme.Plain
/-
  Quoted scalars

  Scalars in single quotes, where a doubled quote stands for one, and in
  double quotes, where a backslash begins an escape. Line ends fold as in
  plain scalars, and a backslash at the end of a line joins it to the next.
-/

namespace TreeSchema.Yaml

/-- The character of an escape without digits. -/
def escapeFor? (c : Char) : Option Char :=
  if c = '0' then some '\x00'
  else if c = 'a' then some '\x07'
  else if c = 'b' then some '\x08'
  else if c = 't' || c = '\t' then some '\t'
  else if c = 'n' then some '\n'
  else if c = 'v' then some '\x0b'
  else if c = 'f' then some '\x0c'
  else if c = 'r' then some '\r'
  else if c = 'e' then some '\x1b'
  else if c = ' ' || c = '"' || c = '/' || c = '\\' then some c
  else if c = 'N' then some '\x85'
  else if c = '_' then some '\xa0'
  else if c = 'L' then some '\u2028'
  else if c = 'P' then some '\u2029'
  else none

/-- The number of hexadecimal digits after an escape letter. -/
def escapeDigits? (c : Char) : Option Nat :=
  if c = 'x' then some 2 else if c = 'u' then some 4 else if c = 'U' then some 8 else none

/-- Reads what follows a backslash that does not end a line. -/
def readEscape (i : Input) : Option (Char × Input) := do
  let c ← i.peek
  match escapeFor? c with
  | some d => some (d, i.skip)
  | none =>
    let count ← escapeDigits? c
    let i := i.skip
    let digits := i.rest.take count
    if digits.length < count then none
    else
      let n ← Json.hexNumber? digits
      if (0xD800 ≤ n ∧ n ≤ 0xDFFF) ∨ 0x10FFFF < n then none
      else some (Char.ofNat n, i.skipMany count)

inductive RunEnd where
  /-- At the closing quote, a blank, a line end or the end of the text. -/
  | stopped
  /-- After a backslash and a line end. -/
  | joined
  deriving DecidableEq, Repr

/-- Reads characters without blanks up to the closing quote. -/
def readQuotedRun (single : Bool) : (fuel : Nat) → Input → Option (List Char × RunEnd × Input)
  | 0, i => some ([], .stopped, i)
  | fuel + 1, i =>
    match i.rest with
    | [] => some ([], .stopped, i)
    | c :: rest =>
      if isBlank c || isBreak c then some ([], .stopped, i)
      else if single && c = '\'' && rest.head? = some '\'' then do
        let (run, stop, i) ← readQuotedRun single fuel (i.skipMany 2)
        return ('\'' :: run, stop, i)
      else if c = (if single then '\'' else '"') then some ([], .stopped, i)
      else if !single && c = '\\' then
        if rest.head?.any isBreak then some ([], .joined, i.skip.skipBreak)
        else do
          let (d, i) ← readEscape i.skip
          let (run, stop, i) ← readQuotedRun single fuel i
          return (d :: run, stop, i)
      else do
        let (run, stop, i) ← readQuotedRun single fuel i.skip
        return (c :: run, stop, i)

/-- Reads runs and gaps up to and with the closing quote. After a joined line
end the blanks ahead do not count. -/
def readQuotedFrom (single : Bool) : (fuel : Nat) → Input → Option (List Char × Input)
  | 0, _ => none
  | fuel + 1, i =>
    if i.atDocumentMark || i.peek.isNone then none
    else do
      let (run, stop, i) ← readQuotedRun single (i.rest.length + 1) i
      if i.peek = some (if single then '\'' else '"') then return (run, i.skip)
      else
        let start : Gap := match stop with
          | .stopped => .blanks []
          | .joined => .lines [] []
        let (gap, i) ← readGap 0 (i.rest.length + 1) start i
        let (text, i) ← readQuotedFrom single fuel i
        return (run ++ gap.text ++ text, i)

def readQuoted (single : Bool) (i : Input) : Option (String × Input) := do
  let (text, i) ← readQuotedFrom single (i.rest.length + 1) i.skip
  return (String.ofList text, i)

end TreeSchema.Yaml
