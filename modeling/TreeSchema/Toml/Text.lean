import TreeSchema.Json.Text
/-
  Texts in settings

  Four ways to write a text: between double quotes with escapes or between
  single quotes without, on one line or, between tripled quotes, on several.
  A line break right after tripled quotes is no part of the text. Each reader
  gives the text and what follows it.
-/

namespace TreeSchema.Toml

/-- Whether a character may stand in a text or comment as itself. -/
def isTextChar (c : Char) : Bool := c == '\t' || (0x20 ≤ c.toNat && c.toNat != 0x7F)

def afterNewline? : List Char → Option (List Char)
  | '\n' :: rest => some rest
  | '\r' :: '\n' :: rest => some rest
  | _ => none

/-- Whether a character is a blank inside a line. -/
def isBlank (c : Char) : Bool := c == ' ' || c == '\t'

def skipBlanks (text : List Char) : List Char := text.dropWhile isBlank

/-- What follows the blanks and line breaks at the head of a text. -/
def skipSpace : List Char → List Char
  | '\r' :: '\n' :: rest => skipSpace rest
  | c :: rest => if isBlank c || c == '\n' then skipSpace rest else c :: rest
  | [] => []

/-- The character with the number written in the first `count` digits of a
text, and what follows them. -/
def numberedChar? (count : Nat) (text : List Char) : Option (Char × List Char) := do
  let digits := text.take count
  let n ← Json.hexNumber? digits
  if digits.length = count && n.isValidChar then some (Char.ofNat n, text.drop count) else none

/-- The character an escape stands for, and what follows it. -/
def escape? : List Char → Option (Char × List Char)
  | 'b' :: rest => some ('\x08', rest)
  | 't' :: rest => some ('\t', rest)
  | 'n' :: rest => some ('\n', rest)
  | 'f' :: rest => some ('\x0c', rest)
  | 'r' :: rest => some ('\r', rest)
  | '"' :: rest => some ('"', rest)
  | '\\' :: rest => some ('\\', rest)
  | 'u' :: rest => numberedChar? 4 rest
  | 'U' :: rest => numberedChar? 8 rest
  | _ => none

/-- The characters up to the double quote that closes them. -/
def basicChars : (allowance : Nat) → List Char → Option (List Char × List Char)
  | 0, _ => none
  | _, [] => none
  | allowance + 1, c :: rest =>
    if c = '"' then some ([], rest)
    else if c = '\\' then do
      let (found, after) ← escape? rest
      let (more, last) ← basicChars allowance after
      return (found :: more, last)
    else if isTextChar c then (basicChars allowance rest).map fun (more, last) => (c :: more, last)
    else none

/-- The characters up to the single quote that closes them. -/
def literalChars : List Char → Option (List Char × List Char)
  | [] => none
  | c :: rest =>
    if c = '\'' then some ([], rest)
    else if isTextChar c then (literalChars rest).map fun (more, last) => (c :: more, last)
    else none

/-- What a run of quotes inside tripled quotes is: quotes of the text, or the
end of the text after at most two more of them. -/
inductive QuoteRun where
  | inside (count : Nat)
  | closing (count : Nat) (rest : List Char)

def quoteRun (quote : Char) (text : List Char) : QuoteRun :=
  let count := (text.takeWhile (· == quote)).length
  if count < 3 then .inside count
  else
    let kept := min (count - 3) 2
    .closing kept (text.drop (kept + 3))

/-- The characters up to the tripled quotes that close them. With `escapes`,
backslashes escape characters and line breaks. -/
def multilineChars (quote : Char) (escapes : Bool) :
    (allowance : Nat) → List Char → Option (List Char × List Char)
  | 0, _ => none
  | _, [] => none
  | allowance + 1, c :: rest =>
    let go (found : List Char) (after : List Char) : Option (List Char × List Char) :=
      (multilineChars quote escapes allowance after).map fun (more, last) => (found ++ more, last)
    if c = quote then
      match quoteRun quote (c :: rest) with
      | .inside count => go (List.replicate count quote) ((c :: rest).drop count)
      | .closing count after => some (List.replicate count quote, after)
    else if c = '\\' && escapes then
      match afterNewline? (skipBlanks rest), escape? rest with
      | some after, _ => go [] (skipSpace after)
      | none, some (found, after) => go [found] after
      | none, none => none
    else
      match afterNewline? (c :: rest) with
      | some after => go ['\n'] after
      | none => if isTextChar c then go [c] rest else none

/-- The text without a line break at its head. -/
def dropNewline (text : List Char) : List Char := (afterNewline? text).getD text

def lineText? : List Char → Option (String × List Char)
  | '"' :: rest => (basicChars (rest.length + 1) rest).map fun (s, last) => (String.ofList s, last)
  | '\'' :: rest => (literalChars rest).map fun (s, last) => (String.ofList s, last)
  | _ => none

def text? : List Char → Option (String × List Char)
  | '"' :: '"' :: '"' :: rest =>
    (multilineChars '"' true (rest.length + 1) (dropNewline rest)).map
      fun (s, last) => (String.ofList s, last)
  | '\'' :: '\'' :: '\'' :: rest =>
    (multilineChars '\'' false (rest.length + 1) (dropNewline rest)).map
      fun (s, last) => (String.ofList s, last)
  | text => lineText? text

end TreeSchema.Toml
