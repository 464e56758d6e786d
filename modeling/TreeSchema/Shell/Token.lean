import TreeSchema.Shell.Word
/-
  Tokens of a script

  Words, operators and redirections, each with the line it stands on. A
  script whose quotes do not close ends in a token that says so, after all
  that could be read.
-/

namespace TreeSchema.Shell

/-- The operators between commands. -/
inductive Operator where
  | semicolon
  | newline
  | background
  | and
  | or
  | pipe
  | openGroup
  | closeGroup
  deriving DecidableEq, Repr

/-- An operator as messages name it. -/
def Operator.text : Operator → String
  | semicolon => "\";\""
  | newline => "newline"
  | background => "\"&\""
  | and => "\"&&\""
  | or => "\"||\""
  | pipe => "\"|\""
  | openGroup => "\"(\""
  | closeGroup => "\")\""

/-- What a redirection does with a stream. -/
inductive RedirectMode where
  | read
  | write
  | append
  /-- The stream becomes the same as another one. -/
  | duplicate
  deriving DecidableEq, Repr

inductive Token where
  | word (w : Word)
  | operator (o : Operator)
  /-- A redirection of a stream; the word after it is its target. -/
  | redirect (stream : Nat) (mode : RedirectMode)
  /-- A quote that never closes. -/
  | unclosed
  deriving DecidableEq, Repr

structure PlacedToken where
  token : Token
  line : Nat
  deriving DecidableEq, Repr

def endsWord (c : Char) : Bool := c ∈ [' ', '\t', '\n', ';', '&', '|', '<', '>', '(', ')']

/-- The script between parentheses, and what follows the closing one. Quoted
parentheses do not count. -/
def enclosed : (depth : Nat) → (quote : Option Char) → List Char → Option (List Char × List Char)
  | _, _, [] => none
  | depth, some q, c :: rest =>
    (enclosed depth (if c = q then none else some q) rest).map
      fun (inside, after) => (c :: inside, after)
  | depth, none, c :: rest =>
    if c = ')' && depth = 0 then some ([], rest)
    else
      let depth := if c = '(' then depth + 1 else if c = ')' then depth - 1 else depth
      let quote := if c = '\'' || c = '"' then some c else none
      (enclosed depth quote rest).map fun (inside, after) => (c :: inside, after)

def parameterOf? (c : Char) : Option Parameter :=
  if c = '#' then some .count
  else if c = '@' then some .all
  else if c = '*' then some .joined
  else if c = '?' then some .status
  else if c = '$' then some .process
  else if c.isDigit then some (.argument (c.toNat - 48))
  else none

def bracedParameter (name : List Char) : Option Parameter :=
  match name with
  | [c] => if startsName c then some (.variable (String.ofList [c])) else parameterOf? c
  | _ =>
    if name.all Char.isDigit && !name.isEmpty then
      some (.argument (name.foldl (fun n c => n * 10 + (c.toNat - 48)) 0))
    else if name.all continuesName && !name.isEmpty then some (.variable (String.ofList name))
    else none

/-- What stands after a dollar sign, and what follows it. A dollar sign that
names nothing stands for itself. -/
def dollarAt (quoted : Bool) (text : List Char) : Option (Piece × List Char) :=
  match text with
  | '(' :: rest => (enclosed 0 none rest).map fun (script, after) => (.output quoted script, after)
  | '\x7b' :: rest =>
    match rest.span (· != '\x7d') with
    | (_, []) => none
    | (inside, _ :: after) =>
      let (name, more) := inside.span (· != ':')
      let fallback := String.ofList (more.drop 2)
      (bracedParameter name).map fun p => (.parameter quoted p fallback, after)
  | c :: rest =>
    if startsName c then
      let name := text.takeWhile continuesName
      some (.parameter quoted (.variable (String.ofList name)) "", text.dropWhile continuesName)
    else
      some (match parameterOf? c with
        | some p => (.parameter quoted p "", rest)
        | none => (.char quoted '$', text))
  | [] => some (.char quoted '$', text)

/-- The pieces between double quotes, and what follows the closing one. -/
def quotedPieces : (allowance : Nat) → List Char → Option (Word × List Char)
  | 0, _ => none
  | _, [] => none
  | allowance + 1, c :: rest =>
    let add (piece : Piece) (after : List Char) : Option (Word × List Char) :=
      (quotedPieces allowance after).map fun (pieces, last) => (piece :: pieces, last)
    if c = '"' then some ([], rest)
    else if c = '\\' then
      match rest with
      | '\n' :: more => quotedPieces allowance more
      | next :: more =>
        if next ∈ ['$', '\x60', '"', '\\'] then add (.char true next) more
        else add (.char true '\\') rest
      | [] => none
    else if c = '$' then (dollarAt true rest).bind fun (piece, after) => add piece after
    else if c = '\x60' then
      match rest.span (· != '\x60') with
      | (_, []) => none
      | (script, _ :: after) => add (.output true script) after
    else add (.char true c) rest

/-- The pieces of the word at the head of a text, and what follows it. -/
def wordPieces : (allowance : Nat) → List Char → Option (Word × List Char)
  | 0, _ => none
  | _, [] => some ([], [])
  | allowance + 1, c :: rest =>
    let add (pieces : Word) (after : List Char) : Option (Word × List Char) :=
      (wordPieces allowance after).map fun (more, last) => (pieces ++ more, last)
    if endsWord c then some ([], c :: rest)
    else if c = '\'' then
      match rest.span (· != '\'') with
      | (_, []) => none
      | ([], _ :: after) => add [.nothing] after
      | (inside, _ :: after) => add (inside.map (.char true)) after
    else if c = '"' then
      (quotedPieces allowance rest).bind fun (pieces, after) =>
        add (if pieces.isEmpty then [.nothing] else pieces) after
    else if c = '\\' then
      match rest with
      | '\n' :: more => add [] more
      | next :: more => add [.char true next] more
      | [] => add [.char true '\\'] []
    else if c = '$' then (dollarAt false rest).bind fun (piece, after) => add [piece] after
    else if c = '\x60' then
      match rest.span (· != '\x60') with
      | (_, []) => none
      | (script, _ :: after) => add [.output false script] after
    else add [.char false c] rest

/-- The redirection of a stream at the head of a text, and what follows. -/
def redirectAt (text : List Char) : Option (Token × List Char) :=
  let (digits, after) := text.span Char.isDigit
  let stream (otherwise : Nat) : Nat :=
    if digits.isEmpty then otherwise else digits.foldl (fun n c => n * 10 + (c.toNat - 48)) 0
  match after with
  | '>' :: '>' :: rest => some (.redirect (stream 1) .append, rest)
  | '>' :: '&' :: rest => some (.redirect (stream 1) .duplicate, rest)
  | '>' :: '|' :: rest => some (.redirect (stream 1) .write, rest)
  | '>' :: rest => some (.redirect (stream 1) .write, rest)
  | '<' :: '&' :: rest => some (.redirect (stream 0) .duplicate, rest)
  | '<' :: rest => some (.redirect (stream 0) .read, rest)
  | _ => none

/-- The operator at the head of a text, and what follows. -/
def operatorAt : List Char → Option (Operator × List Char)
  | '\n' :: rest => some (.newline, rest)
  | ';' :: rest => some (.semicolon, rest)
  | '&' :: '&' :: rest => some (.and, rest)
  | '&' :: rest => some (.background, rest)
  | '|' :: '|' :: rest => some (.or, rest)
  | '|' :: rest => some (.pipe, rest)
  | '(' :: rest => some (.openGroup, rest)
  | ')' :: rest => some (.closeGroup, rest)
  | _ => none

/-- The tokens of a script that begins on a line. -/
def tokensFrom : (allowance : Nat) → (line : Nat) → List Char → List PlacedToken
  | 0, _, _ => []
  | _, _, [] => []
  | allowance + 1, line, c :: rest =>
    if c = ' ' || c = '\t' then tokensFrom allowance line rest
    else if c = '#' then tokensFrom allowance line (rest.dropWhile (· != '\n'))
    else
      match redirectAt (c :: rest), operatorAt (c :: rest) with
      | some (token, after), _ => { token, line } :: tokensFrom allowance line after
      | none, some (o, after) =>
        { token := .operator o, line }
          :: tokensFrom allowance (if o = .newline then line + 1 else line) after
      | none, none =>
        match wordPieces (rest.length + 2) (c :: rest) with
        | none => [{ token := .unclosed, line }]
        | some (word, after) =>
          let taken := (c :: rest).take (rest.length + 1 - after.length)
          { token := .word word, line } :: tokensFrom allowance (line + taken.count '\n') after

def tokens (script : List Char) : List PlacedToken := tokensFrom (script.length + 1) 1 script

end TreeSchema.Shell
