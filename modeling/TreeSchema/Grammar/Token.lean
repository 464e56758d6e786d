import TreeSchema.Grammar.Quoted
import TreeSchema.Text.Blank
import TreeSchema.Text.Escaped
/-
  Tokens of grammar text

  Directives, the separator, identifiers, quoted strings, bracket literals
  and punctuation. White space and comments may stand between any two
  tokens. A token lies on one line, so line numbers change only between
  tokens.
-/

namespace TreeSchema.Grammar

/-- The four bracket literals. -/
inductive Bracket where
  | openSequence
  | closeSequence
  | openMapping
  | closeMapping
  deriving DecidableEq, Repr

namespace Bracket

/-- The character between the quotes. -/
def char : Bracket → Char
  | openSequence => '['
  | closeSequence => ']'
  | openMapping => '\x7b'
  | closeMapping => '\x7d'

def ofChar? (c : Char) : Option Bracket :=
  if c = '[' then some openSequence
  else if c = ']' then some closeSequence
  else if c = '\x7b' then some openMapping
  else if c = '\x7d' then some closeMapping
  else none

end Bracket

inductive Token where
  | directive (name : String)
  | separator
  | identifier (name : String)
  | string (value : String)
  | bracket (b : Bracket)
  | colon
  | bar
  | semicolon
  | star
  | openParen
  | closeParen
  deriving DecidableEq, Repr

namespace Token

/-- A token, or the end of the text, as messages show it. -/
def inspect : Option Token → String
  | none => "Eof"
  | some (directive name) => "Directive(" ++ Text.escaped name ++ ")"
  | some separator => "Separator"
  | some (identifier name) => "Ident(" ++ Text.escaped name ++ ")"
  | some (string value) => "Str(" ++ Text.escaped value ++ ")"
  | some (bracket b) => "Bracket(" ++ Text.escapedChar b.char ++ ")"
  | some colon => "Colon"
  | some bar => "Pipe"
  | some semicolon => "Semi"
  | some star => "Star"
  | some openParen => "LParen"
  | some closeParen => "RParen"

/-- Why no token can be read. -/
inductive Fault where
  | unterminatedString
  | badEscape (found : Option Char)
  | unterminatedCharacter
  /-- A quoted character that is no bracket. -/
  | unknownCharacter (found : Char)
  /-- A character no token begins with. -/
  | unexpected (found : Char)
  deriving DecidableEq, Repr

/-- A character, or the end of the text, as messages show it. -/
def inspectChar : Option Char → String
  | none => "None"
  | some c => "Some(" ++ Text.escapedChar c ++ ")"

def Fault.message : Fault → String
  | unterminatedString => "unterminated string"
  | badEscape found => "invalid escape " ++ inspectChar found
  | unterminatedCharacter => "unterminated character literal"
  | unknownCharacter found => "unknown character terminal " ++ inspectChar (some found)
  | unexpected found => s!"unexpected character '{found}'"

/-- Whether `c` is an ASCII letter. -/
def isLetter (c : Char) : Bool := ('a' ≤ c && c ≤ 'z') || ('A' ≤ c && c ≤ 'Z')

def isIdentifierStart (c : Char) : Bool := isLetter c || c = '_'

def isIdentifierChar (c : Char) : Bool :=
  isLetter c || ('0' ≤ c && c ≤ '9') || c = '_' || c = '.' || c = '-'

/-- The token a single character stands for by itself. -/
def ofMark? (c : Char) : Option Token :=
  if c = ':' then some colon
  else if c = '|' then some bar
  else if c = ';' then some semicolon
  else if c = '*' then some star
  else if c = '(' then some openParen
  else if c = ')' then some closeParen
  else none

def readPercent : List Char → Token × List Char
  | '%' :: rest => (separator, rest)
  | text => (directive (String.ofList (text.takeWhile isLetter)), text.dropWhile isLetter)

/-- Reads what follows the single quote of a bracket literal. -/
def readBracket : List Char → Except Fault (Token × List Char)
  | c :: '\'' :: rest =>
    match Bracket.ofChar? c with
    | some b => .ok (bracket b, rest)
    | none => .error (.unknownCharacter c)
  | _ => .error .unterminatedCharacter

def readString (text : List Char) : Except Fault (Token × List Char) :=
  match Quoted.decode text with
  | .ok (value, rest) => .ok (string (String.ofList value), rest)
  | .error .unterminated => .error .unterminatedString
  | .error (.escape found) => .error (.badEscape found)

/-- Reads the token that begins with `c`, which is neither white space nor
the start of a comment. -/
def read (c : Char) (text : List Char) : Except Fault (Token × List Char) :=
  if c = '%' then .ok (readPercent text)
  else if c = '"' then readString text
  else if c = '\'' then readBracket text
  else match ofMark? c with
    | some mark => .ok (mark, text)
    | none =>
      if isIdentifierStart c then
        .ok (identifier (String.ofList (c :: text.takeWhile isIdentifierChar)),
          text.dropWhile isIdentifierChar)
      else .error (.unexpected c)

theorem length_dropWhile_le {α : Type} (p : α → Bool) (l : List α) :
    (l.dropWhile p).length ≤ l.length :=
  (List.dropWhile_sublist p).length_le

/-- A token takes its first character and nothing is put back. -/
theorem length_le_of_read {c : Char} {text rest : List Char} {token : Token}
    (h : read c text = .ok (token, rest)) : rest.length ≤ text.length := by
  unfold read at h
  split at h
  · simp only [Except.ok.injEq] at h
    unfold readPercent at h
    split at h
    · cases h; simp
    · cases h; exact length_dropWhile_le _ _
  · split at h
    · unfold readString at h
      split at h
      · next hd => cases h; exact Nat.le_of_lt (Quoted.length_lt_of_decode hd)
      · cases h
      · cases h
    · split at h
      · unfold readBracket at h
        split at h
        · split at h
          · cases h; simp; omega
          · cases h
        · cases h
      · split at h
        · cases h; exact Nat.le_refl _
        · split at h
          · cases h; exact length_dropWhile_le _ _
          · cases h

end Token

structure LineToken where
  token : Token
  line : UInt32
  deriving DecidableEq, Repr

/-- The tokens of a text and the line on which the text ends. -/
structure TokenStream where
  tokens : List LineToken
  endLine : UInt32
  deriving DecidableEq, Repr

/-- Passes over a comment whose opening has been read: the number of line
feeds in it, and the text after it. -/
def skipComment : List Char → Option (Nat × List Char)
  | [] => none
  | '*' :: '/' :: rest => some (0, rest)
  | c :: rest =>
    (skipComment rest).map fun (feeds, after) => (if c = '\n' then feeds + 1 else feeds, after)

theorem length_lt_of_skipComment {text after : List Char} {feeds : Nat}
    (h : skipComment text = some (feeds, after)) : after.length < text.length := by
  fun_induction skipComment text generalizing feeds after with
  | case1 => cases h
  | case2 => cases h; simp only [List.length_cons]; omega
  | case3 c rest _ ih =>
    obtain ⟨⟨n, r⟩, hr, hp⟩ := Option.map_eq_some_iff.1 h
    cases hp
    have := ih hr
    simp; omega

end TreeSchema.Grammar
