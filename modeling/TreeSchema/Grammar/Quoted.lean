/-
  Quoted strings

  How grammar text writes an arbitrary string: between double quotes, with a
  backslash before a quote mark or a backslash, and `\n` and `\t` for a line
  feed and a tab. Every other character stands for itself.
-/

namespace TreeSchema.Grammar.Quoted

/-- One character inside the quotes. -/
def encodeChar (c : Char) : List Char :=
  if c = '"' then ['\\', '"']
  else if c = '\\' then ['\\', '\\']
  else if c = '\n' then ['\\', 'n']
  else if c = '\t' then ['\\', 't']
  else [c]

/-- The text between the quotes. -/
def encode (value : List Char) : List Char := value.flatMap encodeChar

/-- A string as grammar text writes it. -/
def quote (value : String) : List Char := '"' :: (encode value.toList ++ ['"'])

/-- Why a quoted string cannot be read. -/
inductive Fault where
  /-- The line or the text ends before the closing quote. -/
  | unterminated
  /-- A backslash before this character, or before the end of the text. -/
  | escape (found : Option Char)
  deriving DecidableEq, Repr

/-- The character a backslash and `c` stand for. -/
def unescape? (c : Char) : Option Char :=
  if c = '"' then some '"'
  else if c = '\\' then some '\\'
  else if c = 'n' then some '\n'
  else if c = 't' then some '\t'
  else none

/-- Reads what follows an opening quote, up to and with the closing one: the
value and the rest of the text. -/
def decode : List Char → Except Fault (List Char × List Char)
  | [] => .error .unterminated
  | '"' :: rest => .ok ([], rest)
  | '\n' :: _ => .error .unterminated
  | '\\' :: [] => .error (.escape none)
  | '\\' :: c :: rest =>
    match unescape? c with
    | none => .error (.escape (some c))
    | some d => do
      let (value, rest) ← decode rest
      return (d :: value, rest)
  | c :: rest => do
    let (value, rest) ← decode rest
    return (c :: value, rest)

/-- Reading takes at least the closing quote. -/
theorem length_lt_of_decode {text value rest : List Char} (h : decode text = .ok (value, rest)) :
    rest.length < text.length := by
  fun_induction decode text generalizing value rest with
  | case1 => cases h
  | case2 => cases h; simp
  | case3 => cases h
  | case4 => cases h
  | case5 => cases h
  | case6 _ _ _ _ ih =>
    simp only [bind, Except.bind] at h
    split at h
    · cases h
    · next hd => cases h; have := ih hd; simp; omega
  | case7 _ _ _ _ _ _ ih =>
    simp only [bind, Except.bind] at h
    split at h
    · cases h
    · next hd => cases h; have := ih hd; simp; omega

end TreeSchema.Grammar.Quoted
