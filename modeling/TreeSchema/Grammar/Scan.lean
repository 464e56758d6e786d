import TreeSchema.Grammar.Error
/-
  Scanning grammar text

  The text as its tokens, each with its line. White space and comments are
  passed over; an error is reported on the line where the token or comment
  that cannot be read begins. Lines are counted in 32 bits: behind line
  2 ^ 32 - 1 the numbers begin again at zero.
-/

namespace TreeSchema.Grammar

/-- The tokens of a text whose first line has number `line`. -/
def scan (line : UInt32) (text : List Char) : Except Error TokenStream :=
  match text with
  | [] => .ok { tokens := [], endLine := line }
  | c :: rest =>
    if c = '\n' then scan (line + 1) rest
    else if Text.isBlank c then scan line rest
    else if c = '/' ∧ rest.head? = some '*' then
      match _h : skipComment rest.tail with
      | none => .error (.malformed line .unterminatedComment)
      | some (feeds, after) => scan (line + .ofNat feeds) after
    else match _h : Token.read c rest with
      | .error fault => .error (.malformed line (.badToken fault))
      | .ok (token, after) => do
        let stream ← scan line after
        return { stream with tokens := { token, line } :: stream.tokens }
termination_by text.length
decreasing_by
  · simp
  · simp
  · have := length_lt_of_skipComment _h
    simp at this ⊢
    omega
  · have := Token.length_le_of_read _h
    simp
    omega

def tokens (text : String) : Except Error TokenStream := scan 1 text.toList

end TreeSchema.Grammar
