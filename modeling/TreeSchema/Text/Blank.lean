/-
  White space

  The twenty-five code points with the White_Space property, and the two
  cuts made with them: trimming a text at both ends, and splitting it into
  its words. The class is wider than ASCII blanks; the separators U+001C to
  U+001F, the zero-width space and the byte order mark are not in it.
-/

namespace TreeSchema.Text

def isBlank (c : Char) : Bool :=
  let n := c.toNat
  (0x09 ≤ n && n ≤ 0x0D) || n == 0x20 || n == 0x85 || n == 0xA0 || n == 0x1680
    || (0x2000 ≤ n && n ≤ 0x200A) || n == 0x2028 || n == 0x2029 || n == 0x202F
    || n == 0x205F || n == 0x3000

def trimStart (text : List Char) : List Char := text.dropWhile isBlank

def trimEnd (text : List Char) : List Char := (text.reverse.dropWhile isBlank).reverse

def trim (text : List Char) : List Char := trimEnd (trimStart text)

/-- A word read so far, backwards, as the words it stands for: none while
it is empty. -/
def closeWord : List Char → List (List Char)
  | [] => []
  | word => [word.reverse]

/-- The words of a text, given the part of the current word already read,
backwards. -/
def wordsFrom (current : List Char) : List Char → List (List Char)
  | [] => closeWord current
  | c :: rest =>
    if isBlank c then closeWord current ++ wordsFrom [] rest
    else wordsFrom (c :: current) rest

/-- The maximal runs of characters that are not white space, in order. -/
def words (text : List Char) : List (List Char) := wordsFrom [] text

end TreeSchema.Text
