import TreeSchema.Text.Utf8
/-
  Backslash escapes

  The escapes that printing programs understand in the texts they are given.
  The programs differ in how octal numbers begin and in whether hexadecimal
  ones are known.
-/

namespace TreeSchema.Program

/-- Which escapes are known beside the common ones. -/
structure EscapeStyle where
  /-- A zero before three octal digits is not counted among them. -/
  leadingZero : Bool
  /-- `\xHH` and `\e` are known. -/
  extended : Bool

namespace EscapeStyle

/-- The value of a digit in a base up to sixteen. -/
def digit? (base : Nat) (c : Char) : Option Nat :=
  let value :=
    if '0' ≤ c && c ≤ '9' then some (c.toNat - 48)
    else if 'a' ≤ c && c ≤ 'f' then some (c.toNat - 87)
    else if 'A' ≤ c && c ≤ 'F' then some (c.toNat - 55)
    else none
  value.filter (· < base)

/-- At most `limit` digits at the head of a text: their value and number. -/
def digits (base : Nat) : (limit : Nat) → List Char → Nat × Nat → Nat × Nat
  | limit + 1, c :: rest, (value, count) =>
    match digit? base c with
    | some d => digits base limit rest (value * base + d, count + 1)
    | none => (value, count)
  | _, _, found => found

/-- The byte a letter stands for after a backslash. -/
def letter? (style : EscapeStyle) : Char → Option UInt8
  | 'a' => some 7
  | 'b' => some 8
  | 't' => some 9
  | 'n' => some 10
  | 'v' => some 11
  | 'f' => some 12
  | 'r' => some 13
  | '\\' => some 92
  | 'e' => if style.extended then some 27 else none
  | _ => none

/-- What follows a backslash: the bytes it stands for and the number of
characters it takes. A backslash that begins no escape stands for itself. -/
def escapeAt (style : EscapeStyle) (rest : List Char) : List UInt8 × Nat :=
  let number (base limit skip : Nat) : List UInt8 × Nat :=
    let (value, count) := digits base limit (rest.drop skip) (0, 0)
    ([value.toUInt8], count + skip)
  match rest with
  | [] => ([92], 0)
  | c :: following =>
    match style.letter? c with
    | some byte => ([byte], 1)
    | none =>
      if c = '0' && style.leadingZero then number 8 3 1
      else if (digit? 8 c).isSome then number 8 3 0
      else if c = 'x' && style.extended && (following.head?.bind (digit? 16)).isSome then
        number 16 2 1
      else ([92], 0)

/-- A text with its escapes expanded, and whether `\c` cut it short; `skip`
characters of an escape already expanded are passed over first. -/
def expandFrom (style : EscapeStyle) : (skip : Nat) → List Char → List UInt8 × Bool
  | _, [] => ([], false)
  | skip + 1, _ :: rest => expandFrom style skip rest
  | 0, c :: rest =>
    if c = '\\' && rest.head? = some 'c' then ([], true)
    else
      let (bytes, length) :=
        if c = '\\' then style.escapeAt rest else (Text.encode (String.singleton c), 0)
      let (more, cut) := expandFrom style length rest
      (bytes ++ more, cut)

/-- A text with its escapes expanded, and whether `\c` cut it short. -/
def expand (style : EscapeStyle) (text : String) : List UInt8 × Bool :=
  style.expandFrom 0 text.toList

end EscapeStyle

end TreeSchema.Program
