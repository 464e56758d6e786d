import TreeSchema.Json.Text
import TreeSchema.Yaml.Input
import TreeSchema.Yaml.Value
/-
  The meaning of scalars

  A plain scalar is null, a truth value, an integer or a floating-point
  number if it is spelled like one, else a string. Integers may be decimal,
  hexadecimal, octal or binary, with a sign; a decimal with leading zeros is
  a string. Integers that do not fit 64 bits and do fit 128 are refused.
-/

namespace TreeSchema.Yaml

def spellsNull (text : String) : Bool :=
  text = "null" || text = "Null" || text = "NULL" || text = "~"

def spelledBool? (text : String) : Option Bool :=
  if text = "true" || text = "True" || text = "TRUE" then some true
  else if text = "false" || text = "False" || text = "FALSE" then some false
  else none

/-- The value of digits in a base; no digits, or others, have none. -/
def digitsInBase? (base : Nat) (digits : List Char) : Option Nat :=
  if digits.isEmpty then none
  else digits.foldl (fun value c => do
    let d ← Json.hexValue? c
    if d < base then return (← value) * base + d else none) (some 0)

def afterBase? : List Char → Option (Nat × List Char)
  | '0' :: 'x' :: rest => some (16, rest)
  | '0' :: 'o' :: rest => some (8, rest)
  | '0' :: 'b' :: rest => some (2, rest)
  | _ => none

def dropSign : List Char → List Char
  | '+' :: rest => rest
  | '-' :: rest => rest
  | text => text

/-- Whether the text is digits with a needless zero in front. -/
def hasLeadingZero (text : List Char) : Bool :=
  match dropSign text with
  | '0' :: c :: rest => (c :: rest).all isDigit
  | _ => false

/-- The magnitude of an integer without its sign. -/
def magnitude? (text : List Char) : Option Nat :=
  match afterBase? text with
  | some (base, digits) => digitsInBase? base digits
  | none => if hasLeadingZero text then none else digitsInBase? 10 text

def spelledInteger? : List Char → Option Int
  | '-' :: rest => (magnitude? rest).map fun n => -(n : Int)
  | '+' :: rest => (magnitude? rest).map fun n => (n : Int)
  | text => (magnitude? text).map fun n => (n : Int)

def fits64 (n : Int) : Bool := -(Int.pow 2 63) ≤ n && n < Int.pow 2 64

def fits128 (n : Int) : Bool := -(Int.pow 2 127) ≤ n && n < Int.pow 2 128

def decimalValue (digits : List Char) : Nat :=
  digits.foldl (fun n c => n * 10 + (c.toNat - '0'.toNat)) 0

/-- The exponent after its mark; `none` if it is malformed. -/
def exponentValue? : List Char → Option Int
  | '-' :: digits =>
    if digits.isEmpty || !digits.all isDigit then none else some (-(decimalValue digits : Int))
  | '+' :: digits =>
    if digits.isEmpty || !digits.all isDigit then none else some (decimalValue digits)
  | digits =>
    if digits.isEmpty || !digits.all isDigit then none else some (decimalValue digits)

/-- The number a decimal with point or exponent spells, without its sign;
`none` if it is malformed or too large. -/
def spelledDecimal? (negative : Bool) (text : List Char) : Option Number.Binary64 := do
  let whole := text.takeWhile isDigit
  let rest := text.dropWhile isDigit
  let (fraction, rest) := match rest with
    | '.' :: rest => (rest.takeWhile isDigit, rest.dropWhile isDigit)
    | rest => ([], rest)
  let exponent ← match rest with
    | [] => some 0
    | c :: rest => if c = 'e' || c = 'E' then exponentValue? rest else none
  let digits := decimalValue (whole ++ fraction)
  if whole.isEmpty && fraction.isEmpty then none
  else TreeSchema.Number.Binary64.ofDecimal negative digits (exponent - fraction.length)

def spelledReal? (text : String) : Option Number :=
  let chars := text.toList
  let unsigned := match chars with
    | '+' :: rest => rest
    | chars => chars
  if text.startsWith "+" && (unsigned.head? = some '+' || unsigned.head? = some '-') then none
  else if [".inf".toList, ".Inf".toList, ".INF".toList].contains unsigned then
    some (.infinity false)
  else if text = "-.inf" || text = "-.Inf" || text = "-.INF" then some (.infinity true)
  else if text = ".nan" || text = ".NaN" || text = ".NAN" then some .notANumber
  else match unsigned with
    | '-' :: rest => (spelledDecimal? true rest).map .real
    | rest => (spelledDecimal? false rest).map .real

/-- The value of an integer, if it fits. -/
def integerValue? (n : Int) : Option Value :=
  if fits64 n then some (.number (.integer n)) else none

/-- The value of a plain scalar without a tag; `none` for an integer that is
refused. -/
def plainValue? (text : String) : Option Value :=
  if text = "" || spellsNull text then some .null
  else match spelledBool? text with
    | some b => some (.bool b)
    | none =>
      match (spelledInteger? text.toList).filter fits128 with
      | some n => integerValue? n
      | none =>
        if hasLeadingZero text.toList then some (.string text)
        else match spelledReal? text with
          | some x => some (.number x)
          | none => some (.string text)

/-- The value of a scalar under a tag of the core schema; `none` if the text
does not fit the tag. Other tags there leave a string. -/
def coreValue? (tag text : String) : Option Value :=
  if tag = "tag:yaml.org,2002:bool" then (spelledBool? text).map .bool
  else if tag = "tag:yaml.org,2002:int" then
    ((spelledInteger? text.toList).filter fits128).bind integerValue?
  else if tag = "tag:yaml.org,2002:float" then (spelledReal? text).map .number
  else if tag = "tag:yaml.org,2002:null" then (if spellsNull text then some .null else none)
  else some (.string text)

end TreeSchema.Yaml
