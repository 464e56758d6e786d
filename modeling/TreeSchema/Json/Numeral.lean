import TreeSchema.Json.Cursor
import TreeSchema.Json.Value
/-
  JSON numbers

  The digits of a number are gathered into a significand of 64 bits; digits
  that no longer fit count only as powers of ten. A number without fraction
  and exponent that fits 64 bits is an integer. Any other is the significand
  rounded to a floating-point number and then multiplied or divided by the
  power of ten, each step rounded; a product too large is an error.
-/

namespace TreeSchema.Json

open TreeSchema.Number (Binary64)

def maxSignificand : Nat := Nat.pow 2 64 - 1

/-- The greatest exponent that is read. -/
def maxExponent : Nat := Nat.pow 2 31 - 1

/-- The powers of ten that are numbers of the format have exponents up to
this. -/
def maxPower : Nat := 308

def digitValue (c : Char) : Nat := c.toNat - '0'.toNat

def isDigit (c : Char) : Bool := '0' ≤ c && c ≤ '9'

/-- Adds digits to a number as long as it stays within `bound`: the number,
how many digits were added, and the digits left over. -/
def gather (bound : Nat) (value count : Nat) : List Char → Nat × Nat × List Char
  | [] => (value, count, [])
  | c :: rest =>
    let next := value * 10 + digitValue c
    if bound < next then (value, count, c :: rest) else gather bound next (count + 1) rest

/-- The number nearest to `10^n`, for `n` up to `maxPower`. -/
def powerOfTen (n : Nat) : Binary64 :=
  (Binary64.ofQuotient false (Nat.pow 10 n) 1).getD (.zero false)

/-- Divides by `10^n`, in steps of the greatest power, at most `fuel` of
them. -/
def divideByPower : (fuel : Nat) → (n : Nat) → Binary64 → Binary64
  | 0, _, x => x
  | fuel + 1, n, x =>
    if n ≤ maxPower then (x.div (powerOfTen n)).getD x
    else if x.isZero then x
    else divideByPower fuel (n - maxPower) ((x.div (powerOfTen maxPower)).getD x)

/-- The significand times a power of ten; `none` if it is too large. -/
def scaleSignificand (significand : Nat) (exponent : Int) : Option Binary64 := do
  let x ← Binary64.ofQuotient false significand 1
  if exponent < 0 then
    return divideByPower (exponent.natAbs / maxPower + 1) exponent.natAbs x
  else if exponent.natAbs ≤ maxPower then x.mul (powerOfTen exponent.natAbs)
  else if x.isZero then return x
  else none

/-- The floating-point number of a sign, a significand and an exponent, with
the cursor after it. -/
def finishReal (negative : Bool) (significand : Nat) (exponent : Int) (c : Cursor) :
    Except Error (Number × Cursor) :=
  match scaleSignificand significand exponent with
  | some x => .ok (.real { x with negative }, c)
  | none => c.failHere .numberOutOfRange

def digitsAhead (c : Cursor) : List Char := c.rest.takeWhile isDigit

/-- Reads what follows the exponent mark. -/
def readExponent (negative : Bool) (significand : Nat) (exponent : Int) (c : Cursor) :
    Except Error (Number × Cursor) :=
  let (negativeExponent, c) := match c.peek with
    | some '+' => (false, c.next)
    | some '-' => (true, c.next)
    | _ => (false, c)
  let digits := digitsAhead c
  if digits.isEmpty then
    match c.peek with
    | none => c.failHere .endInValue
    | some _ => c.failNext .invalidNumber
  else
    let (value, count, left) := gather maxExponent 0 0 digits
    if left.isEmpty then
      finishReal negative significand
        (if negativeExponent then exponent - value else exponent + value) (c.drop digits.length)
    -- The exponent itself is too large: the number overflows, or vanishes.
    else if significand ≠ 0 ∧ !negativeExponent then
      (c.drop (count + 1)).failHere .numberOutOfRange
    else .ok (.real (.zero negative), c.drop digits.length)

/-- Reads an exponent if one follows. -/
def readScale (negative : Bool) (significand : Nat) (exponent : Int) (c : Cursor) :
    Except Error (Number × Cursor) :=
  match c.peek with
  | some 'e' | some 'E' => readExponent negative significand exponent c.next
  | _ => finishReal negative significand exponent c

/-- Reads what follows the decimal point. -/
def readFraction (negative : Bool) (significand : Nat) (exponent : Int) (c : Cursor) :
    Except Error (Number × Cursor) :=
  let digits := digitsAhead c
  if digits.isEmpty then
    match c.peek with
    | none => c.failNext .endInValue
    | some _ => c.failNext .invalidNumber
  else
    -- Digits that do not fit the significand any more are below its last place.
    let (significand, count, _) := gather maxSignificand significand 0 digits
    readScale negative significand (exponent - count) (c.drop digits.length)

/-- The number of digits without fraction and exponent. -/
def wholeNumber (negative : Bool) (significand : Nat) : Number :=
  -- A negative zero is kept as a real number, where the sign survives.
  if !negative then .integer significand
  else if 0 < significand ∧ significand ≤ Nat.pow 2 63 then .integer (-(significand : Int))
  else .real { (Binary64.ofQuotient false significand 1).getD (.zero false) with negative := true }

/-- Reads what follows the whole digits, of which the last `extra` did not
fit the significand. -/
def readAfterWhole (negative : Bool) (significand extra : Nat) (c : Cursor) :
    Except Error (Number × Cursor) :=
  match c.peek with
  | some '.' => readFraction negative significand extra c.next
  | some 'e' | some 'E' => readExponent negative significand extra c.next
  | _ =>
    if extra = 0 then .ok (wholeNumber negative significand, c)
    else finishReal negative significand extra c

/-- Reads a number after its sign. A zero stands alone before the point. -/
def readNumber (negative : Bool) (c : Cursor) : Except Error (Number × Cursor) :=
  match c.peek with
  | none => c.failHere .endInValue
  | some x =>
    if x = '0' then
      match c.next.peek with
      | some y => if isDigit y then c.next.failNext .invalidNumber
                  else readAfterWhole negative 0 0 c.next
      | none => readAfterWhole negative 0 0 c.next
    else if isDigit x then
      let digits := digitsAhead c
      -- Digits that do not fit the significand any more raise the exponent.
      let (significand, _, left) := gather maxSignificand 0 0 digits
      readAfterWhole negative significand left.length (c.drop digits.length)
    else c.failNext .invalidNumber

end TreeSchema.Json
