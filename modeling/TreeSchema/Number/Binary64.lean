/-
  Binary floating-point numbers

  Finite numbers of the 64-bit binary format as a sign, a significand below
  2^53 and an exponent of two, and rounding of exact quotients to them: to
  the nearest number, and to an even significand when two are equally near.
  All arithmetic is on natural numbers.
-/

namespace TreeSchema.Number

/-- The finite number `± significand · 2^exponent`. -/
structure Binary64 where
  negative : Bool
  significand : Nat
  exponent : Int
  deriving DecidableEq, Repr

namespace Binary64

def minExponent : Int := -1074

def maxExponent : Int := 971

/-- Significands are below this bound. -/
def significandBound : Nat := Nat.pow 2 53

/-- Zero with a sign. -/
def zero (negative : Bool) : Binary64 :=
  { negative, significand := 0, exponent := minExponent }

/-- Whether the number is zero, of either sign. -/
def isZero (x : Binary64) : Bool := x.significand == 0

/-- Whether two numbers have the same value; the two zeros do. -/
def sameValue (x y : Binary64) : Bool := (x.isZero && y.isZero) || x == y

/-- The quotient rounded to the nearest natural number, a half to the even
one. -/
def roundQuotient (num den : Nat) : Nat :=
  let q := num / den
  let twice := 2 * (num % den)
  if twice < den then q else if den < twice then q + 1 else if q % 2 = 0 then q else q + 1

/-- `num / den / 2^shift` as a quotient of natural numbers. -/
def shifted (num den : Nat) (shift : Int) : Nat × Nat :=
  if 0 ≤ shift then (num, den * Nat.pow 2 shift.toNat) else (num * Nat.pow 2 (-shift).toNat, den)

/-- The exponent at which the quotient has a significand of 53 bits, or the
least exponent if that is greater. -/
def exponentFor (num den : Nat) : Int :=
  let guess : Int := (Nat.log2 num : Int) - (Nat.log2 den : Int) - 53
  let (n, d) := shifted num den guess
  max (if n / d < significandBound then guess else guess + 1) minExponent

/-- The number nearest to `± num / den`, or `none` if it is too large to have
one. -/
def ofQuotient (negative : Bool) (num den : Nat) : Option Binary64 :=
  if num = 0 then some (zero negative)
  else
    let exponent := exponentFor num den
    let (n, d) := shifted num den exponent
    let m := roundQuotient n d
    let (m, exponent) := if m = significandBound then (m / 2, exponent + 1) else (m, exponent)
    if maxExponent < exponent then none else some { negative, significand := m, exponent }

/-- The number nearest to `± num / den · 2^shift`. -/
def ofScaled (negative : Bool) (num den : Nat) (shift : Int) : Option Binary64 :=
  let (n, d) := shifted num den (-shift)
  ofQuotient negative n d

/-- The product, rounded; `none` if it is too large. -/
def mul (x y : Binary64) : Option Binary64 :=
  ofScaled (x.negative != y.negative) (x.significand * y.significand) 1 (x.exponent + y.exponent)

/-- The quotient by a number other than zero, rounded; `none` if it is too
large. -/
def div (x y : Binary64) : Option Binary64 :=
  ofScaled (x.negative != y.negative) x.significand y.significand (x.exponent - y.exponent)

/-- The number nearest to `± digits · 10^exponent`, or `none` if it is too
large. Quotients far outside the range are settled by their size alone. -/
def ofDecimal (negative : Bool) (digits : Nat) (exponent : Int) : Option Binary64 :=
  let size : Int := (Nat.toDigits 10 digits).length + exponent
  if digits = 0 || size < -330 then some (zero negative)
  else if 320 < size then none
  else if 0 ≤ exponent then ofQuotient negative (digits * Nat.pow 10 exponent.toNat) 1
  else ofQuotient negative digits (Nat.pow 10 (-exponent).toNat)

end Binary64

end TreeSchema.Number
