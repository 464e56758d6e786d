import TreeSchema.Number.Binary64
/-
  Shortest decimals

  The decimal with the fewest digits among those that round to a given
  binary number, and of these the one nearest to it. The decimals that round
  to a number form an interval around it, whose ends belong to it exactly
  when the significand is even. On each grid of decimals the two neighbours
  of the number are tried: if any point of a grid lies in the interval, so
  does one of them.
-/

namespace TreeSchema.Number

/-- The decimal `digits · 10^exponent`. -/
structure Decimal where
  digits : Nat
  exponent : Int
  deriving DecidableEq, Repr

namespace Decimal

/-- The decimal without the zeros its digits end with, at most `fuel` of
them. -/
def stripZeros : (fuel : Nat) → Decimal → Decimal
  | 0, d => d
  | fuel + 1, d =>
    if d.digits ≠ 0 ∧ d.digits % 10 = 0 then
      stripZeros fuel { digits := d.digits / 10, exponent := d.exponent + 1 }
    else d

end Decimal

/-- A positive number with the interval of reals that round to it, over a
common denominator. -/
structure Interval where
  lower : Nat
  value : Nat
  upper : Nat
  denominator : Nat
  /-- Whether the ends belong to the interval. -/
  closed : Bool
  deriving Repr

namespace Interval

/-- The interval of a number other than zero. Below a power of two the
numbers lie twice as dense. -/
def ofBinary (x : Binary64) : Interval :=
  let m := x.significand
  let below := if m = Nat.pow 2 52 ∧ x.exponent ≠ Binary64.minExponent then 1 else 2
  let shift := x.exponent - 2
  let scale := if 0 ≤ shift then Nat.pow 2 shift.toNat else 1
  { lower := (4 * m - below) * scale
    value := 4 * m * scale
    upper := (4 * m + 2) * scale
    denominator := if 0 ≤ shift then 1 else Nat.pow 2 (-shift).toNat
    closed := m % 2 = 0 }

/-- The interval with all its numbers multiplied by `10^power`. -/
def scale (i : Interval) (power : Int) : Interval :=
  if 0 ≤ power then
    let factor := Nat.pow 10 power.toNat
    { i with lower := i.lower * factor, value := i.value * factor, upper := i.upper * factor }
  else { i with denominator := i.denominator * Nat.pow 10 (-power).toNat }

def holds (i : Interval) (n : Nat) : Bool :=
  let scaled := n * i.denominator
  if i.closed then i.lower ≤ scaled && scaled ≤ i.upper
  else i.lower < scaled && scaled < i.upper

/-- The natural number in the interval that is nearest to its value, if one
is in it; of two equally near ones the even one. -/
def nearest? (i : Interval) : Option Nat :=
  let low := i.value / i.denominator
  let rest := 2 * (i.value % i.denominator)
  let preferLow := rest < i.denominator || (rest == i.denominator && low % 2 == 0)
  match i.holds low, i.holds (low + 1) with
  | true, true => some (if preferLow then low else low + 1)
  | true, false => some low
  | false, true => some (low + 1)
  | false, false => none

end Interval

/-- The number of times a fraction below one has to be multiplied by ten to
reach one, at most `fuel`. -/
def leadingZeros (den : Nat) : (fuel : Nat) → (num : Nat) → Nat
  | 0, _ => 0
  | fuel + 1, num => if den ≤ num then 0 else leadingZeros den fuel (num * 10) + 1

/-- The greatest power of ten that is no more than `num / den`. -/
def decimalOrder (num den : Nat) : Int :=
  if den ≤ num then ((Nat.toDigits 10 (num / den)).length : Int) - 1
  else -(leadingZeros den 400 num : Int)

/-- Tries grids from coarse to fine, at most `fuel` of them. -/
def shortestFrom (i : Interval) : (fuel : Nat) → (unit : Int) → Decimal
  | 0, unit => { digits := 0, exponent := unit }
  | fuel + 1, unit =>
    match (i.scale (-unit)).nearest? with
    | some digits => { digits, exponent := unit }
    | none => shortestFrom i fuel (unit - 1)

/-- The shortest decimal that rounds to a number other than zero, without
its sign. Seventeen digits always do. -/
def Binary64.shortest (x : Binary64) : Decimal :=
  let i := Interval.ofBinary x
  (shortestFrom i 18 (decimalOrder i.value i.denominator)).stripZeros 20

end TreeSchema.Number
