import TreeSchema.Number.Shortest
/-
  Number texts

  How documents show a floating-point number: its shortest decimal, written
  out with at least one decimal place when it is at least 10^-5 and below
  10^16, else with an exponent. The two document formats differ only in
  whether a positive exponent has a plus sign.
-/

namespace TreeSchema.Number

/-- What the formats decide for themselves. -/
structure Layout where
  /-- What stands before a positive exponent. -/
  exponentSign : String
  deriving DecidableEq, Repr

/-- JSON writes `1e+16`. -/
def Layout.json : Layout := { exponentSign := "+" }

/-- YAML writes `1e16`. -/
def Layout.yaml : Layout := { exponentSign := "" }

def digitsText (n : Nat) : String := String.ofList (Nat.toDigits 10 n)

def integerText (n : Int) : String :=
  if n < 0 then "-" ++ digitsText n.natAbs else digitsText n.natAbs

def zeros (n : Nat) : String := String.ofList (List.replicate n '0')

/-- A decimal, laid out by the place of its point: `point` digits stand
before it. -/
def Layout.decimalText (layout : Layout) (d : Decimal) : String :=
  let digits := Nat.toDigits 10 d.digits
  let point : Int := digits.length + d.exponent
  if 0 ≤ d.exponent ∧ point ≤ 16 then
    String.ofList digits ++ zeros d.exponent.toNat ++ ".0"
  else if 0 < point ∧ point ≤ 16 then
    String.ofList (digits.take point.toNat) ++ "." ++ String.ofList (digits.drop point.toNat)
  else if -5 < point ∧ point ≤ 0 then
    "0." ++ zeros (-point).toNat ++ String.ofList digits
  else
    let exponent := point - 1
    let fraction := digits.drop 1
    String.ofList (digits.take 1)
      ++ (if fraction.isEmpty then "" else "." ++ String.ofList fraction)
      ++ "e" ++ (if 0 ≤ exponent then layout.exponentSign else "") ++ integerText exponent

def Layout.text (layout : Layout) (x : Binary64) : String :=
  (if x.negative then "-" else "")
    ++ if x.isZero then "0.0" else layout.decimalText x.shortest

end TreeSchema.Number
