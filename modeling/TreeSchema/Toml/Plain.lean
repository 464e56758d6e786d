import TreeSchema.Number.Binary64
/-
  Numbers, truth values and dates in settings

  These are only checked. Each reader gives what follows the value, or
  `none` if there is no such value.
-/

namespace TreeSchema.Toml

/-- Digits of a kind with single underscores between them: the digits, and
what follows. There is at least one. -/
def digitRun? (isDigit : Char → Bool) : List Char → Option (List Char × List Char)
  | [] => none
  | c :: rest => if isDigit c then some (more c rest) else none
where
  /-- The digits after a first one. -/
  more (first : Char) : List Char → List Char × List Char
    | '_' :: c :: rest =>
      if isDigit c then
        let (digits, last) := more c rest
        (first :: digits, last)
      else ([first], '_' :: c :: rest)
    | c :: rest =>
      if isDigit c then
        let (digits, last) := more c rest
        (first :: digits, last)
      else ([first], c :: rest)
    | [] => ([first], [])

def digitsValue (base : Nat) (digits : List Char) : Nat :=
  digits.foldl (fun n c =>
    n * base + (if c.isDigit then c.toNat - 48 else (c.toLower.toNat - 87))) 0

/-- A text after a sign, and whether the sign is a minus. -/
def splitSign : List Char → Bool × List Char
  | '+' :: rest => (false, rest)
  | '-' :: rest => (true, rest)
  | text => (false, text)

/-- The whole part of a decimal number: no zero comes before other digits. -/
def wholePart? (text : List Char) : Option (List Char × List Char) :=
  match text with
  | '0' :: rest => some (['0'], rest)
  | _ => digitRun? Char.isDigit text

def basedInteger? (base : Nat) (isDigit : Char → Bool) (text : List Char) : Option (List Char) :=
  match digitRun? isDigit text with
  | some (digits, rest) => if digitsValue base digits < Nat.pow 2 63 then some rest else none
  | none => none

/-- An integer of 64 bits. -/
def integer? (text : List Char) : Option (List Char) :=
  match text with
  | '0' :: 'x' :: rest =>
    basedInteger? 16 (fun c => c.isDigit || ('a' ≤ c.toLower && c.toLower ≤ 'f')) rest
  | '0' :: 'o' :: rest => basedInteger? 8 (fun c => '0' ≤ c && c ≤ '7') rest
  | '0' :: 'b' :: rest => basedInteger? 2 (fun c => c == '0' || c == '1') rest
  | _ =>
    let (negative, unsigned) := splitSign text
    match wholePart? unsigned with
    | some (digits, rest) =>
      if digitsValue 10 digits < Nat.pow 2 63 + (if negative then 1 else 0) then some rest else none
    | none => none

def exponent? : List Char → Option (Int × List Char)
  | c :: rest =>
    if c = 'e' || c = 'E' then
      let (negative, unsigned) := splitSign rest
      (digitRun? Char.isDigit unsigned).map fun (digits, last) =>
        let n : Int := digitsValue 10 digits
        (if negative then -n else n, last)
    else none
  | [] => none

/-- The digits after a point, and what follows. -/
def fraction? : List Char → Option (List Char × List Char)
  | '.' :: rest => digitRun? Char.isDigit rest
  | _ => none

/-- A floating-point number; a positive one must not be too large. -/
def real? (text : List Char) : Option (List Char) := do
  let (negative, unsigned) := splitSign text
  let (whole, afterWhole) ← wholePart? unsigned
  let (fraction, afterFraction) := (fraction? afterWhole).getD ([], afterWhole)
  let (exponent, rest) := (exponent? afterFraction).getD (0, afterFraction)
  let hasFraction := (fraction? afterWhole).isSome
  let hasExponent := (exponent? afterFraction).isSome
  let value := Number.Binary64.ofDecimal negative (digitsValue 10 (whole ++ fraction))
    (exponent - fraction.length)
  if (hasFraction || hasExponent) && (negative || value.isSome) then some rest else none

/-- A number of exactly `count` digits, and what follows. -/
def fixedDigits? (count : Nat) (text : List Char) : Option (Nat × List Char) :=
  let digits := text.take count
  if digits.length = count && digits.all Char.isDigit then
    some (digitsValue 10 digits, text.drop count)
  else none

def after? (mark : Char) : List Char → Option (List Char)
  | c :: rest => if c = mark then some rest else none
  | [] => none

def daysIn (year month : Nat) : Nat :=
  if month = 2 then
    if year % 4 = 0 && (year % 100 != 0 || year % 400 = 0) then 29 else 28
  else if month ∈ [4, 6, 9, 11] then 30
  else 31

/-- A day of the calendar. -/
def date? (text : List Char) : Option (List Char) := do
  let (year, rest) ← fixedDigits? 4 text
  let (month, rest) ← fixedDigits? 2 (← after? '-' rest)
  let (day, rest) ← fixedDigits? 2 (← after? '-' rest)
  if 1 ≤ month && month ≤ 12 && 1 ≤ day && day ≤ daysIn year month then some rest else none

/-- A time of day; a minute may end in a leap second. -/
def time? (text : List Char) : Option (List Char) := do
  let (hour, rest) ← fixedDigits? 2 text
  let (minute, rest) ← fixedDigits? 2 (← after? ':' rest)
  let (second, rest) ← fixedDigits? 2 (← after? ':' rest)
  if hour ≤ 23 && minute ≤ 59 && second ≤ 60 then
    match rest with
    | '.' :: c :: more => if c.isDigit then some (more.dropWhile Char.isDigit) else some rest
    | _ => some rest
  else none

/-- How far a time is from the universal one. -/
def offset? : List Char → Option (List Char)
  | 'Z' :: rest => some rest
  | 'z' :: rest => some rest
  | c :: rest =>
    if c = '+' || c = '-' then do
      let (hour, rest) ← fixedDigits? 2 rest
      let (minute, rest) ← fixedDigits? 2 (← after? ':' rest)
      if hour ≤ 23 && minute ≤ 59 then some rest else none
    else none
  | [] => none

/-- A day, a time of day, or both with or without an offset. -/
def moment? (text : List Char) : Option (List Char) :=
  match date? text with
  | none => time? text
  | some rest =>
    match rest with
    | c :: more =>
      if c = 'T' || c = 't' || c = ' ' then
        match time? more with
        | some last => some ((offset? last).getD last)
        | none => some rest
      else some rest
    | [] => some rest

def afterWord? (word text : List Char) : Option (List Char) :=
  if word.isPrefixOf text then some (text.drop word.length) else none

/-- A number, a truth value or a date. -/
def plain? (text : List Char) : Option (List Char) :=
  moment? text
    <|> real? text
    <|> afterWord? "inf".toList (splitSign text).2
    <|> afterWord? "nan".toList (splitSign text).2
    <|> integer? text
    <|> afterWord? "true".toList text
    <|> afterWord? "false".toList text

end TreeSchema.Toml
