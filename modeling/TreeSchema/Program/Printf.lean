import TreeSchema.Program.Escape
/-
  Formatted printing

  A format is text with escapes, and conversions that each take an argument.
  It is used again as long as arguments are left; a missing argument counts
  as empty or zero.
-/

namespace TreeSchema.Program

/-- One conversion: flags, least width, precision, and what is converted. -/
structure Conversion where
  left : Bool := false
  zeros : Bool := false
  width : Nat := 0
  precision : Option Nat := none
  kind : Char

inductive FormatPiece where
  | bytes (b : List UInt8)
  | conversion (c : Conversion)
  /-- Nothing more is printed. -/
  | stop

def formatEscapes : EscapeStyle := { leadingZero := false, extended := false }

/-- How arguments of `%b` write escapes. -/
def argumentEscapes : EscapeStyle := { leadingZero := true, extended := false }

/-- The conversion after a percent sign, and how many characters it takes. -/
def conversionAt (rest : List Char) : Option (Conversion × Nat) :=
  let (flags, afterFlags) := rest.span fun c => c ∈ ['-', '+', ' ', '0', '#']
  let (width, afterWidth) := afterFlags.span Char.isDigit
  let (point, precision, afterPrecision) := match afterWidth with
    | '.' :: more =>
      let (digits, after) := more.span Char.isDigit
      (1, some digits, after)
    | _ => (0, none, afterWidth)
  let number (digits : List Char) : Nat := digits.foldl (fun n c => n * 10 + (c.toNat - 48)) 0
  match afterPrecision with
  | [] => none
  | kind :: _ =>
    some ({ left := flags.contains '-', zeros := flags.contains '0', width := number width,
            precision := precision.map number, kind },
      flags.length + width.length + point + (precision.elim 0 List.length) + 1)

/-- The pieces of a format; `skip` characters of a piece already read are
passed over first. -/
def formatPieces : (skip : Nat) → List Char → List FormatPiece
  | _, [] => []
  | skip + 1, _ :: rest => formatPieces skip rest
  | 0, c :: rest =>
    if c = '\\' then
      if rest.head? = some 'c' then [.stop]
      else
        let (bytes, length) := formatEscapes.escapeAt rest
        .bytes bytes :: formatPieces length rest
    else if c = '%' then
      if rest.head? = some '%' then .bytes [37] :: formatPieces 1 rest
      else
        match conversionAt rest with
        | some (conversion, length) => .conversion conversion :: formatPieces length rest
        | none => .bytes [37] :: formatPieces 0 rest
    else .bytes (Text.encode (String.singleton c)) :: formatPieces 0 rest

/-- Bytes in a field of least width. -/
def Conversion.pad (c : Conversion) (bytes : List UInt8) : List UInt8 :=
  let fill := List.replicate (c.width - bytes.length) (if c.zeros && !c.left then 48 else 32)
  if c.left then bytes ++ fill else fill ++ bytes

def argumentNumber? (argument : String) : Option Int :=
  match argument.toList with
  | [] => some 0
  | '-' :: digits => natural? digits |>.map fun n => -(n : Int)
  | '+' :: digits => natural? digits |>.map Int.ofNat
  | '\'' :: c :: _ => some c.toNat
  | '"' :: c :: _ => some c.toNat
  | digits => natural? digits |>.map Int.ofNat
where
  /-- A number in decimal, octal or hexadecimal digits. -/
  natural? : List Char → Option Nat
    | '0' :: 'x' :: digits => based 16 digits
    | '0' :: c :: digits => based 8 (c :: digits)
    | digits => based 10 digits
  /-- A number in the digits of a base. -/
  based (base : Nat) (digits : List Char) : Option Nat :=
    if digits.isEmpty then none
    else digits.foldlM (fun n c => (EscapeStyle.digit? base c).map (n * base + ·)) 0

/-- An argument converted, and whether it is what the conversion asks for. A
number is converted up to what is none in it. -/
def Conversion.apply (c : Conversion) (argument : String) : List UInt8 × Bool :=
  match c.kind with
  | 's' =>
    let bytes := Text.encode argument
    (c.pad (c.precision.elim bytes bytes.take), true)
  | 'b' => (c.pad (argumentEscapes.expand argument).1, true)
  | 'c' => (c.pad ((Text.encode argument).take 1), true)
  | kind =>
    let value := argumentNumber? argument
    let n := value.getD 0
    let digits := match kind with
      | 'x' => String.ofList (Nat.toDigits 16 n.toNat)
      | 'X' => (String.ofList (Nat.toDigits 16 n.toNat)).toUpper
      | 'o' => String.ofList (Nat.toDigits 8 n.toNat)
      | _ => toString n
    (c.pad (Text.encode digits), value.isSome)

structure FormatPass where
  bytes : List UInt8 := []
  rest : List String
  /-- Arguments that are no numbers where one is asked for. -/
  refused : List String := []
  stopped : Bool := false

def formatPass : List FormatPiece → FormatPass → FormatPass
  | [], pass => pass
  | .bytes b :: pieces, pass => formatPass pieces { pass with bytes := pass.bytes ++ b }
  | .stop :: _, pass => { pass with stopped := true }
  | .conversion c :: pieces, pass =>
    let argument := pass.rest.headD ""
    let (b, good) := c.apply argument
    formatPass pieces
      { pass with
        bytes := pass.bytes ++ b
        rest := pass.rest.tail
        refused := if good then pass.refused else pass.refused ++ [argument]
        stopped := pass.stopped || (c.kind == 'b' && (argumentEscapes.expand argument).2) }

/-- Passes over a format while they use up arguments. -/
def formatPasses (pieces : List FormatPiece) : (allowance : Nat) → FormatPass → FormatPass
  | 0, pass => pass
  | allowance + 1, pass =>
    let next := formatPass pieces pass
    if next.stopped || next.rest.isEmpty || next.rest.length = pass.rest.length then next
    else formatPasses pieces allowance next

/-- A format filled with arguments: what is printed, and the arguments that
are no numbers where one is asked for. -/
def printf (format : String) (args : List String) : List UInt8 × List String :=
  let pass := formatPasses (formatPieces 0 format.toList) (args.length + 1) { rest := args }
  (pass.bytes, pass.refused)

end TreeSchema.Program
