/-
  UTF-8

  Texts as bytes and back. A byte sequence is cut into units, each of them
  either one encoded character or a stretch that encodes none: the longest
  beginning of an encoded character that is cut short, or a single byte that
  begins no character. Strict reading refuses such stretches, lossy reading
  puts U+FFFD for each.
-/

namespace TreeSchema.Text

def encode (text : String) : List UInt8 := text.toUTF8.toList

/-- What the first byte of a longer sequence asks for: how many bytes follow,
the bounds of the first of them, and its own share of the character. -/
structure Lead where
  following : Nat
  low : Nat
  high : Nat
  share : Nat

/-- What a first byte asks for. -/
def Lead.ofByte? (b : Nat) : Option Lead :=
  if 0xC2 ≤ b && b ≤ 0xDF then some { following := 1, low := 0x80, high := 0xBF, share := b - 0xC0 }
  else if b = 0xE0 then some { following := 2, low := 0xA0, high := 0xBF, share := 0 }
  else if b = 0xED then some { following := 2, low := 0x80, high := 0x9F, share := 0xD }
  else if 0xE1 ≤ b && b ≤ 0xEF then
    some { following := 2, low := 0x80, high := 0xBF, share := b - 0xE0 }
  else if b = 0xF0 then some { following := 3, low := 0x90, high := 0xBF, share := 0 }
  else if b = 0xF4 then some { following := 3, low := 0x80, high := 0x8F, share := 4 }
  else if 0xF1 ≤ b && b ≤ 0xF3 then
    some { following := 3, low := 0x80, high := 0xBF, share := b - 0xF0 }
  else none

/-- The shares of at most `count` following bytes, up to the first that
cannot follow. Only the first has bounds of its own. -/
def followers : (count low high : Nat) → List UInt8 → List Nat
  | count + 1, low, high, b :: rest =>
    if low ≤ b.toNat && b.toNat ≤ high then (b.toNat - 0x80) :: followers count 0x80 0xBF rest
    else []
  | _, _, _, _ => []

/-- The unit that begins with a byte: the character it encodes, if it does,
and how many of the following bytes belong to it. -/
def unitAt (b : UInt8) (rest : List UInt8) : Option Char × Nat :=
  if b.toNat < 0x80 then (some (Char.ofNat b.toNat), 0)
  else
    match Lead.ofByte? b.toNat with
    | none => (none, 0)
    | some lead =>
      let shares := followers lead.following lead.low lead.high rest
      if shares.length = lead.following then
        (some (Char.ofNat (shares.foldl (fun n share => n * 64 + share) lead.share)), shares.length)
      else (none, shares.length)

/-- The units of a byte sequence; `skip` bytes of a unit already read are
passed over first. -/
def unitsFrom : (skip : Nat) → List UInt8 → List (Option Char)
  | _, [] => []
  | skip + 1, _ :: rest => unitsFrom skip rest
  | 0, b :: rest =>
    let (c, length) := unitAt b rest
    c :: unitsFrom length rest

/-- The characters among units, or `none` if one is no character. -/
def allCharacters : List (Option Char) → Option (List Char)
  | [] => some []
  | none :: _ => none
  | some c :: rest => (allCharacters rest).map (c :: ·)

def decode? (bytes : List UInt8) : Option String :=
  (allCharacters (unitsFrom 0 bytes)).map String.ofList

/-- The text of a byte sequence, with U+FFFD for whatever encodes no
character. -/
def decodeLossy (bytes : List UInt8) : String :=
  String.ofList ((unitsFrom 0 bytes).map fun c => c.getD '\ufffd')

end TreeSchema.Text
