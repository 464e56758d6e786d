import TreeSchema.Schema.Item
import TreeSchema.Text.Blank
import TreeSchema.Text.Lines
/-
  Declarations

  A schema is read line by line. A blank line, or one that begins with a hash
  sign, says nothing; every other line declares one entity: a sigil and a
  name, a colon, and the items. Reading stops at the first malformed line.
  The number of a line is its position, counted from one, in 32 bits: behind
  line 2 ^ 32 - 1 the numbers begin again at zero.
-/

namespace TreeSchema.Schema

/-- One line of a schema. -/
structure Declaration where
  kind : Kind
  name : String
  items : List Item
  line : UInt32
  deriving DecidableEq, Repr

namespace Declaration

/-- Reads the trimmed text of a line that declares something. -/
def ofText (line : UInt32) (text : List Char) : Except LineFault Declaration :=
  match Text.splitFirst ':' text with
  | none => .error (.missingColon (String.ofList text))
  | some (before, after) =>
    let header := Text.trim before
    let sigil := header.headD ' '
    match Kind.ofSigil? sigil with
    | none => .error (.declarationSigil sigil)
    | some kind => do
      let name ← checkName header.tail
      let items ← Item.ofWords (Text.words after)
      return { kind, name, items, line }

/-- Whether a trimmed line declares nothing. -/
def saysNothing (text : List Char) : Bool :=
  text.isEmpty || text.head? == some '#'

/-- Reads the lines of `file`, the first of which stands at `position`. -/
def ofLines (file : String) (position : Nat) :
    List (List Char) → Except Error (List Declaration)
  | [] => .ok []
  | raw :: rest =>
    let line := UInt32.ofNat position
    let text := Text.trim raw
    if saysNothing text then ofLines file (position + 1) rest
    else match ofText line text with
      | .error fault => .error (.syntaxFault file line fault)
      | .ok declaration => do
        let declarations ← ofLines file (position + 1) rest
        return declaration :: declarations

/-- The declarations of a schema text, or its first malformed line. -/
def readAll (file source : String) : Except Error (List Declaration) :=
  ofLines file 1 (Text.lines source.toList)

end Declaration

end TreeSchema.Schema
