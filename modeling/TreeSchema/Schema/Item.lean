import TreeSchema.Schema.Error
import TreeSchema.Text.Split
/-
  Items

  The words on the right of a declaration: references to entities, plain or
  under a key of their own, literal values, and the marker for free text.
-/

namespace TreeSchema.Schema

inductive Item where
  /-- A sigil and a name. -/
  | reference (kind : Kind) (name : String)
  /-- A quote and a value. -/
  | literal (value : String)
  /-- A sigil, a key in parentheses, and the name of the entity under it. -/
  | aliased (kind : Kind) (key target : String)
  /-- The marker for free text. -/
  | text
  deriving DecidableEq, Repr

def isNameChar (c : Char) : Bool :=
  ('a' ≤ c && c ≤ 'z') || ('A' ≤ c && c ≤ 'Z') || ('0' ≤ c && c ≤ '9') || c = '_' || c = '-'

/-- A name is one or more name characters. -/
def checkName (name : List Char) : Except LineFault String :=
  if name.isEmpty then .error .missingName
  else match name.find? fun c => !isNameChar c with
    | some bad => .error (.nameCharacter bad (String.ofList name))
    | none => .ok (String.ofList name)

namespace Item

/-- What follows the sigil of a reference: a key in parentheses and a
target, or a name. -/
def ofReference (kind : Kind) (word : String) : List Char → Except LineFault Item
  | '(' :: aliasText =>
    match Text.splitFirst ')' aliasText with
    | none => .error (.aliasUnclosed word)
    | some (key, target) =>
      if key.isEmpty then .error (.aliasWithoutKey word)
      else do
        -- A faulty key is reported before a faulty target.
        let key ← checkName key
        let target ← checkName target
        return .aliased kind key target
  | name => do
    let name ← checkName name
    return .reference kind name

def ofWord (word : List Char) : Except LineFault Item :=
  if word = "TEXT".toList then .ok .text
  else
    let first := word.headD ' '
    let rest := word.tail
    if first = '\'' then
      if rest.isEmpty then .error .emptyLiteral
      else .ok (.literal (String.ofList rest))
    else match Kind.ofSigil? first with
      | none => .error (.itemSigil first (String.ofList word))
      | some kind => ofReference kind (String.ofList word) rest

/-- Reads words in order, up to the first that is malformed. -/
def ofWords : List (List Char) → Except LineFault (List Item)
  | [] => .ok []
  | word :: rest => do
    let item ← ofWord word
    let items ← ofWords rest
    return item :: items

def word : Item → List Char
  | reference kind name => kind.sigil :: name.toList
  | literal value => '\'' :: value.toList
  | aliased kind key target => kind.sigil :: '(' :: key.toList ++ ')' :: target.toList
  | text => "TEXT".toList

end Item

end TreeSchema.Schema
