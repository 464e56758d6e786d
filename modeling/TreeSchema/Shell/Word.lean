/-
  Words of a script

  A word is a run of pieces: characters, parameters that are replaced by
  their values, and commands that are replaced by what they print. Quotes are
  gone, but each piece remembers whether it stood between them, because only
  what is replaced outside quotes is split into several words.
-/

namespace TreeSchema.Shell

/-- What a dollar sign can name. -/
inductive Parameter where
  /-- The name of the script, or one of its arguments. -/
  | argument (index : Nat)
  /-- How many arguments there are. -/
  | count
  /-- Every argument, each a word of its own. -/
  | all
  /-- All arguments in one. -/
  | joined
  /-- The status of the last command. -/
  | status
  /-- The number of the running process. -/
  | process
  | variable (name : String)
  deriving DecidableEq, Repr

inductive Piece where
  | char (quoted : Bool) (c : Char)
  /-- A pair of quotes with nothing between them. -/
  | nothing
  /-- A parameter, and what stands for it while it is empty. -/
  | parameter (quoted : Bool) (p : Parameter) (fallback : String)
  /-- What a script prints. -/
  | output (quoted : Bool) (script : List Char)
  deriving DecidableEq, Repr

abbrev Word := List Piece

def Piece.isOutput : Piece → Bool
  | output .. => true
  | _ => false

/-- The character a piece is, if it stands outside quotes. -/
def Piece.plain? : Piece → Option Char
  | char false c => some c
  | _ => none

/-- The text of a word that is written without quotes and replacements. -/
def plainText? (word : Word) : Option String := (word.mapM Piece.plain?).map String.ofList

def startsName (c : Char) : Bool := c.isAlpha || c == '_'

def continuesName (c : Char) : Bool := c.isAlphanum || c == '_'

/-- A name and the word assigned to it, if a word is an assignment. -/
def assignment? (word : Word) : Option (String × Word) :=
  match word.span fun piece => piece.plain?.any continuesName with
  | (name@(.char _ c :: _), .char false '=' :: value) =>
    if startsName c then (plainText? name).map fun text => (text, value) else none
  | _ => none

/-- One character of an expanded word: solid ones stay, soft ones split the
word at blanks. -/
inductive Expanded where
  | solid (c : Char)
  | soft (c : Char)
  /-- The word exists, even if nothing else does. -/
  | present
  /-- A new word begins. -/
  | gap
  deriving DecidableEq, Repr

/-- The words that an expanded word falls into, given the word under way. -/
def fields (current : Option (List Char)) : List Expanded → List String
  | [] => finish current
  | .solid c :: rest => fields (some (c :: current.getD [])) rest
  | .present :: rest => fields (some (current.getD [])) rest
  | .gap :: rest => finish current ++ fields none rest
  | .soft c :: rest =>
    if c = ' ' || c = '\t' || c = '\n' then finish current ++ fields none rest
    else fields (some (c :: current.getD [])) rest
where
  /-- The word under way, if there is one. -/
  finish : Option (List Char) → List String
    | none => []
    | some backwards => [String.ofList backwards.reverse]

end TreeSchema.Shell
