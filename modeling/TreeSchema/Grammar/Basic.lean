/-
  Grammars

  A tree is read as a flat stream of terminals: scalars, mapping keys, and
  the marks that open and close sequences and mappings. A grammar over them
  has plain alternatives and, on single symbols, repetition.
-/

namespace TreeSchema

/-- What a rule can ask of one token. -/
inductive Terminal where
  /-- Any scalar. -/
  | scalar
  /-- A scalar equal to the value. -/
  | literal (value : String)
  /-- A mapping key; any key if none is named. -/
  | key (name : Option String)
  | openSequence
  | closeSequence
  | openMapping
  | closeMapping
  deriving DecidableEq, Repr, Inhabited

inductive Symbol where
  | terminal (t : Terminal)
  | nonterminal (name : String)
  /-- Zero or more occurrences of the inner symbol. -/
  | repeated (inner : Symbol)
  deriving DecidableEq, Repr, Inhabited

structure Rule where
  lhs : String
  alternatives : List (List Symbol)
  deriving DecidableEq, Repr

/-- A named grammar with a start symbol. -/
structure Grammar where
  name : String
  start : String
  rules : List Rule
  deriving DecidableEq, Repr

/-- The first rule for a nonterminal. -/
def Grammar.rule? (g : Grammar) (lhs : String) : Option Rule :=
  g.rules.find? fun r => r.lhs == lhs

end TreeSchema
