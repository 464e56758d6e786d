import TreeSchema.Grammar.Token
/-
  Grammar errors

  Why grammar text cannot be read, or a grammar cannot be used, as causes,
  and the wording of each.
-/

namespace TreeSchema.Grammar

/-- What is wrong at some line of a grammar text. -/
inductive Fault where
  | unterminatedComment
  | badToken (fault : Token.Fault)
  /-- The place where a name should stand. -/
  | expectedIdentifier (found : Option Token)
  | unknownDirective (name : String)
  | expectedDirective (found : Option Token)
  | expectedMark (mark : Char) (found : Option Token)
  | emptyAlternative
  | expectedKeyString (found : Option Token)
  | expectedSymbol (found : Option Token)
  | repeatedRule (lhs : String)
  deriving DecidableEq, Repr

def Fault.message : Fault → String
  | unterminatedComment => "unterminated comment"
  | badToken fault => fault.message
  | expectedIdentifier found => "expected identifier, got " ++ Token.inspect found
  | unknownDirective name => "unknown directive %" ++ name
  | expectedDirective found => "expected directive or %%, got " ++ Token.inspect found
  | expectedMark mark found => s!"expected '{mark}', got " ++ Token.inspect found
  | emptyAlternative => "empty alternative"
  | expectedKeyString found => "expected key string, got " ++ Token.inspect found
  | expectedSymbol found => "expected symbol, got " ++ Token.inspect found
  | repeatedRule lhs => s!"rule '{lhs}' is defined more than once"

/-- Why a grammar cannot be used. -/
inductive Error where
  /-- The text is malformed at a line; a fault of the grammar as a whole is
  at line zero. -/
  | malformed (line : UInt32) (fault : Fault)
  /-- A rule refers to a nonterminal without a rule. -/
  | undefinedNonterminal (name referencedBy : String)
  /-- The start symbol is missing or has no rule. -/
  | undefinedStart (name : String)
  deriving DecidableEq, Repr

def Error.message : Error → String
  | malformed line fault => s!"grammar line {line}: " ++ fault.message
  | undefinedNonterminal name referencedBy =>
    s!"nonterminal '{name}' used in '{referencedBy}' has no rule"
  | undefinedStart name => s!"start symbol '{name}' has no rule"

end TreeSchema.Grammar
