import TreeSchema.Grammar.Basic
import TreeSchema.Grammar.Quoted
/-
  Grammar text

  A grammar as text: a banner, its name and start symbol, a separator, and
  the rules, one alternative a line. The text depends on nothing but the
  grammar.
-/

namespace TreeSchema

/-- A terminal as grammar text writes it. -/
def Terminal.chars : Terminal → List Char
  | scalar => "SCALAR".toList
  | literal value => Grammar.Quoted.quote value
  | key none => "KEY".toList
  | key (some name) => "KEY(".toList ++ Grammar.Quoted.quote name ++ [')']
  | openSequence => "'['".toList
  | closeSequence => "']'".toList
  | openMapping => ['\'', '\x7b', '\'']
  | closeMapping => ['\'', '\x7d', '\'']

def Terminal.text (t : Terminal) : String := String.ofList t.chars

def Symbol.chars : Symbol → List Char
  | terminal t => t.chars
  | nonterminal name => name.toList
  | repeated inner => inner.chars ++ ['*']

/-- The symbols of an alternative, each after a space, and a line end. -/
def alternativeChars (symbols : List Symbol) : List Char :=
  symbols.flatMap (fun s => ' ' :: s.chars) ++ ['\n']

/-- The alternatives of a rule: a colon before the first, a bar before each
of the others. -/
def alternativesChars : List (List Symbol) → List Char
  | [] => []
  | first :: others =>
    "    :".toList ++ alternativeChars first
      ++ others.flatMap fun symbols => "    |".toList ++ alternativeChars symbols

/-- A rule, after an empty line. -/
def Rule.chars (r : Rule) : List Char :=
  '\n' :: r.lhs.toList ++ '\n' :: alternativesChars r.alternatives ++ "    ;\n".toList

namespace Grammar

/-- The comment that generated text begins with. -/
def banner : String := "/* Generated by hashgram. Do not edit. */"

/-- What stands before the rules. -/
def headerChars (g : Grammar) : List Char :=
  banner.toList ++ "\n%grammar ".toList ++ g.name.toList
    ++ "\n%start ".toList ++ g.start.toList ++ "\n\n%%\n".toList

def chars (g : Grammar) : List Char := g.headerChars ++ g.rules.flatMap Rule.chars

def text (g : Grammar) : String := String.ofList g.chars

end Grammar

end TreeSchema
