import TreeSchema.Grammar.Basic
/-
  First terminals

  Which terminals can begin what a symbol stands for, and whether it can
  stand for nothing. Both are computed for all nonterminals together, by
  rounds that start from nothing known and stop when a round adds nothing.
  Terminals are listed in the order in which they are found.
-/

namespace TreeSchema.Grammar

/-- The terminals that can come first, and whether nothing at all can come. -/
structure FirstSet where
  terminals : List Terminal
  nullable : Bool
  deriving DecidableEq, Repr

def FirstSet.empty : FirstSet := { terminals := [], nullable := false }

/-- Adds the terminals that are new, in order, at the end. -/
def addTerminals (known : List Terminal) : List Terminal → List Terminal
  | [] => known
  | t :: rest => addTerminals (if t ∈ known then known else known ++ [t]) rest

/-- What is known of each nonterminal. -/
abbrev FirstTable := List (String × FirstSet)

namespace FirstTable

def get (table : FirstTable) (name : String) : FirstSet :=
  (table.lookup name).getD .empty

/-- What is known of a symbol. A repetition can always stand for nothing. -/
def ofSymbol (table : FirstTable) : Symbol → FirstSet
  | .terminal t => { terminals := [t], nullable := false }
  | .nonterminal name => table.get name
  | .repeated inner => { terminals := (table.ofSymbol inner).terminals, nullable := true }

/-- What is known of a list of symbols, given the terminals already found
before it: a symbol counts as long as all before it can stand for nothing. -/
def ofSymbolsFrom (table : FirstTable) (known : List Terminal) : List Symbol → FirstSet
  | [] => { terminals := known, nullable := true }
  | s :: rest =>
    let known := addTerminals known (table.ofSymbol s).terminals
    if (table.ofSymbol s).nullable then table.ofSymbolsFrom known rest
    else { terminals := known, nullable := false }

def ofSymbols (table : FirstTable) (symbols : List Symbol) : FirstSet :=
  table.ofSymbolsFrom [] symbols

/-- Adds what is known of one alternative to its nonterminal. -/
def absorb (table : FirstTable) (lhs : String) (found : FirstSet) : FirstTable :=
  table.map fun (name, known) =>
    if name = lhs then
      (name, { terminals := addTerminals known.terminals found.terminals
               nullable := known.nullable || found.nullable })
    else (name, known)

/-- One rule's part of a round. -/
def absorbRule (table : FirstTable) (r : Rule) : FirstTable :=
  r.alternatives.foldl (fun table symbols => table.absorb r.lhs (table.ofSymbols symbols)) table

/-- One round over all rules in order; what a rule adds is known to the rules
after it. -/
def round (rules : List Rule) (table : FirstTable) : FirstTable := rules.foldl absorbRule table

/-- Rounds until one adds nothing, at most `fuel` of them. -/
def saturate (rules : List Rule) : (fuel : Nat) → FirstTable → FirstTable
  | 0, table => table
  | fuel + 1, table =>
    let next := round rules table
    -- A round that adds nothing would add nothing again.
    if next = table then table else saturate rules fuel next

end FirstTable

def terminalCount : Symbol → Nat
  | .terminal _ => 1
  | .nonterminal _ => 0
  | .repeated inner => terminalCount inner

def terminalsIn (rules : List Rule) : Nat :=
  (rules.flatMap fun r => r.alternatives.flatten.map terminalCount).foldl (· + ·) 0

/-- A round that adds something adds a terminal or a nullable mark to some
nonterminal, so that no more than this many can. -/
def firstRounds (rules : List Rule) : Nat := rules.length * (terminalsIn rules + 1) + 1

/-- What is known of every nonterminal when nothing more can be found. -/
def firstTable (rules : List Rule) : FirstTable :=
  FirstTable.saturate rules (firstRounds rules) (rules.map fun r => (r.lhs, .empty))

end TreeSchema.Grammar
