import TreeSchema.Grammar.Reader
import TreeSchema.Grammar.First
import TreeSchema.Validation.Outcome
/-
  Validators

  A grammar made ready to judge documents: every nonterminal has exactly one
  rule, and each alternative knows which tokens can begin it. A rule picks
  its alternatives by the next token; when several can begin with it, each is
  tried. Repetitions are where parsing recovers from an element that does not
  fit.

  Rules may call each other without end only in a left-recursive grammar. The
  number of nested calls is therefore bounded by the number of rules for each
  token, and a run within that bound gives an answer for every other grammar.
-/

namespace TreeSchema.Validation

/-- An alternative with the terminals that can begin it. -/
structure Branch where
  symbols : List Symbol
  first : List Terminal
  nullable : Bool
  deriving DecidableEq, Repr

/-- A rule whose alternatives know their first terminals. -/
structure BranchRule where
  lhs : String
  branches : List Branch
  deriving DecidableEq, Repr

/-- A grammar made ready to judge documents. -/
structure Validator where
  name : String
  start : String
  rules : List BranchRule
  deriving DecidableEq, Repr

/-- The first left-hand side that an earlier rule has too. -/
def repeatedRule? (seen : List String) : List Rule → Option String
  | [] => none
  | r :: rest => if r.lhs ∈ seen then some r.lhs else repeatedRule? (r.lhs :: seen) rest

/-- The nonterminal a symbol is or repeats. -/
def nonterminalOf? : Symbol → Option String
  | .terminal _ => none
  | .nonterminal name => some name
  | .repeated inner => nonterminalOf? inner

/-- The first nonterminal of a rule that has no rule. -/
def undefinedIn? (defined : List String) (r : Rule) : Option String :=
  r.alternatives.flatten.findSome? fun s =>
    (nonterminalOf? s).filter fun name => !defined.contains name

/-- The first nonterminal without a rule, and the rule that uses it. -/
def undefined? (defined : List String) (rules : List Rule) : Option (String × String) :=
  rules.findSome? fun r => (undefinedIn? defined r).map fun name => (name, r.lhs)

namespace Validator

/-- A validator for a grammar in which no rule is repeated and every
nonterminal, the start symbol first, has a rule. -/
def ofGrammar (g : Grammar) : Except Grammar.Error Validator :=
  let defined := g.rules.map Rule.lhs
  match repeatedRule? [] g.rules with
  | some lhs => .error (.malformed 0 (.repeatedRule lhs))
  | none =>
    -- A missing start symbol is named before any other missing rule.
    if defined.contains g.start then
      match undefined? defined g.rules with
      | some (name, lhs) => .error (.undefinedNonterminal name lhs)
      | none =>
        let table := Grammar.firstTable g.rules
        let branch (symbols : List Symbol) : Branch :=
          let found := table.ofSymbols symbols
          { symbols, first := found.terminals, nullable := found.nullable }
        .ok { name := g.name
              start := g.start
              rules := g.rules.map fun r =>
                { lhs := r.lhs, branches := r.alternatives.map branch } }
    else .error (.undefinedStart g.start)

def branchesOf (v : Validator) (name : String) : List Branch :=
  ((v.rules.find? fun r => r.lhs == name).map BranchRule.branches).getD []

def firstOf (v : Validator) (name : String) : List Terminal :=
  (v.branchesOf name).foldl (fun known b => Grammar.addTerminals known b.first) []

def firstOfSymbol (v : Validator) : Symbol → List Terminal
  | .terminal t => [t]
  | .nonterminal name => v.firstOf name
  | .repeated inner => v.firstOfSymbol inner

/-- The alternatives worth trying: those the next token can begin, or else
the first that can stand for nothing. -/
def candidates (v : Validator) (name : String) (rest : List PlacedToken) : List Branch :=
  let branches := v.branchesOf name
  let starting := match rest with
    | [] => []
    | t :: _ => branches.filter fun b => b.first.any fun f => f.accepts t.token
  if starting.isEmpty then (branches.find? Branch.nullable).toList else starting

/-- Parses one symbol of the rule `rule`, where `call` parses a
nonterminal. -/
def parseSymbol (v : Validator) (call : String → Parse) (rule : String) : Symbol → Parse
  | .terminal t => takeTerminal t
  | .nonterminal name => call name
  | .repeated inner =>
    repeatParse (v.parseSymbol call rule inner) (v.firstOfSymbol inner) rule

def parseSymbols (v : Validator) (call : String → Parse) (rule : String) : List Symbol → Parse
  | [], rest => .parsed rest []
  | s :: others, rest =>
    (v.parseSymbol call rule s rest).andThen (v.parseSymbols call rule others)

/-- Parses a nonterminal, with an allowance of nested rules. -/
def parseRule (v : Validator) : (allowance : Nat) → String → Parse
  | 0, _, _ => .exhausted
  | allowance + 1, name, rest =>
    choose (fun b : Branch => v.parseSymbols (v.parseRule allowance) name b.symbols rest)
      (v.candidates name rest)

/-- The violations of a document, or `none` if the allowance of nested rules
runs out. A document that does not fit the start symbol as a whole is
rejected as a whole. -/
def violationsWithin? (v : Validator) (allowance : Nat) (document : Node) :
    Option (List Violation) :=
  match v.parseRule allowance v.start document.tokens with
  | .exhausted => none
  -- Tokens left over are as bad as a mismatch.
  | .parsed [] recorded => some recorded
  | _ => some [.reject v.start (v.firstOf v.start) document.tokens]

/-- As many nested rules as a grammar without left recursion can need: every
rule once before each token and once at the end. -/
def allowance (v : Validator) (document : Node) : Nat :=
  v.rules.length * (document.tokens.length + 1) + 1

/-- The violations of a document; `none` only where a left-recursive rule
would never come to an end. -/
def violations? (v : Validator) (document : Node) : Option (List Violation) :=
  v.violationsWithin? (v.allowance document) document

def ofText (text : String) : Except Grammar.Error Validator := do
  let g ← Grammar.read text
  ofGrammar g

end Validator

end TreeSchema.Validation
