import TreeSchema.Grammar.Basic
import TreeSchema.Grammar.Scan
import TreeSchema.Text.Lines
import TreeSchema.Text.Split
/-
  Reading grammar text

  Directives in any order, a separator, then the rules. The last name and
  the last start symbol given count; a start symbol there must be. An error
  that follows a token already taken is reported on the line of the token
  after it, and the end of the text counts as a token that is never passed.
-/

namespace TreeSchema.Grammar

namespace Reader

/-- The line of the next token; `endLine` at the end of the text. -/
def lineOf (endLine : UInt32) : List LineToken → UInt32
  | [] => endLine
  | t :: _ => t.line

/-- A fault on the line of the next token. -/
def fail {α : Type} (endLine : UInt32) (rest : List LineToken) (fault : Fault) : Except Error α :=
  .error (.malformed (lineOf endLine rest) fault)

def peek (rest : List LineToken) : Option Token := rest.head?.map LineToken.token

/-- Passes a punctuation mark. -/
def expect (endLine : UInt32) (token : Token) (mark : Char) (rest : List LineToken) :
    Except Error (List LineToken) :=
  if peek rest = some token then .ok rest.tail
  else fail endLine rest (.expectedMark mark (peek rest))

def takeIdentifier (endLine : UInt32) (rest : List LineToken) :
    Except Error (String × List LineToken) :=
  match peek rest with
  | some (.identifier name) => .ok (name, rest.tail)
  | found => fail endLine rest.tail (.expectedIdentifier found)

/-- Takes the key of a keyed terminal, after its opening parenthesis. -/
def takeKey (endLine : UInt32) (rest : List LineToken) : Except Error (Symbol × List LineToken) :=
  match peek rest with
  | some (.string name) => do
    let rest ← expect endLine .closeParen ')' rest.tail
    return (.terminal (.key (some name)), rest)
  | found => fail endLine rest.tail (.expectedKeyString found)

def bracketTerminal : Bracket → Terminal
  | .openSequence => .openSequence
  | .closeSequence => .closeSequence
  | .openMapping => .openMapping
  | .closeMapping => .closeMapping

/-- Takes one symbol without its repetition mark. -/
def takePrimary (endLine : UInt32) (rest : List LineToken) :
    Except Error (Symbol × List LineToken) :=
  match peek rest with
  | some (.identifier name) =>
    if name = "SCALAR" then .ok (.terminal .scalar, rest.tail)
    else if name = "KEY" then
      if peek rest.tail = some .openParen then takeKey endLine rest.tail.tail
      else .ok (.terminal (.key none), rest.tail)
    else .ok (.nonterminal name, rest.tail)
  | some (.string value) => .ok (.terminal (.literal value), rest.tail)
  | some (.bracket b) => .ok (.terminal (bracketTerminal b), rest.tail)
  | found => fail endLine rest.tail (.expectedSymbol found)

/-- Takes one symbol with at most one repetition mark. -/
def takeSymbol (endLine : UInt32) (rest : List LineToken) :
    Except Error (Symbol × List LineToken) := do
  let (symbol, rest) ← takePrimary endLine rest
  if peek rest = some .star then return (.repeated symbol, rest.tail)
  else return (symbol, rest)

/-- Whether an alternative ends before this token. -/
def endsAlternative : Option Token → Bool
  | none | some .bar | some .semicolon => true
  | _ => false

theorem length_tail_le {α : Type} (l : List α) : l.tail.length ≤ l.length := by
  cases l <;> simp

theorem length_tail_lt_of_peek {rest : List LineToken} {token : Token}
    (h : peek rest = some token) : rest.tail.length < rest.length := by
  cases rest with
  | nil => simp [peek] at h
  | cons => simp

theorem length_le_of_expect {endLine : UInt32} {token : Token} {mark : Char}
    {rest after : List LineToken} (h : expect endLine token mark rest = .ok after) :
    after.length ≤ rest.length := by
  unfold expect at h
  split at h
  · cases h; exact length_tail_le _
  · cases h

theorem length_le_of_takeKey {endLine : UInt32} {rest after : List LineToken} {s : Symbol}
    (h : takeKey endLine rest = .ok (s, after)) : after.length ≤ rest.length := by
  unfold takeKey at h
  split at h
  · simp only [bind, Except.bind] at h
    split at h
    · cases h
    · next he =>
      cases h
      exact Nat.le_trans (length_le_of_expect he) (length_tail_le _)
  · cases h

theorem length_lt_of_takePrimary {endLine : UInt32} {rest after : List LineToken} {s : Symbol}
    (h : takePrimary endLine rest = .ok (s, after)) : after.length < rest.length := by
  unfold takePrimary at h
  split at h
  · next hp =>
    have hlt := length_tail_lt_of_peek hp
    split at h
    · cases h; exact hlt
    · split at h
      · split at h
        · have := length_le_of_takeKey h
          have := length_tail_le rest.tail
          omega
        · cases h; exact hlt
      · cases h; exact hlt
  · next hp => cases h; exact length_tail_lt_of_peek hp
  · next hp => cases h; exact length_tail_lt_of_peek hp
  · cases h

theorem length_lt_of_takeSymbol {endLine : UInt32} {rest after : List LineToken} {s : Symbol}
    (h : takeSymbol endLine rest = .ok (s, after)) : after.length < rest.length := by
  unfold takeSymbol at h
  simp only [bind, Except.bind] at h
  split at h
  · cases h
  · next r hr =>
    obtain ⟨symbol, mid⟩ := r
    have hlt := length_lt_of_takePrimary hr
    simp only at h
    split at h
    · cases h
      have := length_tail_le mid
      omega
    · cases h; exact hlt

/-- Takes symbols up to the end of the alternative. -/
def takeSymbols (endLine : UInt32) (rest : List LineToken) :
    Except Error (List Symbol × List LineToken) :=
  if endsAlternative (peek rest) then .ok ([], rest)
  else match _h : takeSymbol endLine rest with
    | .error e => .error e
    | .ok (symbol, after) => do
      let (symbols, rest) ← takeSymbols endLine after
      return (symbol :: symbols, rest)
termination_by rest.length
decreasing_by exact length_lt_of_takeSymbol _h

/-- Takes one alternative, which may not be empty. -/
def takeAlternative (endLine : UInt32) (rest : List LineToken) :
    Except Error (List Symbol × List LineToken) := do
  let (symbols, rest) ← takeSymbols endLine rest
  if symbols.isEmpty then fail endLine rest .emptyAlternative
  else return (symbols, rest)

theorem length_le_of_takeSymbols {endLine : UInt32} {rest after : List LineToken}
    {symbols : List Symbol} (h : takeSymbols endLine rest = .ok (symbols, after)) :
    after.length ≤ rest.length := by
  fun_induction takeSymbols endLine rest generalizing symbols after with
  | case1 => cases h; exact Nat.le_refl _
  | case2 => cases h
  | case3 rest _ symbol mid hs ih =>
    simp only [bind, Except.bind] at h
    split at h
    · cases h
    · next r hr =>
      obtain ⟨symbols, last⟩ := r
      cases h
      have := ih hr
      have := length_lt_of_takeSymbol hs
      simp only
      omega

theorem length_le_of_takeAlternative {endLine : UInt32} {rest after : List LineToken}
    {symbols : List Symbol} (h : takeAlternative endLine rest = .ok (symbols, after)) :
    after.length ≤ rest.length := by
  unfold takeAlternative at h
  simp only [bind, Except.bind] at h
  split at h
  · cases h
  · next r hr =>
    obtain ⟨symbols, mid⟩ := r
    have := length_le_of_takeSymbols hr
    simp only at h
    split at h
    · cases h
    · cases h; exact this

/-- Takes the alternatives that follow bars. -/
def takeOthers (endLine : UInt32) (rest : List LineToken) :
    Except Error (List (List Symbol) × List LineToken) :=
  if _hb : peek rest = some .bar then
    match _h : takeAlternative endLine rest.tail with
    | .error e => .error e
    | .ok (symbols, after) => do
      let (others, rest) ← takeOthers endLine after
      return (symbols :: others, rest)
  else .ok ([], rest)
termination_by rest.length
decreasing_by
  have := length_le_of_takeAlternative _h
  have := length_tail_lt_of_peek _hb
  omega

def takeRule (endLine : UInt32) (rest : List LineToken) : Except Error (Rule × List LineToken) := do
  let (lhs, rest) ← takeIdentifier endLine rest
  let rest ← expect endLine .colon ':' rest
  let (first, rest) ← takeAlternative endLine rest
  let (others, rest) ← takeOthers endLine rest
  let rest ← expect endLine .semicolon ';' rest
  return ({ lhs, alternatives := first :: others }, rest)

theorem length_le_of_takeOthers {endLine : UInt32} {rest after : List LineToken}
    {others : List (List Symbol)} (h : takeOthers endLine rest = .ok (others, after)) :
    after.length ≤ rest.length := by
  fun_induction takeOthers endLine rest generalizing others after with
  | case1 => cases h
  | case2 rest _ symbols mid hs ih =>
    simp only [bind, Except.bind] at h
    split at h
    · cases h
    · next r hr =>
      obtain ⟨others, last⟩ := r
      cases h
      have := ih hr
      have := length_le_of_takeAlternative hs
      have := length_tail_le rest
      simp only
      omega
  | case3 => cases h; exact Nat.le_refl _

theorem length_lt_of_takeIdentifier {endLine : UInt32} {rest after : List LineToken} {name : String}
    (h : takeIdentifier endLine rest = .ok (name, after)) : after.length < rest.length := by
  unfold takeIdentifier at h
  split at h
  · next hp => cases h; exact length_tail_lt_of_peek hp
  · cases h

theorem length_lt_of_takeRule {endLine : UInt32} {rest after : List LineToken} {r : Rule}
    (h : takeRule endLine rest = .ok (r, after)) : after.length < rest.length := by
  unfold takeRule at h
  simp only [bind, Except.bind] at h
  split at h
  · cases h
  next a ha =>
  obtain ⟨lhs, afterName⟩ := a
  have h1 := length_lt_of_takeIdentifier ha
  simp only at h
  split at h
  · cases h
  next b hb =>
  have h2 := length_le_of_expect hb
  split at h
  · cases h
  next c hc =>
  obtain ⟨first, afterFirst⟩ := c
  have h3 := length_le_of_takeAlternative hc
  simp only at h
  split at h
  · cases h
  next d hd =>
  obtain ⟨others, afterOthers⟩ := d
  have h4 := length_le_of_takeOthers hd
  simp only at h
  split at h
  · cases h
  next e he =>
  have h5 := length_le_of_expect he
  cases h
  omega

/-- Takes rules up to the end of the text. -/
def takeRules (endLine : UInt32) (rest : List LineToken) : Except Error (List Rule) :=
  if rest.isEmpty then .ok []
  else match _h : takeRule endLine rest with
    | .error e => .error e
    | .ok (rule, after) => do
      let rules ← takeRules endLine after
      return rule :: rules
termination_by rest.length
decreasing_by exact length_lt_of_takeRule _h

/-- The names given by directives so far. -/
structure Names where
  name : Option String
  start : Option String
  deriving DecidableEq, Repr

/-- Takes directives up to and with the separator. -/
def takeDirectives (endLine : UInt32) (names : Names) (rest : List LineToken) :
    Except Error (Names × List LineToken) :=
  match rest with
  | [] => fail endLine [] (.expectedDirective none)
  | { token := .separator, .. } :: rest => .ok (names, rest)
  | { token := .directive d, .. } :: rest =>
    if d = "grammar" then
      match _h : takeIdentifier endLine rest with
      | .error e => .error e
      | .ok (name, after) => takeDirectives endLine { names with name := some name } after
    else if d = "start" then
      match _h : takeIdentifier endLine rest with
      | .error e => .error e
      | .ok (name, after) => takeDirectives endLine { names with start := some name } after
    else fail endLine rest (.unknownDirective d)
  | { token, .. } :: rest => fail endLine rest (.expectedDirective (some token))
termination_by rest.length
decreasing_by
  all_goals
    have := length_lt_of_takeIdentifier _h
    simp
    omega

def ofTokens (stream : TokenStream) : Except Error Grammar := do
  let (names, rest) ← takeDirectives stream.endLine { name := none, start := none } stream.tokens
  match names.start with
  | none => .error (.undefinedStart "")
  | some start => do
    let rules ← takeRules stream.endLine rest
    return { name := names.name.getD "", start, rules }

end Reader

/-- Reads grammar text. Only its form is looked at here, not whether every
nonterminal has a rule. -/
def read (text : String) : Except Error Grammar := do
  let stream ← tokens text
  Reader.ofTokens stream

/-- The name given by the first line that begins with the name directive,
found without reading the rest. -/
def nameIn (text : String) : Option String :=
  let found := (Text.lines text.toList).findSome? fun line =>
    Text.afterPhrase "%grammar".toList (Text.trim line)
  match found with
  | none => none
  | some name =>
    let name := Text.trim name
    if name.isEmpty then none else some (String.ofList name)

end TreeSchema.Grammar
