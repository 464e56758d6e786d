import TreeSchema.Yaml.Lexeme.Block
import TreeSchema.Yaml.Lexeme.Name
import TreeSchema.Yaml.Lexeme.Quoted
/-
  Layout

  Turns YAML text into tokens, with the structure that indentation gives made
  explicit. Block collections are open at increasing indents and close when a
  line is indented less. A scalar, alias or flow collection may turn out to
  be a key when a colon follows it; the place of each such candidate is kept,
  one for each flow level, so that the key token can be put before it. A
  candidate must end on its line and within 1024 bytes.
-/

namespace TreeSchema.Yaml

structure KeyCandidate where
  /-- Whether nothing but a key can stand there. -/
  required : Bool
  /-- The number of tokens before it. -/
  place : Nat
  index : Nat
  line : Nat
  column : Nat
  deriving DecidableEq, Repr

structure Layout where
  input : Input
  tokens : Array Token
  /-- The indent of the innermost block collection; -1 outside all. -/
  indent : Int
  /-- The indents of the block collections around it. -/
  outerIndents : List Int
  /-- The key candidate of the innermost flow level. -/
  candidate : Option KeyCandidate
  /-- The key candidates of the flow levels around it. -/
  outerCandidates : List (Option KeyCandidate)
  /-- Whether a key may begin here. -/
  keyAllowed : Bool
  deriving Repr

namespace Layout

def start (text : List Char) : Layout :=
  { input := .start text, tokens := #[], indent := -1, outerIndents := [], candidate := none,
    outerCandidates := [], keyAllowed := true }

def inFlow (s : Layout) : Bool := !s.outerCandidates.isEmpty

def emit (s : Layout) (token : Token) : Layout := { s with tokens := s.tokens.push token }

/-- Puts a token before those from `place` on. -/
def insert (s : Layout) (place : Nat) (token : Token) : Layout :=
  { s with tokens := s.tokens.insertIdxIfInBounds place token }

def emitSkipping (s : Layout) (n : Nat) (token : Token) : Layout :=
  { s with input := s.input.skipMany n, tokens := s.tokens.push token }

/-- Gives up the key candidate of the innermost flow level; a required one
must have had its colon. -/
def dropCandidate (s : Layout) : Option Layout :=
  if s.candidate.any KeyCandidate.required then none else some { s with candidate := none }

/-- Takes note that a key may begin here. In a block collection at its very
indent nothing else can. -/
def saveCandidate (s : Layout) : Option Layout :=
  if s.keyAllowed then do
    let s ← s.dropCandidate
    let candidate : KeyCandidate :=
      { required := !s.inFlow && s.indent == (s.input.column : Int)
        place := s.tokens.size
        index := s.input.index
        line := s.input.line
        column := s.input.column }
    return { s with candidate := some candidate }
  else some s

/-- Whether a candidate can no longer be a key. -/
def isStale (s : Layout) (k : KeyCandidate) : Bool :=
  k.line < s.input.line || k.index + 1024 < s.input.index

def dropStale (s : Layout) : Option Layout :=
  if (s.candidate :: s.outerCandidates).any fun k => k.any fun k => s.isStale k && k.required then
    none
  else
    let keep (k : Option KeyCandidate) : Option KeyCandidate := k.filter fun k => !s.isStale k
    some { s with candidate := keep s.candidate, outerCandidates := s.outerCandidates.map keep }

/-- Opens a block collection at a column deeper than the current indent;
`place` is where its start belongs, the end if none is given. -/
def openBlock (s : Layout) (column : Nat) (place : Option Nat) (token : Token) : Layout :=
  if s.inFlow then s
  else if s.indent < (column : Int) then
    let s := { s with outerIndents := s.indent :: s.outerIndents, indent := column }
    match place with
    | none => s.emit token
    | some place => s.insert place token
  else s

/-- Closes the block collections indented deeper than `column`. -/
def closeBlocksFrom (column : Int) : (fuel : Nat) → Layout → Layout
  | 0, s => s
  | fuel + 1, s =>
    if column < s.indent then
      closeBlocksFrom column fuel
        { s.emit .blockEnd with indent := s.outerIndents.headD (-1),
                                outerIndents := s.outerIndents.tail }
    else s

/-- Closes block collections; in flow collections indents do not count. -/
def closeBlocks (s : Layout) (column : Int) : Layout :=
  if s.inFlow then s else closeBlocksFrom column (s.outerIndents.length + 1) s

/-- Passes blanks, comments and line ends. A tab counts as a blank where no
key may begin. After a line end outside flow collections a key may. -/
def skipSpace : (fuel : Nat) → Layout → Layout
  | 0, s => s
  | fuel + 1, s =>
    -- A byte order mark may begin a line, and takes up a column there.
    let input := if s.input.column = 0 ∧ s.input.peek = some '\ufeff' then s.input.skip else s.input
    let tabs := s.inFlow || !s.keyAllowed
    let input := input.skipWhile fun c => c = ' ' || (tabs && c = '\t')
    let input := if input.peek = some '#' then input.skipComment else input
    if input.peek.any isBreak then
      skipSpace fuel
        { s with input := input.skipBreak, keyAllowed := s.keyAllowed || !s.inFlow }
    else { s with input }

/-- A directive or document mark, which closes everything. -/
def resetBlocks (s : Layout) : Option Layout := do
  let s ← (s.closeBlocks (-1)).dropCandidate
  return { s with keyAllowed := false }

def directive (s : Layout) : Option Layout := do
  let s ← s.resetBlocks
  let (token, input) ← readDirective s.input
  return { s with input }.emit token

def documentMark (s : Layout) (token : Token) : Option Layout := do
  let s ← s.resetBlocks
  return s.emitSkipping 3 token

def openFlow (s : Layout) (token : Token) : Option Layout := do
  let s ← s.saveCandidate
  let s := { s with candidate := none, outerCandidates := s.candidate :: s.outerCandidates,
                    keyAllowed := true }
  return s.emitSkipping 1 token

def closeFlow (s : Layout) (token : Token) : Option Layout := do
  let s ← s.dropCandidate
  let s := match s.outerCandidates with
    -- A bracket that closes nothing is refused when events are read.
    | [] => s
    | outer :: others => { s with candidate := outer, outerCandidates := others }
  return { s with keyAllowed := false }.emitSkipping 1 token

def flowEntry (s : Layout) : Option Layout := do
  let s ← s.dropCandidate
  return { s with keyAllowed := true }.emitSkipping 1 .flowEntry

/-- A dash before an entry of a block sequence. -/
def blockEntry (s : Layout) : Option Layout :=
  if !s.inFlow && !s.keyAllowed then none
  else do
    let s ← (s.openBlock s.input.column none .blockSequenceStart).dropCandidate
    return { s with keyAllowed := true }.emitSkipping 1 .blockEntry

/-- A question mark before a key. -/
def keyMark (s : Layout) : Option Layout :=
  if !s.inFlow && !s.keyAllowed then none
  else do
    let s ← (s.openBlock s.input.column none .blockMappingStart).dropCandidate
    return { s with keyAllowed := !s.inFlow }.emitSkipping 1 .key

/-- A colon before a value. A key candidate becomes a key. -/
def valueMark (s : Layout) : Option Layout :=
  match s.candidate with
  | some k =>
    -- The mark of the key goes before it, and the start of a new mapping before that.
    let s := (s.insert k.place .key).openBlock k.column (some k.place) .blockMappingStart
    some ({ s with candidate := none, keyAllowed := false }.emitSkipping 1 .value)
  | none =>
    if !s.inFlow && !s.keyAllowed then none
    else
      let s := s.openBlock s.input.column none .blockMappingStart
      some ({ s with keyAllowed := !s.inFlow }.emitSkipping 1 .value)

/-- A lexeme that may be a key. -/
def candidateLexeme (s : Layout) (read : Input → Option (Token × Input)) : Option Layout := do
  let s ← s.saveCandidate
  let (token, input) ← read s.input
  return { s with input, keyAllowed := false }.emit token

def blockScalar (s : Layout) (folded : Bool) : Option Layout := do
  let s ← s.dropCandidate
  let (text, input) ← readBlock folded s.indent s.input
  return { s with input, keyAllowed := true }.emit (.scalar text .quoted)

/-- A plain scalar. After line ends a key may begin. -/
def plainScalar (s : Layout) : Option Layout := do
  let s ← s.saveCandidate
  let scalar ← readPlain s.inFlow (s.indent + 1) s.input
  return { s with input := scalar.rest, keyAllowed := scalar.beforeLine }.emit
    (.scalar (String.ofList scalar.text) .plain)

/-- Whether `c` has a meaning of its own at the start of a token. -/
def isIndicator (c : Char) : Bool := "-?:,[]\x7b\x7d#&*!|>'\"%@\x60".toList.contains c

/-- Whether a plain scalar can begin with `c`, given the character after
it. -/
def startsPlain (inFlow : Bool) (c : Char) (follower : Option Char) : Bool :=
  (!isBlank c && !isBreak c && !isIndicator c)
    || (c = '-' && !follower.any isBlank)
    || (!inFlow && (c = '?' || c = ':') && !endsWord follower)

def token (s : Layout) (c : Char) : Option Layout :=
  let follower := s.input.peekAt 1
  if s.input.column = 0 ∧ c = '%' then s.directive
  else if s.input.atMark '-' then s.documentMark .documentStart
  else if s.input.atMark '.' then s.documentMark .documentEnd
  else if c = '[' then s.openFlow .flowSequenceStart
  else if c = '\x7b' then s.openFlow .flowMappingStart
  else if c = ']' then s.closeFlow .flowSequenceEnd
  else if c = '\x7d' then s.closeFlow .flowMappingEnd
  else if c = ',' then s.flowEntry
  else if c = '-' && endsWord follower then s.blockEntry
  else if c = '?' && (s.inFlow || endsWord follower) then s.keyMark
  else if c = ':' && (s.inFlow || endsWord follower) then s.valueMark
  else if c = '*' then
    s.candidateLexeme fun i => (readAnchor i).map fun (name, i) => (.alias name, i)
  else if c = '&' then
    s.candidateLexeme fun i => (readAnchor i).map fun (name, i) => (.anchor name, i)
  else if c = '!' then
    s.candidateLexeme fun i => (readTag s.inFlow i).map fun (tag, i) => (.tag tag, i)
  else if c = '|' && !s.inFlow then s.blockScalar false
  else if c = '>' && !s.inFlow then s.blockScalar true
  else if c = '\'' then
    s.candidateLexeme fun i => (readQuoted true i).map fun (text, i) => (.scalar text .quoted, i)
  else if c = '"' then
    s.candidateLexeme fun i => (readQuoted false i).map fun (text, i) => (.scalar text .quoted, i)
  else if startsPlain s.inFlow c follower then s.plainScalar
  else none

/-- The end of the text, which closes everything. -/
def finish (s : Layout) : Option Layout := s.resetBlocks

/-- Reads tokens up to the end of the text. Every token takes a character, so
that the length of the text is fuel enough. -/
def run : (fuel : Nat) → Layout → Option Layout
  | 0, _ => none
  | fuel + 1, s => do
    -- A candidate that was left behind is given up before its blocks are closed.
    let s ← (skipSpace (s.input.rest.length + 1) s).dropStale
    let s := s.closeBlocks s.input.column
    match s.input.peek with
    | none => s.finish
    | some c => do
      let s ← s.token c
      run fuel s

end Layout

def tokensOf (text : String) : Option (List Token) :=
  let chars := text.toList
  if chars.all isAllowed then
    (Layout.run (chars.length + 1) (.start chars)).map fun s => s.tokens.toList
  else none

end TreeSchema.Yaml
