import TreeSchema.Shell.Token
/-
  Commands of a script

  A script is a run of command lines, and a line is one command, put together
  from simple commands by pipes, conditions and groups. A script that breaks
  off in the middle still has the lines before that, which are carried out.
-/

namespace TreeSchema.Shell

/-- A redirection of a stream to the target a word names. -/
structure Redirect where
  stream : Nat
  mode : RedirectMode
  target : Word
  deriving Repr

inductive Command where
  /-- Assignments, then a program or built-in command with arguments. -/
  | simple (line : Nat) (assignments : List (String × Word)) (words : List Word)
      (redirects : List Redirect)
  /-- The second reads what the first prints. -/
  | piped (first second : Command)
  | negated (command : Command)
  /-- The second only if the first succeeds. -/
  | and (first second : Command)
  /-- The second only if the first fails. -/
  | or (first second : Command)
  | sequence (first second : Command)
  /-- Carried out beside the rest; it always counts as a success. -/
  | background (command : Command)
  | group (body : Command) (redirects : List Redirect)
  /-- A group that cannot change the shell around it. -/
  | subshell (body : Command) (redirects : List Redirect)
  | conditional (test body otherwise : Command) (redirects : List Redirect)
  /-- Does nothing and succeeds. -/
  | nothing
  deriving Repr, Inhabited

/-- Why a line is no command. -/
inductive Fault where
  | unclosedQuote (line : Nat)
  | unexpected (line : Nat) (found : String) (expected : Option String)
  deriving DecidableEq, Repr

def Fault.line : Fault → Nat
  | unclosedQuote line => line
  | unexpected line .. => line

def Fault.message : Fault → String
  | unclosedQuote _ => "Syntax error: Unterminated quoted string"
  | unexpected _ found none => s!"Syntax error: {found} unexpected"
  | unexpected _ found (some expected) =>
    s!"Syntax error: {found} unexpected (expecting \"{expected}\")"

/-- The words that have a meaning of their own at the head of a command. -/
def reserved : List String := ["if", "then", "elif", "else", "fi", "!", "\x7b", "\x7d"]

def reserved? : Token → Option String
  | .word w => (plainText? w).filter (reserved.contains ·)
  | _ => none

/-- The fault of finding what the remaining tokens begin with. -/
def unexpectedAt (expected : Option String) (line : Nat) : List PlacedToken → Fault
  | [] => .unexpected line "end of file" expected
  | t :: _ =>
    match t.token with
    | .unclosed => .unclosedQuote t.line
    | .operator o => .unexpected t.line o.text expected
    | .redirect .. => .unexpected t.line "redirection" expected
    | .word _ =>
      .unexpected t.line ((reserved? t.token).elim "word" fun text => s!"\"{text}\"") expected

def skipNewlines (tokens : List PlacedToken) : List PlacedToken :=
  tokens.dropWhile fun t => t.token == .operator .newline

def expectReserved (text : String) (line : Nat) (tokens : List PlacedToken) :
    Except Fault (List PlacedToken) :=
  match tokens with
  | t :: rest =>
    if reserved? t.token = some text then .ok rest
    else .error (unexpectedAt (some text) line tokens)
  | [] => .error (unexpectedAt (some text) line tokens)

def readRedirects : List PlacedToken → List Redirect × List PlacedToken
  | ⟨.redirect stream mode, _⟩ :: ⟨.word target, _⟩ :: rest =>
    let (more, after) := readRedirects rest
    ({ stream, mode, target } :: more, after)
  | tokens => ([], tokens)

/-- The words and redirections of a simple command, and the rest. -/
def readSimple : List PlacedToken → List Word × List Redirect × List PlacedToken
  | ⟨.word w, _⟩ :: rest =>
    let (words, redirects, after) := readSimple rest
    (w :: words, redirects, after)
  | ⟨.redirect stream mode, _⟩ :: ⟨.word target, _⟩ :: rest =>
    let (words, redirects, after) := readSimple rest
    (words, { stream, mode, target } :: redirects, after)
  | tokens => ([], [], tokens)

def splitAssignments : List Word → List (String × Word) × List Word
  | [] => ([], [])
  | w :: rest =>
    match assignment? w with
    | some a =>
      let (more, words) := splitAssignments rest
      (a :: more, words)
    | none => ([], w :: rest)

mutual

/-- A list of commands on one or more lines, up to a token that cannot go on
with it. With `oneLine`, the end of a line is such a token. -/
def readList : (allowance : Nat) → (oneLine : Bool) → (line : Nat) → List PlacedToken →
    Except Fault (Command × List PlacedToken)
  | 0, _, line, tokens => .error (unexpectedAt none line tokens)
  | allowance + 1, oneLine, line, tokens => do
    let (first, rest) ← readAndOr allowance line tokens
    match rest with
    | ⟨.operator .semicolon, l⟩ :: after => readMore allowance oneLine l first after
    | ⟨.operator .background, l⟩ :: after => readMore allowance oneLine l (.background first) after
    | ⟨.operator .newline, l⟩ :: after =>
      if oneLine then .ok (first, rest) else readMore allowance oneLine l first after
    | _ => .ok (first, rest)

/-- What follows a command and its separator. -/
def readMore : (allowance : Nat) → (oneLine : Bool) → (line : Nat) → (first : Command) →
    List PlacedToken → Except Fault (Command × List PlacedToken)
  | 0, _, _, first, tokens => .ok (first, tokens)
  | allowance + 1, oneLine, line, first, tokens =>
    let following := if oneLine then tokens else skipNewlines tokens
    match following with
    | [] => .ok (first, [])
    | ⟨.operator .newline, _⟩ :: _ => .ok (first, following)
    | ⟨.operator .closeGroup, _⟩ :: _ => .ok (first, following)
    | t :: _ =>
      match reserved? t.token with
      | some "then" | some "elif" | some "else" | some "fi" | some "\x7d" => .ok (first, following)
      | _ => do
        let (second, rest) ← readList allowance oneLine line following
        return (.sequence first second, rest)

/-- Pipelines joined by conditions. -/
def readAndOr : (allowance : Nat) → (line : Nat) → List PlacedToken →
    Except Fault (Command × List PlacedToken)
  | 0, line, tokens => .error (unexpectedAt none line tokens)
  | allowance + 1, line, tokens => do
    let (first, rest) ← readPipeline allowance line tokens
    readConditions allowance line first rest

/-- The conditions after a pipeline, which apply from left to right. -/
def readConditions : (allowance : Nat) → (line : Nat) → (first : Command) → List PlacedToken →
    Except Fault (Command × List PlacedToken)
  | 0, _, first, tokens => .ok (first, tokens)
  | allowance + 1, _, first, ⟨.operator .and, l⟩ :: rest => do
    let (second, after) ← readPipeline allowance l (skipNewlines rest)
    readConditions allowance l (.and first second) after
  | allowance + 1, _, first, ⟨.operator .or, l⟩ :: rest => do
    let (second, after) ← readPipeline allowance l (skipNewlines rest)
    readConditions allowance l (.or first second) after
  | _ + 1, _, first, tokens => .ok (first, tokens)

/-- Commands joined by pipes. -/
def readPipeline : (allowance : Nat) → (line : Nat) → List PlacedToken →
    Except Fault (Command × List PlacedToken)
  | 0, line, tokens => .error (unexpectedAt none line tokens)
  | allowance + 1, line, tokens =>
    match tokens with
    | t :: rest => do
      if reserved? t.token = some "!" then
        let (command, after) ← readPipeline allowance t.line rest
        return (.negated command, after)
      else
        let (first, after) ← readCommand allowance t.line tokens
        match after with
        | ⟨.operator .pipe, l⟩ :: more =>
          let (second, last) ← readPipeline allowance l (skipNewlines more)
          return (.piped first second, last)
        | _ => return (first, after)
    | [] => .error (unexpectedAt none line tokens)

/-- A simple command, a group or a conditional. -/
def readCommand : (allowance : Nat) → (line : Nat) → List PlacedToken →
    Except Fault (Command × List PlacedToken)
  | 0, line, tokens => .error (unexpectedAt none line tokens)
  | allowance + 1, line, tokens =>
    match tokens with
    | ⟨.operator .openGroup, l⟩ :: rest => do
      let (body, after) ← readList allowance false l (skipNewlines rest)
      match after with
      | ⟨.operator .closeGroup, _⟩ :: more =>
        let (redirects, last) := readRedirects more
        return (.subshell body redirects, last)
      | _ => .error (unexpectedAt (some ")") l after)
    | t :: rest =>
      match reserved? t.token with
      | some "\x7b" => do
        let (body, after) ← readList allowance false t.line (skipNewlines rest)
        let more ← expectReserved "\x7d" t.line after
        let (redirects, last) := readRedirects more
        return (.group body redirects, last)
      | some "if" => readBranches allowance t.line rest
      | some _ => .error (unexpectedAt none line tokens)
      | none =>
        let (words, redirects, after) := readSimple tokens
        if words.isEmpty && redirects.isEmpty then .error (unexpectedAt none line tokens)
        else
          let (assignments, arguments) := splitAssignments words
          .ok (.simple t.line assignments arguments redirects, after)
    | [] => .error (unexpectedAt none line tokens)

/-- A condition, what to do if it holds, and the branches after it. -/
def readBranches : (allowance : Nat) → (line : Nat) → List PlacedToken →
    Except Fault (Command × List PlacedToken)
  | 0, line, tokens => .error (unexpectedAt none line tokens)
  | allowance + 1, line, tokens => do
    let (test, afterTest) ← readList allowance false line (skipNewlines tokens)
    let bodyTokens ← expectReserved "then" line afterTest
    let (body, afterBody) ← readList allowance false line (skipNewlines bodyTokens)
    match afterBody with
    | t :: rest =>
      match reserved? t.token with
      | some "elif" =>
        let (otherwise, last) ← readBranches allowance t.line rest
        return (.conditional test body otherwise [], last)
      | some "else" =>
        let (otherwise, after) ← readList allowance false t.line (skipNewlines rest)
        let more ← expectReserved "fi" t.line after
        let (redirects, last) := readRedirects more
        return (.conditional test body otherwise redirects, last)
      | some "fi" =>
        let (redirects, last) := readRedirects rest
        return (.conditional test body .nothing redirects, last)
      | _ => .error (unexpectedAt (some "fi") line afterBody)
    | [] => .error (unexpectedAt (some "fi") line afterBody)

end

/-- The lines of a script as commands, up to the first that is none. -/
def readLines : (allowance : Nat) → List PlacedToken → List Command × Option Fault
  | 0, _ => ([], none)
  | allowance + 1, tokens =>
    match skipNewlines tokens with
    | [] => ([], none)
    | t :: rest =>
      match readList (8 * (rest.length + 2)) true t.line (t :: rest) with
      | .error fault => ([], some fault)
      | .ok (command, after) =>
        if after.isEmpty || after.head?.any fun t => t.token == .operator .newline then
          let (commands, fault) := readLines allowance after
          (command :: commands, fault)
        else ([], some (unexpectedAt none t.line after))

/-- A script as commands, and why it breaks off if it does. -/
def readScript (script : List Char) : List Command × Option Fault :=
  let found := tokens script
  readLines (found.length + 1) found

end TreeSchema.Shell
