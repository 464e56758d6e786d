import TreeSchema.Command.Request
/-
  The command line

  Arguments are read one after another. Options may stand before and after
  the name of the command; those that belong to a command only after it. An
  option is given once, except that each side of the command's name may give
  those that both know, where the later one counts. A value follows its
  option or is attached to it. A value that follows its option is looked at
  when the next argument after it is read, and the last one before the name
  of a command when all else is, so that a request for help may come first.
-/

namespace TreeSchema.Command

inductive OptionName where
  | output
  | quiet
  | verbose
  | config
  | name
  | root
  | out
  | program
  | arg
  | help
  | version
  deriving DecidableEq, Repr

namespace OptionName

def all : List OptionName :=
  [output, quiet, verbose, config, name, root, out, program, arg, help, version]

/-- The name after two hyphens. -/
def long : OptionName → String
  | output => "output"
  | quiet => "quiet"
  | verbose => "verbose"
  | config => "config"
  | name => "name"
  | root => "root"
  | out => "out"
  | program => "program"
  | arg => "arg"
  | help => "help"
  | version => "version"

/-- The letter after one hyphen. -/
def short? : OptionName → Option Char
  | verbose => some 'v'
  | out => some 'o'
  | help => some 'h'
  | version => some 'V'
  | _ => none

/-- Whether a value belongs to the option. -/
def takesValue : OptionName → Bool
  | quiet | verbose | help | version => false
  | _ => true

/-- Whether the value of the option is a path, which is never empty. -/
def takesPath : OptionName → Bool
  | config | out => true
  | _ => false

/-- Whether the value may begin with a hyphen, and the option be repeated. -/
def isFree : OptionName → Bool
  | arg => true
  | _ => false

end OptionName

inductive CommandName where
  | compile
  | check
  | build
  | test
  /-- Explains the other commands. What follows it is the name of one. -/
  | help
  deriving DecidableEq, Repr

namespace CommandName

def ofText? : String → Option CommandName
  | "compile" => some compile
  | "check" => some check
  | "build" => some build
  | "test" => some test
  | "help" => some help
  | _ => none

/-- The options that stand before the name of a command. -/
def outerOptions : List OptionName := [.output, .quiet, .verbose, .config, .help, .version]

/-- The options that stand after the name of a command. -/
def options : CommandName → List OptionName
  | compile => [.output, .quiet, .verbose, .config, .help, .name, .root, .out]
  | check => [.output, .quiet, .verbose, .config, .help, .name, .root]
  | build => [.output, .quiet, .verbose, .config, .help, .name, .root, .program, .arg]
  | test => [.output, .quiet, .verbose, .config, .help]
  | help => []

/-- The most operands a command takes, if there is a limit. -/
def operandLimit : CommandName → Option Nat
  | compile | build | test | help => some 1
  | check => none

end CommandName

/-- Why a command line cannot be understood. -/
inductive UsageError where
  | unknownOption (text : String)
  | valueNotTaken (option : OptionName)
  | valueMissing (option : OptionName)
  | repeated (option : OptionName)
  | valueRefused (option : OptionName) (value : String)
  | unknownCommand (text : String)
  | commandMissing
  | operandNotTaken (text : String)
  | operandEmpty
  | operandMissing (what : String)
  deriving DecidableEq, Repr

def UsageError.message : UsageError → String
  | unknownOption text => s!"unexpected argument '{text}'"
  | valueNotTaken option => "option '--" ++ option.long ++ "' takes no value"
  | valueMissing option => "option '--" ++ option.long ++ "' needs a value"
  | repeated option => "option '--" ++ option.long ++ "' is given twice"
  | valueRefused option value => s!"invalid value '{value}' for '--" ++ option.long ++ "'"
  | unknownCommand text => s!"unknown command '{text}'"
  | commandMissing => "a command is needed"
  | operandNotTaken text => s!"unexpected argument '{text}'"
  | operandEmpty => "a path is empty"
  | operandMissing what => s!"{what} is needed"

/-- Why a command line is no request. -/
inductive Interrupt where
  | usage (error : UsageError)
  | help
  | version
  deriving DecidableEq, Repr

/-- An option with its value; options that take none have an empty one. -/
structure Occurrence where
  option : OptionName
  value : String
  deriving DecidableEq, Repr

/-- A command line as far as it is read. -/
structure Reading where
  command : Option CommandName := none
  /-- The options before the name of the command. -/
  outer : List Occurrence := []
  /-- The options after it. -/
  inner : List Occurrence := []
  operands : List String := []
  /-- An option that waits for its value. -/
  pending : Option OptionName := none
  /-- An option whose value has been read and not looked at. -/
  waiting : Option Occurrence := none
  /-- The option that was waiting when the name of the command came. -/
  deferred : Option Occurrence := none
  /-- Whether a double hyphen has ended the options. -/
  operandsOnly : Bool := false

namespace Reading

/-- The options known at this point. -/
def known (r : Reading) : List OptionName :=
  r.command.elim CommandName.outerOptions CommandName.options

/-- The options on this side of the command's name. -/
def side (r : Reading) : List Occurrence := if r.command.isSome then r.inner else r.outer

def acceptsValue (option : OptionName) (value : String) : Bool :=
  if option = .output then value = "text" || value = "json"
  else !(option.takesPath && value = "")

/-- The options of one side with one more. -/
def extend (side : List Occurrence) (o : Occurrence) : Except Interrupt (List Occurrence) :=
  if !o.option.isFree && side.any (·.option == o.option) then .error (.usage (.repeated o.option))
  else if !acceptsValue o.option o.value then .error (.usage (.valueRefused o.option o.value))
  else .ok (side ++ [o])

def add (r : Reading) (o : Occurrence) : Except Interrupt Reading := do
  let side ← extend r.side o
  return if r.command.isSome then { r with inner := side } else { r with outer := side }

/-- Looks at the option that waits. -/
def settle (r : Reading) : Except Interrupt Reading :=
  match r.waiting with
  | none => .ok r
  | some o => { r with waiting := none }.add o

/-- Looks at the option that was waiting when the name of the command came. -/
def settleDeferred (r : Reading) : Except Interrupt Reading :=
  match r.deferred with
  | none => .ok r
  | some o => do
    let outer ← extend r.outer o
    return { r with outer, deferred := none }

/-- An option whose value may be attached to it. -/
def addOption (r : Reading) (option : OptionName) (attached : Option String) :
    Except Interrupt Reading := do
  let r ← r.settle
  match option, attached with
  | .help, none => .error .help
  | .version, none => .error .version
  | _, some value =>
    if option.takesValue then r.add (.mk option value) else .error (.usage (.valueNotTaken option))
  | _, none =>
    if option.takesValue then return { r with pending := some option }
    else r.add (.mk option "")

/-- An option by its name after two hyphens, which an equals sign and a value
may follow. -/
def addLong (r : Reading) (body : List Char) : Except Interrupt Reading :=
  let name := String.ofList (body.takeWhile (· != '='))
  let attached := match body.dropWhile (· != '=') with
    | [] => none
    | _ :: value => some (String.ofList value)
  match r.known.find? fun option => option.long == name with
  | some option => r.addOption option attached
  | none => .error (.usage (.unknownOption ("--" ++ String.ofList body)))

/-- Options by their letters after one hyphen; what follows the letter of an
option with a value is its value. -/
def addShort (r : Reading) : List Char → Except Interrupt Reading
  | [] => .ok r
  | c :: rest =>
    match r.known.find? fun option => option.short? == some c with
    | none => .error (.usage (.unknownOption (String.ofList ['-', c])))
    | some option =>
      if option.takesValue then
        let attached := match rest with
          | [] => none
          | '=' :: value => some (String.ofList value)
          | value => some (String.ofList value)
        r.addOption option attached
      else do
        let next ← r.addOption option none
        next.addShort rest

/-- The name of the command, or an operand of it. -/
def addOperand (r : Reading) (text : String) : Except Interrupt Reading :=
  match r.command with
  | none =>
    if r.operandsOnly then .error (.usage (.operandNotTaken text))
    else
      match CommandName.ofText? text with
      | some command =>
        .ok { r with command := some command, waiting := none, deferred := r.waiting }
      | none => .error (.usage (.unknownCommand text))
  | some command => do
    let r ← r.settle
    if command.operandLimit.any (· ≤ r.operands.length) then .error (.usage (.operandNotTaken text))
    else if text = "" then .error (.usage .operandEmpty)
    else return { r with operands := r.operands ++ [text] }

/-- Whether an argument is read as options: a single hyphen is not. -/
def looksLikeOption (text : String) : Bool :=
  match text.toList with
  | '-' :: _ :: _ => true
  | _ => false

def step (r : Reading) (text : String) : Except Interrupt Reading :=
  match r.pending with
  | some option =>
    -- Only a free option takes what looks like another one.
    if option.isFree || !looksLikeOption text then
      .ok { r with pending := none, waiting := some (.mk option text) }
    else .error (.usage (.valueMissing option))
  | none =>
    if r.operandsOnly || r.command = some .help then r.addOperand text
    else
      match text.toList with
      | ['-', '-'] => .ok { r with operandsOnly := true }
      | '-' :: '-' :: body => r.addLong body
      | '-' :: c :: rest => r.addShort (c :: rest)
      | _ => r.addOperand text

/-- The value of an option; the later side counts. -/
def value? (r : Reading) (option : OptionName) : Option String :=
  let given (side : List Occurrence) := side.find? (·.option == option)
  ((given r.inner).or (given r.outer)).map Occurrence.value

def has (r : Reading) (option : OptionName) : Bool := (r.value? option).isSome

def values (r : Reading) (option : OptionName) : List String :=
  (r.inner.filter (·.option == option)).map Occurrence.value

def schema (r : Reading) (path : String) : SchemaChoice :=
  { path, name := r.value? .name, root := r.value? .root }

/-- What a command with operands is to do. -/
def action (r : Reading) : Except Interrupt Action :=
  match r.command, r.operands with
  | none, _ => .error (.usage .commandMissing)
  | some .compile, path :: _ => .ok (.compile (r.schema path) (r.value? .out))
  | some .check, path :: document :: documents =>
    .ok (.check (r.schema path) (document :: documents))
  | some .build, path :: _ => .ok (.build (r.schema path) (r.value? .program) (r.values .arg))
  | some .test, operands => .ok (.test (operands.headD "conformance"))
  | some .help, operands =>
    match operands.find? fun text => (CommandName.ofText? text).isNone with
    | some text => .error (.usage (.unknownCommand text))
    | none => .error .help
  | some .check, [_] => .error (.usage (.operandMissing "a document"))
  | some _, [] => .error (.usage (.operandMissing "a schema"))

def finish (r : Reading) : Except Interrupt Request :=
  match r.pending with
  | some option => .error (.usage (.valueMissing option))
  | none => do
    let r ← r.settle
    let action ← r.action
    let r ← r.settleDeferred
    let format := if r.value? .output = some "json" then Format.json else .text
    return { presentation := { format, quiet := r.has .quiet }, config := r.value? .config, action }

end Reading

def Request.ofArgs (args : List String) : Except Interrupt Request := do
  let reading ← args.foldlM Reading.step {}
  reading.finish

end TreeSchema.Command
