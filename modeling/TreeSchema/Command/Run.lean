import TreeSchema.Command.Line
import TreeSchema.Command.Perform
import TreeSchema.Validation.Session
/-
  Running commands

  A request is carried out step by step. What there is to say is printed when
  it comes up, in the form that was asked for, and the command stops where it
  cannot go on.
-/

namespace TreeSchema.Command

open File
open Outcome (prettyLine compactLine violationReport)

namespace Work

/-- Reports an error, unless it is to be quiet. -/
def report (p : Presentation) (message : String) : Work Unit :=
  if p.quiet then pure ()
  else
    match p.format with
    | .text => printError s!"error: {message}\n"
    | .json => printError (compactLine (.object [("error", .string message)]))

/-- Reports an error and stops. -/
def fail {α : Type} (p : Presentation) (message : String) : Work α := do
  report p message
  stop 1

def settings (p : Presentation) : Option String → Work Config
  | none => return {}
  | some path => do
    match (← files).readText path with
    | .error fault => fail p (s!"could not read '{path}': " ++ fault.message)
    | .ok text =>
      match Config.ofText? text with
      | none => fail p s!"could not parse '{path}': TOML parse error"
      | some config => return config

/-- Shows why a schema is refused, and stops. -/
def refuse {α : Type} (p : Presentation) (error : Schema.Error) : Work α := do
  match p.format with
  | .json => printError (prettyLine error.report)
  | .text => if p.quiet then pure () else printError ("error: " ++ error.message ++ "\n")
  stop 1

/-- The grammar text of the schema in a file. -/
def compiled (p : Presentation) (path : String) (options : Schema.Options) : Work String := do
  match (← files).readText path with
  | .error fault => refuse p (.unreadable path fault.message)
  | .ok source =>
    match Schema.compile path source options with
    | .error error => refuse p error
    | .ok text => return text

/-- Compiles a schema, and prints the grammar or writes it to a file. -/
def compile (p : Presentation) (path : String) (options : Schema.Options) (out : Option String) :
    Work Unit := do
  let text ← compiled p path options
  match out with
  | some path =>
    match (← files).writeBytes path (Text.encode text) with
    | .error fault => fail p (s!"cannot write '{path}': " ++ fault.message)
    | .ok changed =>
      setFiles changed
      if p.quiet then pure ()
      else
        match p.format with
        | .text => print s!"wrote {path}\n"
        | .json => print (compactLine (.object [("written", .string path)]))
  | none =>
    match p.format with
    | .text => print text
    | .json => print (prettyLine (.object [("grammar", .string text)]))

/-- What is carried from one document to the next: the validator, how many
documents have been rejected, and the reports on all of them. -/
structure Checking where
  session : Validation.Session
  rejected : Nat := 0
  reports : List Json.Value := []

/-- What is carried on once the validator holds the violations of one more
document. Only the JSON form needs the reports. -/
def Checking.next (state : Checking) (p : Presentation) (path : String)
    (session : Validation.Session) : Checking :=
  let violations := session.held
  let rejected := if violations.isEmpty then state.rejected else state.rejected + 1
  match p.format with
  | .text => { state with session, rejected }
  | .json =>
    let report : Json.Value := .object
      [("document", .string path), ("errors", .array (violations.map violationReport)),
       ("valid", .bool violations.isEmpty)]
    { session, rejected, reports := state.reports ++ [report] }

/-- Says at once what the violations of a document are, in the text form. -/
def announce (p : Presentation) (path : String) (violations : List Violation) : Work Unit :=
  match p.format with
  | .json => pure ()
  | .text =>
    if p.quiet then pure ()
    else if violations.isEmpty then print (path ++ ": valid\n")
    else do
      let plural := if violations.length = 1 then "" else "s"
      printError s!"{path}: {violations.length} violation{plural}\n"
      violations.forM fun v => printError ("  - " ++ v.display ++ "\n")

def checkDocument (p : Presentation) (state : Checking) (path : String) : Work Checking := do
  match (← files).readDocument path with
  | .error fault => fail p fault.message
  | .ok document =>
    let session := state.session.judge document
    announce p path session.held
    return state.next p path session

/-- Says in the JSON form what has come of all documents, and stops if one
has been rejected. -/
def conclude (p : Presentation) (state : Checking) : Work Unit := do
  match p.format with
  | .text => pure ()
  | .json =>
    print (prettyLine
      (.object [("documents", .array state.reports), ("valid", .bool (state.rejected == 0))]))
  if 0 < state.rejected then stop 1

/-- Judges documents by a schema, in order. -/
def check (p : Presentation) (path : String) (options : Schema.Options)
    (documents : List String) : Work Unit := do
  let text ← compiled p path options
  match Validation.Validator.ofText text with
  | .error error => fail p ("internal error: " ++ error.message)
  | .ok v =>
    let state ← documents.foldlM (checkDocument p) { session := .start v }
    conclude p state

/-- Hands the grammar of a schema to a program. -/
def build (p : Presentation) (e : Environment) (path : String) (options : Schema.Options)
    (program : Option String) (args : List String) : Work Unit := do
  match program with
  | none => fail p "no grammar compiler given (use --program or [backend] program in --config)"
  | some program =>
    let text ← compiled p path options
    let invocation : Program.Invocation := { program, args }
    let (result, changed) := invocation.compile e.host e.stagedPath text (← files)
    setFiles changed
    match result with
    | .ok artifact =>
      if p.quiet then pure ()
      else
        match p.format with
        | .text => print artifact.output
        | .json =>
          print (prettyLine (.object
            [("exit_code", .number (.integer artifact.exitCode)),
             ("program", .string artifact.program), ("stdout", .string artifact.output)]))
    | .error failure =>
      report p failure.message
      match failure with
      | .failed _ (some code) _ => stop code
      | _ => stop 1

def test (directory : String) : Work Unit := do
  let w ← files
  if w.hasEntry directory then
    let cases := Conformance.runSuite w directory
    print (Conformance.reportText cases)
    if 0 < Conformance.failures cases then stop 1
  else
    printError s!"error: conformance suite directory not found: {directory}\n"
    stop 1

end Work

def Request.work (r : Request) (e : Environment) : Work Unit := do
  let config ← Work.settings r.presentation r.config
  match r.action with
  | .compile schema out => Work.compile r.presentation schema.path (config.options schema) out
  | .check schema documents =>
    Work.check r.presentation schema.path (config.options schema) documents
  | .build schema program args =>
    Work.build r.presentation e schema.path (config.options schema) (program.or config.program)
      (if args.isEmpty then config.args else args)
  | .test directory => Work.test directory

/-- What a run of the command leaves behind. -/
structure Response where
  exitCode : Nat
  output : String
  errors : String
  files : Workspace

/-- The response of a command that stops with an exit code, or goes through. -/
def Response.ofResult : EStateM.Result Nat Console Unit → Response
  | .ok _ c => { exitCode := 0, output := c.output, errors := c.errors, files := c.files }
  | .error code c => { exitCode := code, output := c.output, errors := c.errors, files := c.files }

def Request.run (r : Request) (e : Environment) (w : Workspace) : Response :=
  .ofResult ((r.work e).run { files := w })

def versionLine : String := "hashgram 0.1.0\n"

/-- Carries out a command line; a line that asks for the version only prints
it. -/
def runLine (e : Environment) (w : Workspace) (args : List String) : Except Interrupt Response :=
  match Request.ofArgs args with
  | .ok request => .ok (request.run e w)
  | .error .version => .ok { exitCode := 0, output := versionLine, errors := "", files := w }
  | .error interrupt => .error interrupt

end TreeSchema.Command
