import TreeSchema.Command.Console
import TreeSchema.Command.Outcome
/-
  What requests come to

  An action is carried out on a workspace. It comes to an outcome and the
  files left behind, whatever way the outcome is to be shown.
-/

namespace TreeSchema.Command

open File

def compileFile (w : Workspace) (path : String) (options : Schema.Options) :
    Except Outcome String :=
  let compiled : Except Schema.Error String := match w.readText path with
    | .error fault => .error (.unreadable path fault.message)
    | .ok source => Schema.compile path source options
  match compiled with
  | .error error => .error (.schemaRefused error)
  | .ok text => .ok text

/-- Judges documents in order, up to one that cannot be loaded. -/
def judgeAll (w : Workspace) (v : Validation.Validator) :
    List String → List Judgement × Option DocumentFault
  | [] => ([], none)
  | path :: rest =>
    match w.readDocument path with
    | .error fault => ([], some fault)
    | .ok document =>
      let (judgements, stopped) := judgeAll w v rest
      ({ path, violations := (v.violations? document.node).getD [] } :: judgements, stopped)

/-- Prints a grammar, or writes it to a file. -/
def deliver (w : Workspace) (text : String) : Option String → Outcome × Workspace
  | none => (.grammarShown text, w)
  | some path =>
    match w.writeBytes path (Text.encode text) with
    | .error fault => (.notWritten path fault, w)
    | .ok changed => (.grammarWritten path, changed)

/-- Judges documents by a grammar text. -/
def check (w : Workspace) (text : String) (documents : List String) : Outcome :=
  match Validation.Validator.ofText text with
  | .error error => .grammarRefused error
  | .ok v =>
    let (judgements, stopped) := judgeAll w v documents
    .checked judgements stopped

/-- Hands a grammar text to a program. -/
def build (e : Environment) (w : Workspace) (text : String) (i : Program.Invocation) :
    Outcome × Workspace :=
  let (result, files) := i.compile e.host e.stagedPath text w
  match result with
  | .ok artifact => (.built artifact, files)
  | .error failure => (.notBuilt failure, files)

def perform (e : Environment) (w : Workspace) (config : Config) : Action → Outcome × Workspace
  | .compile schema out =>
    match compileFile w schema.path (config.options schema) with
    | .error outcome => (outcome, w)
    | .ok text => deliver w text out
  | .check schema documents =>
    match compileFile w schema.path (config.options schema) with
    | .error outcome => (outcome, w)
    | .ok text => (check w text documents, w)
  | .build schema program args =>
    match program.or config.program with
    | none => (.compilerMissing, w)
    | some program =>
      match compileFile w schema.path (config.options schema) with
      | .error outcome => (outcome, w)
      | .ok text => build e w text { program, args := if args.isEmpty then config.args else args }
  | .test directory =>
    if w.hasEntry directory then (.suiteRun (Conformance.runSuite w directory), w)
    else (.suiteMissing directory, w)

def readConfig (w : Workspace) : Option String → Except Outcome Config
  | none => .ok {}
  | some path =>
    match w.readText path with
    | .error fault => .error (.configUnreadable path fault)
    | .ok text =>
      match Config.ofText? text with
      | none => .error (.configMalformed path)
      | some config => .ok config

def outcomeOf (e : Environment) (w : Workspace) (config : Option String) (action : Action) :
    Outcome × Workspace :=
  match readConfig w config with
  | .error outcome => (outcome, w)
  | .ok config => perform e w config action

end TreeSchema.Command
