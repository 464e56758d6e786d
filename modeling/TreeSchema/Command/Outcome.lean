import TreeSchema.Command.Request
import TreeSchema.Conformance.Suite
import TreeSchema.Program.GrammarCompiler
/-
  Outcomes

  What a command comes to, apart from how it is shown. The exit code follows
  from the outcome alone; the presentation only decides what is printed.
-/

namespace TreeSchema.Command

open File

structure Judgement where
  path : String
  violations : List Violation
  deriving DecidableEq, Repr

/-- What a command comes to. -/
inductive Outcome where
  | configUnreadable (path : String) (fault : Fault)
  | configMalformed (path : String)
  | schemaRefused (error : Schema.Error)
  | grammarShown (text : String)
  | grammarWritten (path : String)
  | notWritten (path : String) (fault : Fault)
  /-- The grammar of a schema cannot be used. -/
  | grammarRefused (error : Grammar.Error)
  /-- Documents judged in order, up to one that cannot be loaded. -/
  | checked (judgements : List Judgement) (stopped : Option DocumentFault)
  | compilerMissing
  | built (artifact : Program.Artifact)
  | notBuilt (failure : Program.Failure)
  | suiteMissing (directory : String)
  | suiteRun (cases : List Conformance.Case)

namespace Outcome

def exitCode : Outcome → Nat
  | grammarShown _ | grammarWritten _ | built _ => 0
  | checked judgements stopped =>
    if stopped.isNone && judgements.all (·.violations.isEmpty) then 0 else 1
  | notBuilt (.failed _ (some code) _) => code
  | suiteRun cases => if Conformance.failures cases = 0 then 0 else 1
  | _ => 1

/-- A value spread over lines, with a line end. -/
def prettyLine (value : Json.Value) : String := value.pretty ++ "\n"

def compactLine (value : Json.Value) : String := value.compact ++ "\n"

/-- An error message, unless it is to be quiet. -/
def errorLine (p : Presentation) (message : String) : String :=
  if p.quiet then ""
  else
    match p.format with
    | .text => s!"error: {message}\n"
    | .json => compactLine (.object [("error", .string message)])

def violationReport (v : Violation) : Json.Value :=
  .object
    [("expected", .array (v.expected.map .string)), ("found", .string v.found),
     ("path", .string v.path), ("rule", .string v.rule)]

def judgementReport (j : Judgement) : Json.Value :=
  .object
    [("document", .string j.path), ("errors", .array (j.violations.map violationReport)),
     ("valid", .bool j.violations.isEmpty)]

def checkReport (judgements : List Judgement) : Json.Value :=
  .object
    [("documents", .array (judgements.map judgementReport)),
     ("valid", .bool (judgements.all (·.violations.isEmpty)))]

/-- The line for a document without violations. -/
def acceptedText (j : Judgement) : String :=
  if j.violations.isEmpty then j.path ++ ": valid\n" else ""

/-- The lines for a document with violations. -/
def rejectedText (j : Judgement) : String :=
  if j.violations.isEmpty then ""
  else
    let count := j.violations.length
    let plural := if count = 1 then "" else "s"
    s!"{j.path}: {count} violation{plural}\n"
      ++ "".intercalate (j.violations.map fun v => "  - " ++ v.display ++ "\n")

def output (p : Presentation) : Outcome → String
  | grammarShown text =>
    match p.format with
    | .text => text
    | .json => prettyLine (.object [("grammar", .string text)])
  | grammarWritten path =>
    if p.quiet then ""
    else
      match p.format with
      | .text => s!"wrote {path}\n"
      | .json => compactLine (.object [("written", .string path)])
  | checked judgements stopped =>
    match p.format with
    | .text => if p.quiet then "" else "".intercalate (judgements.map acceptedText)
    | .json => if stopped.isSome then "" else prettyLine (checkReport judgements)
  | built artifact =>
    if p.quiet then ""
    else
      match p.format with
      | .text => artifact.output
      | .json =>
        prettyLine (.object
          [("exit_code", .number (.integer artifact.exitCode)),
           ("program", .string artifact.program), ("stdout", .string artifact.output)])
  | suiteRun cases => Conformance.reportText cases
  | _ => ""

def errors (p : Presentation) : Outcome → String
  | configUnreadable path fault => errorLine p (s!"could not read '{path}': " ++ fault.message)
  | configMalformed path => errorLine p s!"could not parse '{path}': TOML parse error"
  | schemaRefused error =>
    match p.format with
    | .json => prettyLine error.report
    | .text => if p.quiet then "" else s!"error: " ++ error.message ++ "\n"
  | notWritten path fault => errorLine p (s!"cannot write '{path}': " ++ fault.message)
  | grammarRefused error => errorLine p ("internal error: " ++ error.message)
  | checked judgements stopped =>
    let rejected := match p.format with
      | .text => if p.quiet then "" else "".intercalate (judgements.map rejectedText)
      | .json => ""
    rejected ++ stopped.elim "" fun fault => errorLine p fault.message
  | compilerMissing =>
    errorLine p "no grammar compiler given (use --program or [backend] program in --config)"
  | notBuilt failure => errorLine p failure.message
  | suiteMissing directory => s!"error: conformance suite directory not found: {directory}\n"
  | _ => ""

end Outcome

end TreeSchema.Command
