import TreeSchema.Conformance.Diff
import TreeSchema.Conformance.Report
import TreeSchema.File.Document
import TreeSchema.Json.Printer
import TreeSchema.Schema.Compile
import TreeSchema.Schema.Report
import TreeSchema.Text.Escaped
import TreeSchema.Validation.Validator
/-
  Conformance suites

  A directory of schemas with what is expected of them. In `positive`, a
  schema compiles to the text beside it; in `negative`, it is refused with
  the error beside it; in `documents`, it judges the documents in the
  directory of its own name, each with the paths that are to be rejected.
-/

namespace TreeSchema.Conformance

open File

/-- Why a schema of a suite gives no grammar. -/
inductive SchemaFailure where
  | unreadable (path : String) (fault : Fault)
  | refused (error : Schema.Error)
  deriving DecidableEq, Repr

def unreadableText (path : String) (fault : Fault) : String :=
  s!"cannot read {path}: " ++ fault.message

def SchemaFailure.message : SchemaFailure → String
  | unreadable path fault => unreadableText path fault
  | refused error => error.message

/-- The names of the files of a directory that have one of some
extensions. -/
def namesWith (w : Workspace) (directory : String) (extensions : List String) : List String :=
  (w.fileNames directory).filter fun name =>
    (splitExtension name).2.any (extensions.contains ·)

def schemaNames (w : Workspace) (directory : String) : List String :=
  namesWith w directory ["schema"]

/-- Compiles a schema of a directory under its bare file name. -/
def compileSchema (w : Workspace) (directory name : String) : Except SchemaFailure String :=
  match w.readText (join directory name) with
  | .error fault => .error (.unreadable (join directory name) fault)
  | .ok source =>
    match Schema.compile name source {} with
    | .error error => .error (.refused error)
    | .ok text => .ok text

def readJson (w : Workspace) (path : String) : Except String Json.Value :=
  match w.readText path with
  | .error fault => .error (unreadableText path fault)
  | .ok text =>
    match Json.read text with
    | .error error => .error (s!"invalid JSON in {path}: " ++ error.message)
    | .ok value => .ok value

/-- Why a schema does not compile to the text expected of it. -/
def positiveFailure (w : Workspace) (directory name : String) : Option String :=
  let expectedPath := join directory (stem name ++ ".expected.grammar")
  match w.readText expectedPath with
  | .error fault => some (unreadableText expectedPath fault)
  | .ok expected =>
    match compileSchema w directory name with
    | .error failure => some ("unexpected compile error: " ++ failure.message)
    | .ok got => if got = expected then none else some (difference expected got).message

/-- Why a schema is not refused with the error expected of it. -/
def negativeFailure (w : Workspace) (directory name : String) : Option String :=
  match readJson w (join directory (stem name ++ ".expected-error.json")) with
  | .error message => some message
  | .ok expected =>
    match compileSchema w directory name with
    -- A schema that cannot be read is not one that is refused.
    | .error (.unreadable path fault) => some (unreadableText path fault)
    | .ok _ => some "expected a compile error but compilation succeeded"
    | .error (.refused error) =>
      let got := error.report
      if got.same expected then none
      else some ("error mismatch:\n  expected: " ++ expected.compact
        ++ "\n  got:      " ++ got.compact)

def stringOf? : Json.Value → Option String
  | .string s => some s
  | _ => none

def pathsOf (value : Json.Value) : Except String (List String) :=
  let paths := match value with
    | .array items => items.mapM stringOf?
    | _ => none
  match paths with
  | some paths => .ok paths
  | none => .error ("expected an array of paths, got " ++ value.compact)

/-- Why a document is not judged as expected. -/
def documentFailure (w : Workspace) (v : Validation.Validator) (directory name : String) :
    Option String :=
  match readJson w (join directory (stem name ++ ".expected.json")) >>= pathsOf with
  | .error message => some message
  | .ok expected =>
    match w.readDocument (join directory name) with
    | .error fault => some fault.message
    | .ok document =>
      let violations := (v.violations? document.node).getD []
      let got := violations.map Violation.path
      if got = expected then none
      else some ("violation paths differ\n  expected: " ++ Text.escapedList expected
        ++ "\n  got:      " ++ Text.escapedList got ++ "\n"
        ++ "\n".intercalate (violations.map Violation.display))

def validatorOf (w : Workspace) (directory name : String) : Except String Validation.Validator :=
  match compileSchema w directory name with
  | .error failure => .error failure.message
  | .ok text =>
    match Validation.Validator.ofText text with
    | .error error => .error error.message
    | .ok v => .ok v

/-- The cases of a schema that judges documents. -/
def documentCases (w : Workspace) (directory name : String) : List Case :=
  let title := "documents/" ++ stem name
  match validatorOf w directory name with
  | .error message => [{ name := title, failure := some message }]
  | .ok v =>
    let inner := join directory (stem name)
    let names := (namesWith w inner ["json", "yaml", "yml"]).filter fun document =>
      !document.endsWith ".expected.json"
    names.map fun document =>
      { name := title ++ "/" ++ document, failure := documentFailure w v inner document }

def runSuite (w : Workspace) (directory : String) : List Case :=
  let positive := join directory "positive"
  let negative := join directory "negative"
  let documents := join directory "documents"
  (schemaNames w positive).map (fun name =>
      { name := "positive/" ++ stem name, failure := positiveFailure w positive name })
    ++ (schemaNames w negative).map (fun name =>
      { name := "negative/" ++ stem name, failure := negativeFailure w negative name })
    ++ (schemaNames w documents).flatMap (documentCases w documents)

end TreeSchema.Conformance
