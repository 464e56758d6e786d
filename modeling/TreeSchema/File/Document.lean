import TreeSchema.File.Workspace
import TreeSchema.Tree.Load
/-
  Document files

  A document is read as YAML if the extension of its file says so, and as
  JSON otherwise.
-/

namespace TreeSchema.File

/-- Why a document file gives no document. -/
inductive DocumentFault where
  | unreadable (path : String) (fault : Fault)
  | malformed (path : String) (error : LoadError)
  deriving DecidableEq, Repr

def DocumentFault.message : DocumentFault → String
  | unreadable path fault => s!"cannot read '{path}': " ++ fault.message
  | malformed path error =>
    s!"cannot parse '{path}': " ++ error.message?.getD "invalid document: malformed YAML"

def namesYaml (path : String) : Bool :=
  extension? path = some "yaml" || extension? path = some "yml"

def Workspace.readDocument (w : Workspace) (path : String) :
    Except DocumentFault Document :=
  match w.readText path with
  | .error fault => .error (.unreadable path fault)
  | .ok text =>
    match if namesYaml path then Document.ofYaml text else Document.ofJson text with
    | .error error => .error (.malformed path error)
    | .ok document => .ok document

end TreeSchema.File
