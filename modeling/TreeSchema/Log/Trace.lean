import TreeSchema.Log.Event
import TreeSchema.Program.GrammarCompiler
import TreeSchema.Schema.Library
import TreeSchema.Validation.Validator
/-
  Traces

  The events of each piece of work, in order, as a function of what the work
  is done on. Work that fails has the events of what was done before.
-/

namespace TreeSchema.Log

open Schema

/-- The members of an array that are listed again, up to the first item that
is no plain reference. -/
def collapsedMembers : (known : List MemberSpec) → List Item → List String
  | known, .reference kind name :: rest =>
    let member : MemberSpec := { kind, name, key := none }
    if member ∈ known then name :: collapsedMembers known rest
    else collapsedMembers (known ++ [member]) rest
  | _, _ => []

/-- The events of turning a declaration of `file` into an entity. -/
def ofDeclaration (file : String) (d : Declaration) : List Event :=
  match d.kind with
  | .scalar =>
    match literalsOf d.name [] d.items with
    | .ok (_ :: _) => if Item.text ∈ d.items then [.literalsIgnored file d.line d.name] else []
    | _ => []
  | .array => (collapsedMembers [] d.items).map (.memberCollapsed file d.line d.name)
  | .mapping => []

/-- The events of assembling declarations, up to the first that is not
legal. -/
def ofAssembly (file : String) : List Declaration → List Event
  | [] => []
  | d :: rest => ofDeclaration file d ++ match d.entity file with
    | .ok _ => ofAssembly file rest
    | .error _ => []

/-- The events of closing a table. -/
def ofResolution (file : String) (t : SymbolTable) (root : Option String) : List Event :=
  match t.resolve file root with
  | .error _ => []
  | .ok resolved =>
    (resolved.table.entities.drop t.size).map (fun e => .anonymousAdded e.kind e.name)
      ++ [.referencesResolved t.size resolved.anonymous
            (((resolved.table.get? resolved.root).map Entity.displayName).getD "")]

def ofGrammar (g : Grammar) : List Event := [.grammarEmitted g.rules.length g.start]

/-- The events of indexing entities, closing the table and emitting the
grammar. -/
def ofEntities (file : String) (entities : List Entity) (options : Options) : List Event :=
  match SymbolTable.ofEntities file entities with
  | .error _ => []
  | .ok table =>
    .tableBuilt table.size :: ofResolution file table options.root
      ++ match table.resolve file options.root with
        | .error _ => []
        | .ok resolved => ofGrammar (resolved.grammar options.name)

def ofDeclarations (file : String) (declarations : List Declaration) (options : Options) :
    List Event :=
  ofAssembly file declarations ++ match assemble file declarations with
    | .error _ => []
    | .ok entities => ofEntities file entities options

def ofCompile (file source : String) (options : Options) : List Event :=
  match Declaration.readAll file source with
  | .error _ => []
  | .ok declarations => ofDeclarations file declarations options

def ofSource (file source : String) (options : Options) : List Event :=
  .compiling file source.utf8ByteSize :: ofCompile file source options

def ofLibrary (library : Library) (path : List UInt8) (options : Options) : List Event :=
  match library.read path with
  | .error _ => []
  | .ok source => ofSource (Text.decodeLossy path) source options

def ofValidator (g : Grammar) : List Event :=
  match Validation.Validator.ofGrammar g with
  | .error _ => []
  | .ok v => [.validatorBuilt v.name v.rules.length]

/-- The events of handing a grammar text in the file at `path` to a program,
which came to `result`. -/
def ofInvocation (i : Program.Invocation) (path grammar : String)
    (result : Except Program.Failure Program.Artifact) : List Event :=
  let invoking := Event.invoking i.program (i.arguments path grammar)
  match result with
  | .ok artifact => [invoking, .finished artifact.program]
  | .error (.notStaged ..) => []
  | .error _ => [invoking]

end TreeSchema.Log
