import TreeSchema.Program.Tool
import TreeSchema.Shell.Command
/-
  The state of a shell

  What a script can see and change while it runs, how words are expanded in
  it, and where redirected streams lead.
-/

namespace TreeSchema.Shell

open File Program

structure State where
  name : String
  args : List String
  bindings : List (String × String) := []
  status : Nat := 0
  /-- Whether a command that fails ends the shell. -/
  strict : Bool := false
  input : List UInt8
  files : Workspace
  /-- How the shell has ended, if it has. -/
  ending : Option Ending := none

/-- A new state and what was written on the way to it. -/
abbrev Step := State × List Chunk

namespace State

/-- The number by which a shell knows its own process. -/
def processId : String := "4711"

def value (st : State) : Parameter → String
  | .argument 0 => st.name
  | .argument (n + 1) => st.args.getD n ""
  | .count => toString st.args.length
  | .all | .joined => " ".intercalate st.args
  | .status => toString st.status
  | .process => processId
  | .variable name => (st.bindings.lookup name).getD ""

def assign (st : State) (name text : String) : State :=
  { st with bindings := (name, text) :: st.bindings }

def exit (st : State) (code : Nat) : State := { st with ending := some (.exited (code % 256)) }

/-- A complaint about a line of the script. -/
def complain (st : State) (line : Nat) (message : String) : Chunk :=
  .err s!"{st.name}: {line}: {message}\n"

/-- The state after something that was run apart from it: only the files, the
rest of the input, the status and a deadly signal are seen. -/
def rejoin (st after : State) : State :=
  match after.ending with
  | some (.exited code) =>
    { st with files := after.files, input := after.input, status := code }
  | ending => { st with files := after.files, input := after.input, status := after.status, ending }

end State

/-- Prints what a script prints: its output, and the state after it. -/
abbrev Substitute := (script : List Char) → State → String × Step

def replaced (quoted : Bool) (text : String) : List Expanded :=
  if quoted then .present :: text.toList.map .solid else text.toList.map .soft

/-- The arguments, each a word of its own. -/
def separateWords : List String → List Expanded
  | [] => []
  | [last] => replaced true last
  | arg :: rest => replaced true arg ++ .gap :: separateWords rest

/-- A word with its parameters and commands replaced. -/
def expandWord (substitute : Substitute) : Word → State → List Expanded × Step
  | [], st => ([], st, [])
  | piece :: rest, st =>
    let (head, after, chunks) : List Expanded × Step := match piece with
      | .char _ c => ([.solid c], st, [])
      | .nothing => ([.present], st, [])
      | .parameter true .all _ => (separateWords st.args, st, [])
      | .parameter quoted p fallback =>
        let text := st.value p
        (replaced quoted (if text = "" then fallback else text), st, [])
      | .output quoted script =>
        let (text, after, chunks) := substitute script st
        (replaced quoted text, after, chunks)
    let (tail, last, more) := expandWord substitute rest after
    (head ++ tail, last, chunks ++ more)

/-- Words as the words they fall into. -/
def expandWords (substitute : Substitute) : List Word → State → List String × Step
  | [], st => ([], st, [])
  | word :: rest, st =>
    let (expanded, after, chunks) := expandWord substitute word st
    let (texts, last, more) := expandWords substitute rest after
    (fields none expanded ++ texts, last, chunks ++ more)

def expandText (substitute : Substitute) (word : Word) (st : State) : String × Step :=
  let (expanded, after, chunks) := expandWord substitute word st
  let text := expanded.filterMap fun e => match e with
    | .solid c | .soft c => some c
    | .gap => some ' '
    | .present => none
  (String.ofList text, after, chunks)

def assignAll (substitute : Substitute) : List (String × Word) → State → Step
  | [], st => (st, [])
  | (name, word) :: rest, st =>
    let (text, after, chunks) := expandText substitute word st
    let (last, more) := assignAll substitute rest (after.assign name text)
    (last, chunks ++ more)

/-- Where a stream leads. -/
inductive Target where
  | output
  | errors
  | nowhere
  | file (path : String)
  deriving DecidableEq

/-- Where the two written streams lead. -/
structure Streams where
  output : Target := .output
  errors : Target := .errors

namespace Streams

def get (s : Streams) (stream : String) : Target :=
  if stream = "1" then s.output else if stream = "2" then s.errors else .nowhere

def set (s : Streams) (stream : Nat) (target : Target) : Streams :=
  if stream = 1 then { s with output := target }
  else if stream = 2 then { s with errors := target }
  else s

/-- Writes chunks where their streams lead. -/
def route (s : Streams) : List Chunk → Workspace → List Chunk × Workspace
  | [], w => ([], w)
  | chunk :: rest, w =>
    match if chunk.toErrors then s.errors else s.output with
    | .output =>
      let (chunks, last) := s.route rest w
      ({ chunk with toErrors := false } :: chunks, last)
    | .errors =>
      let (chunks, last) := s.route rest w
      ({ chunk with toErrors := true } :: chunks, last)
    | .nowhere => s.route rest w
    | .file path =>
      let bytes := (w.readBytes path).toOption.getD [] ++ chunk.bytes
      s.route rest ((w.writeBytes path bytes).toOption.getD w)

end Streams

def redirectFault (creating : Bool) (path : String) (fault : File.Fault) : String :=
  let reason := match fault with
    | .isDirectory => "Is a directory"
    | _ => if creating then "Directory nonexistent" else "No such file"
  (if creating then "cannot create " else "cannot open ") ++ s!"{path}: {reason}"

/-- Carries out a redirection: the streams and the state after it, or why it
fails. -/
def redirect (mode : RedirectMode) (stream : Nat) (target : String) (streams : Streams)
    (st : State) :
    Except String (Streams × State) :=
  match mode with
  | .read =>
    match st.files.readBytes target with
    | .ok bytes => .ok (streams, { st with input := bytes })
    | .error fault => .error (redirectFault false target fault)
  | .duplicate => .ok (streams.set stream (streams.get target), st)
  | .write =>
    match st.files.writeBytes target [] with
    | .ok files => .ok (streams.set stream (.file target), { st with files })
    | .error fault => .error (redirectFault true target fault)
  | .append =>
    match st.files.writeBytes target ((st.files.readBytes target).toOption.getD []) with
    | .ok files => .ok (streams.set stream (.file target), { st with files })
    | .error fault => .error (redirectFault true target fault)

/-- Carries out redirections from left to right. -/
def redirectAll (substitute : Substitute) :
    List Redirect → Streams → State → Except String Streams × Step
  | [], streams, st => (.ok streams, st, [])
  | r :: rest, streams, st =>
    let (target, after, chunks) := expandText substitute r.target st
    match redirect r.mode r.stream target streams after with
    | .error message => (.error message, after, chunks)
    | .ok (changed, next) =>
      let (result, last, more) := redirectAll substitute rest changed next
      (result, last, chunks ++ more)

def redirected (substitute : Substitute) (line : Nat) (redirects : List Redirect)
    (body : State → Step)
    (st : State) : Step :=
  match redirectAll substitute redirects {} st with
  | (.error message, after, chunks) =>
    ({ after with status := 2 }, chunks ++ [st.complain line message])
  | (.ok streams, after, chunks) =>
    let (last, written) := body after
    let (shown, files) := streams.route written last.files
    let input := if redirects.any fun r => r.mode == .read then st.input else last.input
    ({ last with files, input }, chunks ++ shown)

end TreeSchema.Shell
