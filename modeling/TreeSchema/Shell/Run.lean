import TreeSchema.Shell.State
/-
  Running scripts

  A script is carried out line by line. Commands nest, and what they print
  may be read as a script again, so the depth is bounded by an allowance that
  a script of ordinary length never uses up.
-/

namespace TreeSchema.Shell

open File Program

def signals : List (String × Nat) :=
  [("HUP", 1), ("INT", 2), ("QUIT", 3), ("ABRT", 6), ("KILL", 9), ("USR1", 10), ("SEGV", 11),
   ("USR2", 12), ("PIPE", 13), ("ALRM", 14), ("TERM", 15)]

/-- The signals that leave a process running. -/
def harmless : List Nat := [0, 17, 18, 23, 28]

def signal? (text : String) : Option Nat :=
  let bare := if text.startsWith "SIG" then String.ofList (text.toList.drop 3) else text
  if !bare.isEmpty && bare.toList.all Char.isDigit then
    (argumentNumber? bare).map Int.toNat
  else signals.lookup bare

/-- Sends a signal to the shell itself; there is no other process. -/
def kill (line : Nat) (args : List String) (st : State) : Step :=
  let (signal, targets) := match args with
    | "-s" :: name :: rest => ((signal? name).getD 15, rest)
    | arg :: rest =>
      match arg.toList with
      | '-' :: name => ((signal? (String.ofList name)).getD 15, rest)
      | _ => (15, args)
    | [] => (15, [])
  if targets.contains State.processId then
    if harmless.contains signal then ({ st with status := 0 }, [])
    else ({ st with ending := some (.killed signal) }, [])
  else ({ st with status := 1 }, [st.complain line "kill: No such process"])

/-- The escapes of the shell's own `echo`. -/
def echoEscapes : EscapeStyle := { leadingZero := true, extended := false }

/-- Prints its arguments with spaces between them. -/
def echo (args : List String) (st : State) : Step :=
  let (silent, words) := match args with
    | "-n" :: rest => (true, rest)
    | _ => (false, args)
  let (bytes, cut) := echoEscapes.expand (" ".intercalate words)
  ({ st with status := 0 }, [{ bytes := bytes ++ if silent || cut then [] else [10] }])

/-- Ends the shell with a status, the last one if none is given. -/
def exit (line : Nat) (args : List String) (st : State) : Step :=
  match args with
  | [] => (st.exit st.status, [])
  | text :: _ =>
    if !text.isEmpty && text.toList.all Char.isDigit then
      (st.exit (((argumentNumber? text).getD 0).toNat), [])
    else (st.exit 2, [st.complain line s!"exit: Illegal number: {text}"])

/-- Sets options and arguments of the shell. -/
def set (args : List String) (st : State) : State :=
  match args with
  | "--" :: rest => { st with args := rest, status := 0 }
  | arg :: _ =>
    match arg.toList with
    | '-' :: letters => { st with strict := st.strict || letters.contains 'e', status := 0 }
    | _ => { st with args, status := 0 }
  | [] => { st with status := 0 }

def afterProgram (st : State) (c : Completion) : Step :=
  let status := match c.ending with
    | .exited code => code
    | .killed signal => 128 + signal
  ({ st with status, files := c.files, input := [] }, c.chunks)

/-- The programs that are part of the shell, whose complaints name its line. -/
def ownTools : List String := ["printf", "test", "["]

/-- Runs a program or a command of the shell's own. -/
def runNamed (shell : List String → List UInt8 → Workspace → Completion)
    (script : List Char → State → Step) (line : Nat) (name : String) (args : List String)
    (st : State) : Step :=
  match name with
  | ":" => ({ st with status := 0 }, [])
  | "exit" => exit line args st
  | "kill" => kill line args st
  | "echo" => echo args st
  | "set" => (set args st, [])
  | "shift" => ({ st with args := st.args.tail, status := 0 }, [])
  | "eval" => script (" ".intercalate args).toList st
  | "sh" => afterProgram st (shell args st.input st.files)
  | _ =>
    match Tool.named? name with
    | none =>
      if name.contains '/' && st.files.hasEntry name then
        ({ st with status := 126 }, [st.complain line s!"{name}: Permission denied"])
      else ({ st with status := 127 }, [st.complain line s!"{name}: not found"])
    | some tool =>
      let c := tool args st.input st.files
      let label (chunk : Chunk) : Chunk :=
        if chunk.toErrors && ownTools.contains name then
          { chunk with bytes := Text.encode s!"{st.name}: {line}: " ++ chunk.bytes }
        else chunk
      let (after, chunks) := afterProgram st { c with chunks := c.chunks.map label }
      (if ["cat", "head", "tail", "wc", "grep"].contains name then after
       else { after with input := st.input }, chunks)

/-- Ends a strict shell after a command that failed. -/
def endIfStrict (tested : Bool) (step : Step) : Step :=
  let (st, chunks) := step
  if st.strict && !tested && st.status != 0 && st.ending.isNone then (st.exit st.status, chunks)
  else step

def runAll (run : Command → State → Step) : List Command → State → Step
  | [], st => (st, [])
  | command :: rest, st =>
    let (after, chunks) := run command st
    if after.ending.isSome then (after, chunks)
    else
      let (last, more) := runAll run rest after
      (last, chunks ++ more)

/-- Runs a script, up to where it breaks off. -/
def runScript (run : Command → State → Step) (script : List Char) (st : State) : Step :=
  let (commands, fault) := readScript script
  let (after, chunks) := runAll run commands st
  match fault, after.ending with
  | some fault, none => (after.exit 2, chunks ++ [st.complain fault.line fault.message])
  | _, _ => (after, chunks)

/-- What a script prints, without the line feeds at its end. -/
def printed (chunks : List Chunk) : String :=
  let text := (Text.decodeLossy (outputOf chunks)).toList
  String.ofList (text.reverse.dropWhile (· == '\n')).reverse

/-- A shell that has come to its end. -/
def completion (step : Step) : Completion :=
  let (st, chunks) := step
  { ending := st.ending.getD (.exited st.status), chunks, files := st.files }

/-- Starts a shell: a script given after `-c`, one in a file, or one that is
the standard input. -/
def launch (run : Command → State → Step) (args : List String) (input : List UInt8)
    (files : Workspace) : Completion :=
  let (options, operands) := leadingOptions args
  let strict := options.contains 'e'
  let start (script name : String) (rest : List String) (input : List UInt8) : Completion :=
    let execute := if options.contains 'n' then fun _ st => (st, []) else run
    completion (runScript execute script.toList { name, args := rest, strict, input, files })
  if options.contains 'c' then
    match operands with
    | [] => .plain files 2 [.err "sh: 0: -c requires an argument\n"]
    | [script] => start script "sh" [] input
    | script :: name :: rest => start script name rest input
  else
    match operands with
    | [] => start (Text.decodeLossy input) "sh" [] []
    | path :: rest =>
      match files.readBytes path with
      | .ok bytes => start (Text.decodeLossy bytes) path rest input
      | .error .isDirectory => .plain files 2 [.err s!"sh: 0: Is a directory\n"]
      | .error _ => .plain files 2 [.err s!"sh: 0: cannot open {path}: No such file\n"]

/-- Runs a command; `tested` says whether its failure is a condition. -/
def run : (allowance : Nat) → (tested : Bool) → Command → State → Step
  | 0, _, _, st => ({ st with status := 2 }, [])
  | allowance + 1, tested, command, st =>
    if st.ending.isSome then (st, [])
    else
      let script := runScript (run allowance false)
      -- What a substitution complains about is seen, what it prints is its value.
      let substitute : Substitute := fun text before =>
        let (after, chunks) := script text before
        (printed chunks, before.rejoin after, chunks.filter Chunk.toErrors)
      let apart (body : State → Step) (before : State) : Step :=
        let (after, chunks) := body before
        (before.rejoin after, chunks)
      match command with
      | .nothing => ({ st with status := 0 }, [])
      | .simple line assignments words redirects =>
        let (texts, expanded, chunks) := expandWords substitute words st
        let prints := (words ++ assignments.map Prod.snd).any fun word => word.any Piece.isOutput
        let body (before : State) : Step := match texts with
          | [] => ({ before with status := if prints then before.status else 0 }, [])
          | "exec" :: name :: args =>
            let (after, written) :=
              runNamed (launch (run allowance false)) script line name args before
            (after.exit after.status, written)
          | name :: args => runNamed (launch (run allowance false)) script line name args before
        -- Words are expanded before the assignments in front of them take effect.
        let (assigned, more) := assignAll substitute assignments expanded
        let (after, written) := redirected substitute line redirects body assigned
        endIfStrict tested (after, chunks ++ more ++ written)
      | .sequence first second =>
        let (middle, chunks) := run allowance tested first st
        let (last, more) := run allowance tested second middle
        (last, chunks ++ more)
      | .background body =>
        let (after, chunks) := apart (run allowance true body) st
        ({ after with status := 0 }, chunks)
      | .negated body =>
        let (after, chunks) := run allowance true body st
        ({ after with status := if after.status = 0 then 1 else 0 }, chunks)
      | .and first second =>
        let (middle, chunks) := run allowance true first st
        if middle.status = 0 then
          let (last, more) := run allowance tested second middle
          (last, chunks ++ more)
        else (middle, chunks)
      | .or first second =>
        let (middle, chunks) := run allowance true first st
        if middle.status = 0 then (middle, chunks)
        else
          let (last, more) := run allowance tested second middle
          (last, chunks ++ more)
      | .piped first second =>
        let (middle, chunks) := apart (run allowance true first) st
        if middle.ending.isSome then (middle, chunks)
        else
          -- The second command reads what the first prints, and only its complaints are seen.
          let (after, more) :=
            apart (run allowance true second) { middle with input := outputOf chunks }
          endIfStrict tested
            ({ after with input := middle.input }, chunks.filter Chunk.toErrors ++ more)
      | .group body redirects => redirected substitute 1 redirects (run allowance tested body) st
      | .subshell body redirects =>
        endIfStrict tested
          (redirected substitute 1 redirects (apart (run allowance tested body)) st)
      | .conditional test body otherwise redirects =>
        redirected substitute 1 redirects (fun before =>
          let (middle, chunks) := run allowance true test before
          if middle.ending.isSome then (middle, chunks)
          else
            let branch := if middle.status = 0 then body else otherwise
            let (last, more) := run allowance tested branch { middle with status := 0 }
            (last, chunks ++ more)) st

def program : Tool := fun args input files =>
  let length := (args.map String.length).foldl (· + ·) input.length
    + (files.files.map fun (_, bytes) => bytes.length).foldl (· + ·) 0
  launch (run (length + 100) false) args input files

end TreeSchema.Shell
