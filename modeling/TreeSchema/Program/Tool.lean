import TreeSchema.Program.Completion
import TreeSchema.Program.Pattern
import TreeSchema.Program.Printf
/-
  Small programs

  Programs that print, show and examine files. Each takes its arguments, its
  standard input and the files, and says what it wrote and how it ended.
-/

namespace TreeSchema.Program

open File

/-- A program: arguments, standard input and files give a completion. -/
abbrev Tool := (args : List String) → (input : List UInt8) → Workspace → Completion

/-- What a file fault is called by the programs that meet it. -/
def faultText : Fault → String
  | .notDirectory => "Not a directory"
  | .isDirectory => "Is a directory"
  | _ => "No such file or directory"

def complain (program path : String) (fault : Fault) : Chunk :=
  .err s!"{program}: {path}: {faultText fault}\n"

/-- The lines of a byte sequence, each with its line feed. -/
def byteLines (current : List UInt8) : List UInt8 → List (List UInt8)
  | [] => if current.isEmpty then [] else [current.reverse]
  | b :: rest =>
    if b = 10 then (b :: current).reverse :: byteLines [] rest else byteLines (b :: current) rest

def bareLine (line : List UInt8) : List UInt8 :=
  if line.getLast? = some 10 then line.dropLast else line

/-- What a program finds under a path; a hyphen stands for its input. -/
def openFile (w : Workspace) (input : List UInt8) (path : String) : Except Fault (List UInt8) :=
  if path = "-" then .ok input else w.readBytes path

/-- The options at the head of arguments, as single letters, and the rest.
Options end at a double hyphen or at the first argument that is none. -/
def leadingOptions : List String → List Char × List String
  | [] => ([], [])
  | arg :: rest =>
    if arg = "--" then ([], rest)
    else
      match arg.toList with
      | '-' :: letter :: letters =>
        let (more, operands) := leadingOptions rest
        (letter :: letters ++ more, operands)
      | _ => ([], arg :: rest)

namespace Tool

/-- Ends with success and does nothing. -/
def succeed : Tool := fun _ _ w => .plain w 0

/-- Ends without success and does nothing. -/
def fail : Tool := fun _ _ w => .plain w 1

def echoEscapes : EscapeStyle := { leadingZero := true, extended := true }

def isEchoOption (arg : String) : Bool :=
  match arg.toList with
  | '-' :: letter :: letters => (letter :: letters).all fun c => c ∈ ['n', 'e', 'E']
  | _ => false

/-- Prints its arguments with spaces between them. -/
def echo : Tool := fun args _ w =>
  let options := (args.takeWhile isEchoOption).flatMap fun arg => arg.toList.tail
  let text := " ".intercalate (args.dropWhile isEchoOption)
  let escapes := (options.filter (· != 'n')).getLast? = some 'e'
  let (bytes, cut) := if escapes then echoEscapes.expand text else (Text.encode text, false)
  let lineEnd := if cut || options.contains 'n' then [] else [10]
  .plain w 0 [{ bytes := bytes ++ lineEnd }]

def numberedLine (n : Nat) (line : List UInt8) : List UInt8 :=
  let digits := (toString n).toList
  Text.encode (String.ofList (List.replicate (6 - digits.length) ' ' ++ digits ++ ['\t'])) ++ line

/-- Numbers lines, all of them or only those that are not blank. -/
def numberLines (all : Bool) : (n : Nat) → List (List UInt8) → List (List UInt8)
  | _, [] => []
  | n, line :: rest =>
    if all || !(bareLine line).isEmpty then numberedLine n line :: numberLines all (n + 1) rest
    else line :: numberLines all n rest

def markEnd (line : List UInt8) : List UInt8 :=
  if line.getLast? = some 10 then line.dropLast ++ [36, 10] else line

def markTabs (line : List UInt8) : List UInt8 :=
  line.flatMap fun b => if b = 9 then [94, 73] else [b]

/-- Lines without those that are blank after a blank one. -/
def squeezeLines (afterBlank : Bool) : List (List UInt8) → List (List UInt8)
  | [] => []
  | line :: rest =>
    let blank := line == [10]
    if blank && afterBlank then squeezeLines true rest else line :: squeezeLines blank rest

/-- Prints files one after another. -/
def cat : Tool := fun args input w =>
  let (options, operands) := leadingOptions args
  match options.find? fun c => c ∉ ['n', 'b', 's', 'E', 'T', 'e', 't', 'A', 'u', 'v'] with
  | some c =>
    .plain w 1 [.err s!"cat: invalid option -- '{c}'\nTry 'cat --help' for more information.\n"]
  | none =>
    let paths := if operands.isEmpty then ["-"] else operands
    let found := paths.map fun path => (path, openFile w input path)
    let showEnds := options.any fun c => c ∈ ['E', 'e', 'A']
    let showTabs := options.any fun c => c ∈ ['T', 't', 'A']
    let decorate (lines : List (List UInt8)) : List (List UInt8) :=
      let lines := if options.contains 's' then squeezeLines false lines else lines
      let lines := if showTabs then lines.map markTabs else lines
      let lines := if showEnds then lines.map markEnd else lines
      if options.contains 'b' then numberLines false 1 lines
      else if options.contains 'n' then numberLines true 1 lines
      else lines
    let output := found.flatMap fun (_, read) => read.toOption.getD []
    let complaints := found.filterMap fun (path, read) => match read with
      | .ok _ => none
      | .error fault => some (complain "cat" path fault)
    .plain w (if complaints.isEmpty then 0 else 1)
      ({ bytes := (decorate (byteLines [] output)).flatten } :: complaints)

/-- The number of lines or bytes asked for, and the files. A number with a
plus sign counts from the start. -/
structure CountRequest where
  count : Nat := 10
  fromStart : Bool := false
  inBytes : Bool := false
  paths : List String := []

/-- Reads the arguments of a program that shows the head or tail of files. -/
def countRequest (request : CountRequest) : List String → Option CountRequest
  | [] => some request
  | "-n" :: n :: rest => (setCount request false n.toList).bind fun r => countRequest r rest
  | "-c" :: n :: rest => (setCount request true n.toList).bind fun r => countRequest r rest
  | arg :: rest =>
    match arg.toList with
    | '-' :: 'n' :: digits => (setCount request false digits).bind fun r => countRequest r rest
    | '-' :: 'c' :: digits => (setCount request true digits).bind fun r => countRequest r rest
    | '-' :: d :: digits => (setCount request false (d :: digits)).bind fun r => countRequest r rest
    | _ => countRequest { request with paths := request.paths ++ [arg] } rest
where
  /-- The request with a number given by digits. -/
  setCount (r : CountRequest) (inBytes : Bool) (digits : List Char) : Option CountRequest :=
    let (fromStart, digits) := match digits with
      | '+' :: more => (true, more)
      | _ => (false, digits)
    if digits.isEmpty || !digits.all Char.isDigit then none
    else some { r with
      inBytes, fromStart, count := digits.foldl (fun n c => n * 10 + (c.toNat - 48)) 0 }

def headOf (r : CountRequest) (bytes : List UInt8) : List UInt8 :=
  if r.inBytes then bytes.take r.count else ((byteLines [] bytes).take r.count).flatten

def tailOf (r : CountRequest) (bytes : List UInt8) : List UInt8 :=
  let drop {α : Type} (items : List α) : List α :=
    items.drop (if r.fromStart then r.count - 1 else items.length - r.count)
  if r.inBytes then drop bytes else (drop (byteLines [] bytes)).flatten

/-- Shows a part of each file, under its name if there are several. -/
def showParts (program : String) (part : CountRequest → List UInt8 → List UInt8) : Tool :=
  fun args input w =>
  match countRequest {} args with
  | none => .plain w 1 [.err s!"{program}: invalid number\n"]
  | some request =>
    let paths := if request.paths.isEmpty then ["-"] else request.paths
    let heading (path : String) (index : Nat) : Chunk :=
      let gap := if index = 0 then "" else "\n"
      .out (if paths.length ≤ 1 then "" else s!"{gap}==> {path} <==\n")
    let chunks := paths.zipIdx.flatMap fun (path, index) => match openFile w input path with
      | .ok bytes => [heading path index, { bytes := part request bytes }]
      | .error fault =>
        [.err s!"{program}: cannot open '{path}' for reading: {faultText fault}\n"]
    .plain w (if chunks.any Chunk.toErrors then 1 else 0) chunks

/-- The words among bytes: their number, given whether one is under way. -/
def countWords (inside : Bool) : List UInt8 → Nat
  | [] => 0
  | b :: rest =>
    let blank := b = 32 || (9 ≤ b && b ≤ 13)
    (if blank || inside then 0 else 1) + countWords (!blank) rest

def wordCount : Tool := fun args input w =>
  let (options, paths) := leadingOptions args
  let options := if options.isEmpty then ['l', 'w', 'c'] else options
  let counts (bytes : List UInt8) : List Nat :=
    (if options.contains 'l' then [bytes.count 10] else [])
      ++ (if options.contains 'w' then [countWords false bytes] else [])
      ++ (if options.contains 'm' then [(Text.decodeLossy bytes).length] else [])
      ++ (if options.contains 'c' then [bytes.length] else [])
  let found := paths.filterMap fun path => (openFile w input path).toOption.map fun b => (path, b)
  let total := (found.map fun (_, b) => b.length).foldl (· + ·) 0
  let columns := (counts []).length
  let width := if columns ≤ 1 && paths.length ≤ 1 then 1
    else if paths.isEmpty then 7 else (toString total).length
  let pad (n : Nat) : String :=
    String.ofList (List.replicate (width - (toString n).length) ' ') ++ toString n
  let line (bytes : List UInt8) (name : String) : Chunk :=
    .out (" ".intercalate ((counts bytes).map pad) ++ name ++ "\n")
  let complaints := paths.filterMap fun path => match openFile w input path with
    | .ok _ => none
    | .error fault => some (complain "wc" path fault)
  let lines :=
    if paths.isEmpty then [line input ""] else found.map fun (path, b) => line b s!" {path}"
  let totals := if paths.length ≤ 1 then [] else [line (found.flatMap Prod.snd) " total"]
  .plain w (if complaints.isEmpty then 0 else 1) (lines ++ complaints ++ totals)

/-- The lower-case form of a letter of the basic alphabet. -/
def fold (ignoreCase : Bool) (line : List Char) : List Char :=
  if ignoreCase then line.map Char.toLower else line

/-- Prints the lines of files that match a pattern. -/
def grep : Tool := fun args input w =>
  let (options, operands) := leadingOptions args
  match operands with
  | [] =>
    .plain w 2 [.err ("Usage: grep [OPTION]... PATTERNS [FILE]...\n"
      ++ "Try 'grep --help' for more information.\n")]
  | text :: paths =>
    let has (c : Char) : Bool := options.contains c
    let style := if has 'F' then Pattern.Style.fixed else if has 'E' then .extended else .basic
    let pattern := Pattern.ofText style (has 'x') (String.ofList (fold (has 'i') text.toList))
    let selects (line : List UInt8) : Bool :=
      has 'v' != pattern.accepts (fold (has 'i') (Text.decodeLossy (bareLine line)).toList)
    let read (path : String) := (path, openFile w input path)
    let found := (if paths.isEmpty then ["-"] else paths).map read
    let named := found.length > 1 && !has 'h' || has 'H'
    let label (path : String) : List UInt8 := if named then Text.encode s!"{path}:" else []
    let report (path : String) (bytes : List UInt8) : List UInt8 :=
      let numbered := (byteLines [] bytes).zipIdx.filter fun (line, _) => selects line
      if has 'q' then []
      else if has 'l' then if numbered.isEmpty then [] else Text.encode s!"{path}\n"
      else if has 'c' then label path ++ Text.encode s!"{numbered.length}\n"
      else numbered.flatMap fun (line, index) =>
        let number := if has 'n' then Text.encode s!"{index + 1}:" else []
        label path ++ number ++ bareLine line ++ [10]
    let chunks := found.map fun (path, read) => match read with
      | .ok bytes => { bytes := report path bytes }
      | .error fault =>
        if has 's' then { toErrors := true, bytes := [] } else complain "grep" path fault
    let matched := found.any fun (_, read) => match read with
      | .ok bytes => (byteLines [] bytes).any selects
      | .error _ => false
    let code := if chunks.any Chunk.toErrors && !(matched && has 'q') then 2
      else if matched then 0 else 1
    .plain w code chunks

/-- The last name of a path, without a suffix. -/
def baseName : Tool := fun args _ w =>
  match args with
  | [] => .plain w 1 [.err "basename: missing operand\nTry 'basename --help' for more information.\n"]
  | path :: more =>
    let name :=
      (fileName? path).getD (if path.toList.all (· == '/') && path != "" then "/" else path)
    let suffix := more.headD ""
    let cut := name.toList.take (name.length - suffix.length)
    let bare :=
      if suffix != "" && name != suffix && name.endsWith suffix then String.ofList cut else name
    .plain w 0 [.out (bare ++ "\n")]

def dirName : Tool := fun args _ w =>
  let lines := args.map fun path =>
    let back := (path.toList.reverse.dropWhile (· == '/')).dropWhile (· != '/')
    let directory := (back.dropWhile (· == '/')).reverse
    let whole := if directory.isEmpty then (if path.toList.head? = some '/' then ['/'] else ['.'])
      else directory
    String.ofList whole ++ "\n"
  .plain w 0 [.out ("".intercalate lines)]

/-- Copies a file to a path, or into a directory. -/
def copy : Tool := fun args _ w =>
  let (_, operands) := leadingOptions args
  match operands with
  | [source, target] =>
    match w.readBytes source with
    | .error fault => .plain w 1 [.err s!"cp: cannot stat '{source}': {faultText fault}\n"]
    | .ok bytes =>
      let inside := join target ((fileName? source).getD source)
      match w.writeBytes target bytes, w.writeBytes inside bytes with
      | .ok changed, _ => .plain changed 0
      | .error .isDirectory, .ok changed => .plain changed 0
      | .error fault, _ =>
        .plain w 1 [.err s!"cp: cannot create regular file '{target}': {faultText fault}\n"]
  | _ => .plain w 1 [.err "cp: missing file operand\nTry 'cp --help' for more information.\n"]

def compare? (test : String) (a b : Int) : Option Bool :=
  match test with
  | "-eq" => some (a == b)
  | "-ne" => some (a != b)
  | "-lt" => some (decide (a < b))
  | "-le" => some (decide (a ≤ b))
  | "-gt" => some (decide (b < a))
  | "-ge" => some (decide (b ≤ a))
  | _ => none

/-- Whether a condition on texts, numbers or files holds; `none` if it is no
condition. -/
def condition? (w : Workspace) : List String → Option Bool
  | [] => some false
  | [text] => some (text != "")
  | ["!", text] => some (text == "")
  | ["-n", text] => some (text != "")
  | ["-z", text] => some (text == "")
  | ["-e", path] => some (w.hasEntry path)
  | ["-f", path] | ["-r", path] => some (w.readBytes path).isOk
  | ["-s", path] => some (match w.readBytes path with
      | .ok bytes => !bytes.isEmpty
      | .error _ => false)
  | ["-d", path] => some (w.hasEntry path && !(w.readBytes path).isOk)
  | [a, "=", b] => some (a == b)
  | [a, "!=", b] => some (a != b)
  | [a, test, b] => do
    let m ← argumentNumber? a
    let n ← argumentNumber? b
    compare? test m n
  | "!" :: rest => (condition? w rest).map not
  | _ => none

/-- Ends with success if its condition holds. -/
def test : Tool := fun args _ w =>
  match condition? w args with
  | some true => .plain w 0
  | some false => .plain w 1
  | none => .plain w 2 [.err "test: unexpected operator\n"]

/-- `test` between square brackets. -/
def bracket : Tool := fun args input w =>
  if args.getLast? = some "]" then test args.dropLast input w
  else .plain w 2 [.err "[: missing ]\n"]

/-- Prints a format filled with its arguments. -/
def formatted : Tool := fun args _ w =>
  match args with
  | [] => .plain w 2 [.err "printf: usage: printf format [arg ...]\n"]
  | format :: rest =>
    let (bytes, refused) := printf format rest
    .plain w (if refused.isEmpty then 0 else 1)
      ({ bytes } :: refused.map fun arg => .err s!"printf: {arg}: expected numeric value\n")

def named? : String → Option Tool
  | "true" => some succeed
  | "false" => some fail
  | "sleep" => some succeed
  | "echo" => some echo
  | "printf" => some formatted
  | "cat" => some cat
  | "head" => some (showParts "head" headOf)
  | "tail" => some (showParts "tail" tailOf)
  | "wc" => some wordCount
  | "grep" => some grep
  | "basename" => some baseName
  | "dirname" => some dirName
  | "cp" => some copy
  | "test" => some test
  | "[" => some bracket
  | _ => none

end Tool

end TreeSchema.Program
