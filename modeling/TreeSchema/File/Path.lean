import TreeSchema.Text.Utf8
/-
  File paths

  A path is a sequence of bytes, of which only the slash and the dot mean
  anything; it need not be a text. It is taken as its components: empty ones
  and single dots say nothing, and a double dot stands for the directory
  above. Without touching any directory, a path is normalized by letting each
  double dot remove the component before it, the leading slash included.
-/

namespace TreeSchema.File

def slash : UInt8 := 0x2F

def dot : UInt8 := 0x2E

inductive Component where
  /-- The leading slash. -/
  | root
  /-- A single dot at the head of a relative path. -/
  | here
  /-- A double dot. -/
  | up
  | name (bytes : List UInt8)
  deriving DecidableEq, Repr

namespace Component

/-- The component written between two slashes, if it says anything. -/
def ofSegment? (segment : List UInt8) : Option Component :=
  if segment = [] || segment = [dot] then none
  else if segment = [dot, dot] then some up
  else some (name segment)

def bytes : Component → List UInt8
  | root => [slash]
  | here => [dot]
  | up => [dot, dot]
  | name bytes => bytes

end Component

/-- What stands between the marks of a path. -/
def segmentsFrom {α : Type} [DecidableEq α] (mark : α) (current : List α) :
    List α → List (List α)
  | [] => [current.reverse]
  | c :: rest =>
    if c = mark then current.reverse :: segmentsFrom mark [] rest
    else segmentsFrom mark (c :: current) rest

/-- The texts between the slashes of a path that is a text. -/
def segments (path : String) : List String :=
  (segmentsFrom '/' [] path.toList).map String.ofList

/-- The components of a path. A leading slash is one; a leading dot is one in
a relative path. -/
def components (path : List UInt8) : List Component :=
  let parts := segmentsFrom slash [] path
  let inner := parts.filterMap Component.ofSegment?
  if path.head? = some slash then .root :: inner
  else if parts.head? = some [dot] then .here :: inner
  else inner

/-- One component after the components kept so far, which are backwards. -/
def stepPath (kept : List Component) : Component → List Component
  | .here => kept
  | .up => kept.tail
  | component => component :: kept

/-- The components of a path without dots. -/
def normalize (path : List UInt8) : List Component :=
  ((components path).foldl stepPath []).reverse

def below (path piece : List UInt8) : List UInt8 :=
  if path = [] || path.getLast? = some slash then path ++ piece else path ++ slash :: piece

/-- Components as a path. A leading slash starts the path afresh. -/
def pathBytes (parts : List Component) : List UInt8 :=
  parts.foldl (fun path part =>
    match part with
    | .root => [slash]
    | part => below path part.bytes) []

def join (directory name : String) : String :=
  if directory = "" || directory.toList.getLast? = some '/' then directory ++ name
  else directory ++ "/" ++ name

/-- The name a path ends in, unless it ends in a double dot or is the root. -/
def fileName? (path : String) : Option String :=
  match (components (Text.encode path)).getLast? with
  | some (.name bytes) => Text.decode? bytes
  | _ => none

/-- The texts before and after the last dot of a name, given backwards. -/
def splitLastDot (backwards : List Char) : Option (List Char × List Char) :=
  match backwards.span (· != '.') with
  | (_, []) => none
  | (extension, _ :: stem) => some (stem.reverse, extension.reverse)

/-- A name without its extension, and the extension. A dot at the head of a
name begins no extension. -/
def splitExtension (name : String) : String × Option String :=
  match splitLastDot name.toList.reverse with
  | some (c :: stem, extension) => (String.ofList (c :: stem), some (String.ofList extension))
  | _ => (name, none)

/-- A name without its extension. -/
def stem (name : String) : String := (splitExtension name).1

def extension? (path : String) : Option String :=
  (fileName? path).bind fun name => (splitExtension name).2

end TreeSchema.File
