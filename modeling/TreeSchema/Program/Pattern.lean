/-
  Line patterns

  Basic patterns over the characters of a line: characters, any character,
  sets of characters, repetition of a single one of these, and the two ends
  of the line. Extended patterns add `+`, `?` and alternatives.
-/

namespace TreeSchema.Program

inductive PatternAtom where
  | any
  | char (c : Char)
  | oneOf (negated : Bool) (ranges : List (Char × Char))

def PatternAtom.accepts : PatternAtom → Char → Bool
  | any, _ => true
  | char c, found => c == found
  | oneOf negated ranges, found =>
    negated != ranges.any fun (low, high) => low ≤ found && found ≤ high

/-- How often an atom may occur. -/
inductive Repeat where
  | once
  | optional
  | any

inductive PatternItem where
  | atom (a : PatternAtom) (times : Repeat)
  | lineStart
  | lineEnd

/-- What stands between square brackets, and how many characters it takes
with the closing one. A bracket that comes first stands for itself. -/
def readSet (text : List Char) : Option (PatternAtom × Nat) :=
  let (negated, body) := match text with
    | '^' :: rest => (true, rest)
    | _ => (false, text)
  let (first, more) := match body with
    | ']' :: rest => ([']'], rest)
    | _ => ([], body)
  match more.span (· != ']') with
  | (_, []) => none
  | (inside, _) =>
    let members := first ++ inside
    some (.oneOf negated (ranges members), members.length + (if negated then 2 else 1))
where
  /-- The ranges listed in a set. -/
  ranges : List Char → List (Char × Char)
    | low :: '-' :: high :: rest => (low, high) :: ranges rest
    | c :: rest => (c, c) :: ranges rest
    | [] => []

/-- How often the atom before a text may occur, and how many characters say
so. -/
def readRepeat (extended : Bool) : List Char → Repeat × Nat
  | '*' :: _ => (.any, 1)
  | '?' :: _ => if extended then (.optional, 1) else (.once, 0)
  | _ => (.once, 0)

/-- The items of a pattern; `skip` characters of an item already read are
passed over first. -/
def readItems (extended : Bool) : (first : Bool) → (skip : Nat) → List Char → List PatternItem
  | _, _, [] => []
  | first, skip + 1, _ :: rest => readItems extended first skip rest
  | first, 0, c :: rest =>
    let (atom, length) : PatternAtom × Nat := match c, rest with
      | '.', _ => (.any, 0)
      | '\\', next :: _ => (.char next, 1)
      | '[', _ => (readSet rest).getD (.char '[', 0)
      | _, _ => (.char c, 0)
    if c = '^' && first then .lineStart :: readItems extended true 0 rest
    else if c = '$' && rest.isEmpty then [.lineEnd]
    else if extended && (rest.drop length).head? = some '+' then
      .atom atom .once :: .atom atom .any :: readItems extended false (length + 1) rest
    else
      let (times, taken) := readRepeat extended (rest.drop length)
      .atom atom times :: readItems extended false (length + taken) rest

/-- Whether items match at the head of a text; `start` says whether the text
begins its line, and `whole` whether it must be used up. -/
def matchItems (whole : Bool) : (start : Bool) → List PatternItem → List Char → Bool
  | _, [], text => !whole || text.isEmpty
  | start, .lineStart :: items, text => start && matchItems whole start items text
  | start, .lineEnd :: items, text => text.isEmpty && matchItems whole start items text
  | _, .atom a .once :: items, c :: text => a.accepts c && matchItems whole false items text
  | _, .atom _ .once :: _, [] => false
  | start, .atom a .optional :: items, text =>
    matchItems whole start items text || match text with
      | c :: rest => a.accepts c && matchItems whole false items rest
      | [] => false
  | start, .atom a .any :: items, text =>
    matchItems whole start items text || match text with
      | c :: rest => a.accepts c && matchItems whole false (.atom a .any :: items) rest
      | [] => false
termination_by _ items text => (items.length, text.length)

def matchAnywhere (items : List PatternItem) : (start : Bool) → List Char → Bool
  | start, [] => matchItems false start items []
  | start, c :: rest => matchItems false start items (c :: rest) || matchAnywhere items false rest

/-- A pattern as its alternatives. -/
structure Pattern where
  alternatives : List (List PatternItem)
  /-- Whether a line must match as a whole. -/
  whole : Bool := false

/-- The texts between occurrences of `sep`. -/
def splitAt (sep : Char) (current : List Char) : List Char → List (List Char)
  | [] => [current.reverse]
  | c :: rest =>
    if c = sep then current.reverse :: splitAt sep [] rest else splitAt sep (c :: current) rest

namespace Pattern

/-- How the text of a pattern is to be read. -/
inductive Style where
  | basic
  | extended
  | fixed
  deriving DecidableEq

/-- Reads a pattern. The lines of its text are alternatives. -/
def ofText (style : Style) (whole : Bool) (text : String) : Pattern :=
  let lines := splitAt '\n' [] text.toList
  { whole
    alternatives := match style with
      | .fixed => lines.map fun line => line.map fun c => .atom (.char c) .once
      | .basic => lines.map (readItems false true 0)
      | .extended => (lines.flatMap (splitAt '|' [])).map (readItems true true 0) }

def accepts (p : Pattern) (line : List Char) : Bool :=
  p.alternatives.any fun items =>
    if p.whole then matchItems true true items line else matchAnywhere items true line

end Pattern

end TreeSchema.Program
