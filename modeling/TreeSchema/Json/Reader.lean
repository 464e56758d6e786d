import TreeSchema.Json.Numeral
import TreeSchema.Json.Text
/-
  Reading JSON

  A text is one value, with space around it. Containers may be nested up to
  a limit. Of two entries of an object under one key the later counts.
-/

namespace TreeSchema.Json

/-- The depth at which nesting is refused. -/
def depthLimit : Nat := 128

/-- Reads the rest of a word. -/
def readWord (c : Cursor) : List Char → Except Error Cursor
  | [] => .ok c
  | x :: rest =>
    match c.peek with
    | none => c.failHere .endInValue
    | some y => if x = y then readWord c.next rest else c.failNext .expectedWord

/-- Reads the items of an array after its bracket, with `item` for one item.
Every item takes a character, so that the length of the text is fuel
enough. -/
def readItems (item : Cursor → Except Error (Value × Cursor)) :
    (fuel : Nat) → (first : Bool) → Cursor → Except Error (List Value × Cursor)
  | 0, _, c => c.failHere .endInList
  | fuel + 1, first, c =>
    let c := c.skipSpaces
    match c.peek with
    | none => c.failNext .endInList
    | some ']' => .ok ([], c.next)
    | some x =>
      if first then do
        let (value, c) ← item c
        let (values, c) ← readItems item fuel false c
        return (value :: values, c)
      else if x = ',' then
        let c := c.next.skipSpaces
        match c.peek with
        | none => c.failNext .endInValue
        | some ']' => c.failNext .trailingComma
        | some _ => do
          let (value, c) ← item c
          let (values, c) ← readItems item fuel false c
          return (value :: values, c)
      else c.failNext .expectedListComma

/-- Reads one entry of an object, its key's quote being next. -/
def readEntry (item : Cursor → Except Error (Value × Cursor)) (c : Cursor) :
    Except Error ((String × Value) × Cursor) := do
  let (key, c) ← readString c.next
  let c := c.skipSpaces
  match c.peek with
  | some ':' => do
    let (value, c) ← item c.next
    return ((key, value), c)
  | some _ => c.failNext .expectedColon
  | none => c.failNext .endInObject

def readEntries (item : Cursor → Except Error (Value × Cursor)) :
    (fuel : Nat) → (first : Bool) → Cursor → Except Error (List (String × Value) × Cursor)
  | 0, _, c => c.failHere .endInObject
  | fuel + 1, first, c =>
    let c := c.skipSpaces
    match c.peek with
    | none => c.failNext .endInObject
    | some x =>
      if x = '\x7d' then .ok ([], c.next)
      else if first then
        if x = '"' then do
          let (entry, c) ← readEntry item c
          let (entries, c) ← readEntries item fuel false c
          return (entry :: entries, c)
        else c.failNext .keyNotString
      else if x = ',' then
        let c := c.next.skipSpaces
        match c.peek with
        | none => c.failNext .endInValue
        | some y =>
          if y = '"' then do
            let (entry, c) ← readEntry item c
            let (entries, c) ← readEntries item fuel false c
            return (entry :: entries, c)
          else if y = '\x7d' then c.failNext .trailingComma
          else c.failNext .keyNotString
      else c.failNext .expectedObjectComma

/-- Reads one value, with containers nested less than `depth` deep. -/
def readValue : (depth : Nat) → Cursor → Except Error (Value × Cursor)
  | 0, c => c.failNext .tooDeep
  | depth + 1, c =>
    let c := c.skipSpaces
    match c.peek with
    | none => c.failNext .endInValue
    | some x =>
      if x = 'n' then do
        let c ← readWord c.next ['u', 'l', 'l']
        return (.null, c)
      else if x = 't' then do
        let c ← readWord c.next ['r', 'u', 'e']
        return (.bool true, c)
      else if x = 'f' then do
        let c ← readWord c.next ['a', 'l', 's', 'e']
        return (.bool false, c)
      else if x = '-' then do
        let (n, c) ← readNumber true c.next
        return (.number n, c)
      else if isDigit x then do
        let (n, c) ← readNumber false c
        return (.number n, c)
      else if x = '"' then do
        let (s, c) ← readString c.next
        return (.string s, c)
      else if x = '[' then
        if depth = 0 then c.failNext .tooDeep
        else do
          let (items, c) ← readItems (readValue depth) (c.rest.length + 1) true c.next
          return (.array items, c)
      else if x = '\x7b' then
        if depth = 0 then c.failNext .tooDeep
        else do
          let (entries, c) ← readEntries (readValue depth) (c.rest.length + 1) true c.next
          return (.object (entriesOf entries), c)
      else c.failNext .expectedValue

def read (text : String) : Except Error Value := do
  let (value, c) ← readValue depthLimit (.start text)
  let c := c.skipSpaces
  match c.peek with
  | none => return value
  | some _ => c.failNext .trailingCharacters

end TreeSchema.Json
