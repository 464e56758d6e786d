/-
  Settings

  What a settings file holds: texts, other plain values, lists and tables.
  Numbers, truth values and dates must be well-formed, but no setting is one,
  so they are not kept. A table remembers how it came about, because that
  decides what may be added to it.
-/

namespace TreeSchema.Toml

/-- How a table came about. -/
inductive Origin where
  /-- Written between braces; nothing can be added to it. -/
  | inline
  /-- Opened by a header of its own. -/
  | header
  /-- Named inside a dotted key. -/
  | dotted
  /-- Named on the way to another table's header. -/
  | implied
  deriving DecidableEq, Repr

inductive Value where
  | text (s : String)
  /-- A number, a truth value or a date. -/
  | plain
  | list (items : List Value)
  | table (origin : Origin) (entries : List (String × Value))
  deriving Repr, Inhabited

abbrev Entries := List (String × Value)

def replaceValue (key : String) (value : Value) (entries : Entries) : Entries :=
  entries.map fun (known, old) => (known, if known = key then value else old)

/-- Adds a value under a dotted key. Tables on the way are those of dotted
keys; a key that is taken cannot be used again. -/
def assign (value : Value) : (path : List String) → Entries → Option Entries
  | [], _ => none
  | [key], entries => if (entries.lookup key).isSome then none else some (entries ++ [(key, value)])
  | key :: next :: rest, entries =>
    match entries.lookup key with
    | none =>
      (assign value (next :: rest) []).map fun inner => entries ++ [(key, .table .dotted inner)]
    | some (.table origin inner) =>
      if origin = .dotted || (origin = .implied && !rest.isEmpty) then
        (assign value (next :: rest) inner).map fun inner =>
          replaceValue key (.table origin inner) entries
      else none
    | some _ => none

/-- Opens the table of a header. A table can be opened once, and only if no
key has made it. -/
def openTable : (path : List String) → Entries → Option Entries
  | [], _ => none
  | [key], entries =>
    match entries.lookup key with
    | none => some (entries ++ [(key, .table .header [])])
    | some (.table .implied inner) => some (replaceValue key (.table .header inner) entries)
    | some _ => none
  | key :: next :: rest, entries =>
    match entries.lookup key with
    | none =>
      (openTable (next :: rest) []).map fun inner => entries ++ [(key, .table .implied inner)]
    | some (.table origin inner) =>
      if origin = .inline then none
      else (openTable (next :: rest) inner).map fun inner =>
        replaceValue key (.table origin inner) entries
    | some _ => none

/-- Adds a value under a dotted key of the table that is open. -/
def assignUnder (value : Value) (path : List String) :
    (opened : List String) → Entries → Option Entries
  | [], entries => assign value path entries
  | key :: rest, entries =>
    match entries.lookup key with
    | some (.table origin inner) =>
      (assignUnder value path rest inner).map fun inner =>
        replaceValue key (.table origin inner) entries
    | _ => none

end TreeSchema.Toml
