import TreeSchema.Schema.SymbolTable
/-
  Resolution

  Closes a symbol table over its references and fixes the root. A name that
  is referred to and not declared gets one anonymous entity, shared by all
  references to it, in order of first reference. Recursion among entities is
  left as it is.
-/

namespace TreeSchema.Schema

/-- A member whose target has been found. -/
structure Member where
  /-- The place of the entity referred to. -/
  target : Nat
  key : Option String
  deriving DecidableEq, Repr

/-- A schema whose references all point at entities of its table. -/
structure Resolved where
  table : SymbolTable
  /-- The members of each entity of the table, in the table's order. -/
  members : List (List Member)
  /-- The place of the root entity. -/
  root : Nat
  /-- The number of anonymous entities added. -/
  anonymous : Nat
  deriving DecidableEq, Repr

namespace SymbolTable

/-- Finds the target of one reference, adding an anonymous entity if
nothing goes by its kind and name. -/
def resolveSpec (t : SymbolTable) (spec : MemberSpec) : SymbolTable × Member :=
  match t.lookup spec.kind spec.name with
  | some id => (t, { target := id, key := spec.key })
  | none => (t.push (.anonymous spec.kind spec.name), { target := t.size, key := spec.key })

def resolveSpecs (t : SymbolTable) : List MemberSpec → SymbolTable × List Member
  | [] => (t, [])
  | spec :: rest =>
    let (t, member) := t.resolveSpec spec
    let (t, members) := t.resolveSpecs rest
    (t, member :: members)

def resolveEntities (t : SymbolTable) : List Entity → SymbolTable × List (List Member)
  | [] => (t, [])
  | e :: rest =>
    let (t, members) := t.resolveSpecs e.shape.members
    let (t, others) := t.resolveEntities rest
    (t, members :: others)

/-- The place of a root asked for as sigil and name. It has to be declared. -/
def findRoot (t : SymbolTable) (wanted : String) : Except Error Nat :=
  match t.lookupDisplay wanted with
  | none => .error (.unknownRoot wanted)
  | some id =>
    if ((t.get? id).bind Entity.line).isSome then .ok id else .error (.unknownRoot wanted)

/-- The root: the one asked for, or the first entity. -/
def chooseRoot (t : SymbolTable) : Option String → Except Error Nat
  | none => .ok 0
  | some wanted => t.findRoot wanted

/-- Closes the table and fixes its root. -/
def resolve (file : String) (t : SymbolTable) (root : Option String) : Except Error Resolved :=
  if t.entities.isEmpty then .error (.noEntities file)
  else do
    let root ← t.chooseRoot root
    -- Only declared entities have references, so that one pass over them is enough.
    let (closed, members) := t.resolveEntities t.entities
    let anonymous := closed.size - t.size
    return { table := closed, members := members ++ List.replicate anonymous [], root, anonymous }

end SymbolTable

end TreeSchema.Schema
