import TreeSchema.Schema.Entity
import TreeSchema.Schema.Error
/-
  Symbol tables

  Entities in order of insertion, and an index that gives the place of each
  kind and name. An entity's place is its identity: entities are only ever
  added at the end. The list and the index are written side by side, and
  whoever adds an entity has to know that its kind and name are new.
-/

namespace TreeSchema.Schema

/-- Entities in insertion order, with their index. -/
structure SymbolTable where
  entities : List Entity
  /-- The place under each kind and name, the latest entry first. -/
  index : List ((Kind × String) × Nat)
  deriving DecidableEq, Repr

namespace SymbolTable

def empty : SymbolTable := { entities := [], index := [] }

def size (t : SymbolTable) : Nat := t.entities.length

/-- The place that the index gives for this kind and name. -/
def lookup (t : SymbolTable) (kind : Kind) (name : String) : Option Nat :=
  t.index.lookup (kind, name)

def get? (t : SymbolTable) (id : Nat) : Option Entity := t.entities[id]?

def push (t : SymbolTable) (e : Entity) : SymbolTable :=
  { entities := t.entities ++ [e]
    index := ((e.kind, e.name), t.size) :: t.index }

/-- The line of the entity at a place; zero if it has none. -/
def lineAt (t : SymbolTable) (id : Nat) : UInt32 := ((t.get? id).bind Entity.line).getD 0

/-- Adds entities in order, up to the first whose kind and name are taken. -/
def pushAll (file : String) (t : SymbolTable) : List Entity → Except Error SymbolTable
  | [] => .ok t
  | e :: rest =>
    match t.lookup e.kind e.name with
    | some first => .error (.duplicate file (e.line.getD 0) e.kind e.name (t.lineAt first))
    | none => (t.push e).pushAll file rest

def ofEntities (file : String) (entities : List Entity) : Except Error SymbolTable :=
  empty.pushAll file entities

/-- The place of the entity written as sigil and name. -/
def lookupDisplay (t : SymbolTable) (text : String) : Option Nat :=
  match text.toList with
  | [] => none
  | c :: name => (Kind.ofSigil? c).bind fun kind => t.lookup kind (String.ofList name)

end SymbolTable

end TreeSchema.Schema
