import TreeSchema.Schema.Declaration
import TreeSchema.Schema.Entity
/-
  Assembly

  Each declaration becomes the entity it declares. A scalar may list literal
  values and the text marker, an array plain references, a mapping references
  under keys that are pairwise distinct. Repeated literals and repeated array
  members count once, at their first occurrence.
-/

namespace TreeSchema.Schema

def addNew {α : Type} [DecidableEq α] (known : List α) (value : α) : List α :=
  if value ∈ known then known else known ++ [value]

/-- The literal values among a scalar's items, each once; a reference is a
fault. -/
def literalsOf (name : String) : (known : List String) → List Item →
    Except LineFault (List String)
  | known, [] => .ok known
  | known, .text :: rest => literalsOf name known rest
  | known, .literal value :: rest => literalsOf name (addNew known value) rest
  | _, .reference .. :: _ => .error (.scalarItem name)
  | _, .aliased .. :: _ => .error (.scalarItem name)

/-- The members of an array, each once. -/
def arrayMembersOf (name : String) : (known : List MemberSpec) → List Item →
    Except LineFault (List MemberSpec)
  | known, [] => .ok known
  | known, .reference kind target :: rest =>
    arrayMembersOf name (addNew known { kind, name := target, key := none }) rest
  | _, .aliased .. :: _ => .error (.keyedArrayMember name)
  | _, .literal _ :: _ => .error (.notReference .array name)
  | _, .text :: _ => .error (.notReference .array name)

/-- The mapping member an item stands for, if it stands for one. A plain
reference stands under its own name. -/
def keyedMember? : Item → Option (String × MemberSpec)
  | .reference kind name => some (name, { kind, name, key := some name })
  | .aliased kind key target => some (key, { kind, name := target, key := some key })
  | .literal _ | .text => none

/-- The members of a mapping; no key may come twice. -/
def mappingMembersOf (name : String) : (known : List MemberSpec) → List Item →
    Except LineFault (List MemberSpec)
  | known, [] => .ok known
  | known, item :: rest =>
    match keyedMember? item with
    | none => .error (.notReference .mapping name)
    | some (key, member) =>
      if known.any fun m => m.key == some key then .error (.repeatedKey name key)
      else mappingMembersOf name (known ++ [member]) rest

namespace Declaration

/-- The shape a declaration describes. A scalar without items, or with the
text marker among them, may hold anything. -/
def shape (d : Declaration) : Except LineFault Shape :=
  match d.kind with
  | .scalar => do
    -- The literals are read even where the text marker makes them idle: a reference is a fault.
    let values ← literalsOf d.name [] d.items
    return if d.items.isEmpty || Item.text ∈ d.items then .anyScalar else .oneOf values
  | .array => .array <$> arrayMembersOf d.name [] d.items
  | .mapping => .mapping <$> mappingMembersOf d.name [] d.items

def entity (file : String) (d : Declaration) : Except Error Entity :=
  match d.shape with
  | .error fault => .error (.syntaxFault file d.line fault)
  | .ok shape => .ok { name := d.name, shape, line := some d.line }

end Declaration

/-- The entities of the declarations of `file`, up to the first that is not
legal. -/
def assemble (file : String) : List Declaration → Except Error (List Entity)
  | [] => .ok []
  | d :: rest => do
    let entity ← d.entity file
    let entities ← assemble file rest
    return entity :: entities

end TreeSchema.Schema
