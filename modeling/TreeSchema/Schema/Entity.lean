import TreeSchema.Schema.Kind
/-
  Entities

  A named shape: any scalar, one of some literal values, a sequence of
  members, or a mapping of keyed members. An entity knows the line it was
  declared on; one that was only ever referred to has none.
-/

namespace TreeSchema.Schema

/-- A reference to an entity by kind and name. In a mapping it carries the
key it stands under. -/
structure MemberSpec where
  kind : Kind
  name : String
  key : Option String
  deriving DecidableEq, Repr

inductive Shape where
  /-- Any scalar. -/
  | anyScalar
  /-- A scalar equal to one of the values. -/
  | oneOf (values : List String)
  /-- A sequence of members; of scalars if no member is listed. -/
  | array (members : List MemberSpec)
  /-- A mapping of members; of scalars under any key if no member is listed. -/
  | mapping (members : List MemberSpec)
  deriving DecidableEq, Repr

namespace Shape

def kind : Shape → Kind
  | anyScalar | oneOf _ => .scalar
  | array _ => .array
  | mapping _ => .mapping

/-- The members of a container; none for a scalar. -/
def members : Shape → List MemberSpec
  | anyScalar | oneOf _ => []
  | array members | mapping members => members

/-- The shape that constrains least among those of a kind. -/
def least : Kind → Shape
  | .scalar => anyScalar
  | .array => array []
  | .mapping => mapping []

@[simp] theorem kind_least (k : Kind) : (least k).kind = k := by cases k <;> rfl

@[simp] theorem members_least (k : Kind) : (least k).members = [] := by cases k <;> rfl

end Shape

/-- A named shape. -/
structure Entity where
  name : String
  shape : Shape
  /-- The line of the declaration; `none` for a name that is only referred
  to. -/
  line : Option UInt32
  deriving DecidableEq, Repr

namespace Entity

def kind (e : Entity) : Kind := e.shape.kind

/-- The entity a name stands for when nothing declares it. -/
def anonymous (kind : Kind) (name : String) : Entity :=
  { name, shape := .least kind, line := none }

def isCalled (e : Entity) (kind : Kind) (name : String) : Bool :=
  e.kind == kind && e.name == name

/-- Sigil and name, as a schema writes them. -/
def displayName (e : Entity) : String := String.ofList (e.kind.sigil :: e.name.toList)

/-- The nonterminal of an entity. Names have no dot, so that no two entities
and no helper rule share one. -/
def nonterminal (e : Entity) : String := e.kind.text ++ "." ++ e.name

end Entity

end TreeSchema.Schema
