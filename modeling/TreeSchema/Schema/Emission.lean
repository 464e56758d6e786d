import TreeSchema.Grammar.Basic
import TreeSchema.Schema.Resolution
/-
  Emission

  The grammar of a resolved schema: one nonterminal an entity, and for a
  container a helper rule whose alternatives are its members. The helper is
  repeated, so that membership is closed and every member is optional.
-/

namespace TreeSchema.Schema

/-- The rule `lhs : open element* close`. -/
def containerRule (lhs : String) (opening : Terminal) (element : Symbol) (closing : Terminal) :
    Rule :=
  { lhs, alternatives := [[.terminal opening, .repeated element, .terminal closing]] }

namespace Resolved

def nonterminalAt (s : Resolved) (id : Nat) : String :=
  ((s.table.get? id).map Entity.nonterminal).getD ""

def arrayRules (s : Resolved) (lhs : String) (members : List Member) : List Rule :=
  if members.isEmpty then
    [containerRule lhs .openSequence (.terminal .scalar) .closeSequence]
  else
    [containerRule lhs .openSequence (.nonterminal (lhs ++ ".item")) .closeSequence,
     { lhs := lhs ++ ".item",
       alternatives := members.map fun m => [.nonterminal (s.nonterminalAt m.target)] }]

def mappingRules (s : Resolved) (lhs : String) (members : List Member) : List Rule :=
  [containerRule lhs .openMapping (.nonterminal (lhs ++ ".entry")) .closeMapping,
   { lhs := lhs ++ ".entry",
     alternatives :=
       if members.isEmpty then [[.terminal (.key none), .terminal .scalar]]
       else members.map fun m =>
         [.terminal (.key m.key), .nonterminal (s.nonterminalAt m.target)] }]

def entityRules (s : Resolved) (e : Entity) (members : List Member) : List Rule :=
  match e.shape with
  | .anyScalar => [{ lhs := e.nonterminal, alternatives := [[.terminal .scalar]] }]
  | .oneOf values =>
    [{ lhs := e.nonterminal, alternatives := values.map fun v => [.terminal (.literal v)] }]
  | .array _ => s.arrayRules e.nonterminal members
  | .mapping _ => s.mappingRules e.nonterminal members

def grammar (s : Resolved) (name : String) : Grammar :=
  { name
    start := s.nonterminalAt s.root
    rules := (List.zipWith s.entityRules s.table.entities s.members).flatten }

end Resolved

end TreeSchema.Schema
