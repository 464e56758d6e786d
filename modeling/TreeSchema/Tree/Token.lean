import TreeSchema.Text.Escaped
import TreeSchema.Tree.Node
import TreeSchema.Tree.Path
/-
  Tokens of a tree

  A tree as the flat stream of tokens that grammars describe: a scalar is one
  token, a container is its opening token, its parts and its closing token,
  and in a mapping every value follows its key. Each token knows the path of
  the element it belongs to.
-/

namespace TreeSchema

inductive TreeToken where
  | scalar (text : String)
  | key (name : String)
  | openSequence
  | closeSequence
  | openMapping
  | closeMapping
  deriving DecidableEq, Repr

namespace TreeToken

def isClose : TreeToken → Bool
  | closeSequence | closeMapping => true
  | _ => false

/-- The token as messages show it. -/
def display : TreeToken → String
  | scalar text => "scalar " ++ Text.escaped text
  | key name => "key " ++ Text.escaped name
  | openSequence => "sequence"
  | closeSequence => "end of sequence"
  | openMapping => "mapping"
  | closeMapping => "end of mapping"

end TreeToken

/-- A token and the path of its element. -/
structure PlacedToken where
  token : TreeToken
  path : String
  deriving DecidableEq, Repr

mutual

def Node.tokensAt (path : String) : Node → List PlacedToken
  | .scalar text => [⟨.scalar text, path⟩]
  | .sequence items => ⟨.openSequence, path⟩ :: itemTokens path 0 items ++ [⟨.closeSequence, path⟩]
  | .mapping entries => ⟨.openMapping, path⟩ :: entryTokens path entries ++ [⟨.closeMapping, path⟩]
termination_by structural n => n

/-- The tokens of the items of a sequence at `path`, the first of which has
number `index`. -/
def itemTokens (path : String) (index : Nat) : List Node → List PlacedToken
  | [] => []
  | n :: rest => n.tokensAt (Path.child path (toString index)) ++ itemTokens path (index + 1) rest
termination_by structural l => l

def entryTokens (path : String) : List (String × Node) → List PlacedToken
  | [] => []
  | (key, n) :: rest =>
    ⟨.key key, Path.child path key⟩ :: n.tokensAt (Path.child path key) ++ entryTokens path rest
termination_by structural l => l

end

def Node.tokens (n : Node) : List PlacedToken := n.tokensAt Path.root

/-- Passes tokens until `depth` open containers, and those opened meanwhile,
are closed. -/
def skipContainer : (depth : Nat) → List PlacedToken → List PlacedToken
  | _, [] => []
  | depth, t :: rest =>
    match t.token with
    | .openSequence | .openMapping => skipContainer (depth + 1) rest
    | .closeSequence | .closeMapping =>
      if depth ≤ 1 then rest else skipContainer (depth - 1) rest
    | .scalar _ | .key _ => skipContainer depth rest

/-- Passes one whole element: a scalar, a container with all that is in it,
or a key with its value. -/
def skipElement : List PlacedToken → List PlacedToken
  | [] => []
  | t :: rest =>
    match t.token with
    | .key _ => skipElement rest
    | .openSequence | .openMapping => skipContainer 1 rest
    | .scalar _ | .closeSequence | .closeMapping => rest

end TreeSchema
