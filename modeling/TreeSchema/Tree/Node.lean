/-
  Trees

  A document is a tree of scalars, sequences and mappings. The entries of a
  mapping are kept in increasing order of their keys, each key once; keys are
  compared character by character.
-/

namespace TreeSchema

/-- A document, or a part of one. -/
inductive Node where
  | scalar (text : String)
  | sequence (items : List Node)
  | mapping (entries : List (String × Node))
  deriving Repr, Inhabited, BEq

/-- Induction over trees, with the hypothesis at hand for every part. -/
theorem Node.induction {P : Node → Prop} (scalar : ∀ text, P (.scalar text))
    (sequence : ∀ items, (∀ n ∈ items, P n) → P (.sequence items))
    (mapping : ∀ entries, (∀ e ∈ entries, P e.2) → P (.mapping entries)) (n : Node) : P n := by
  refine @Node.rec P (fun items => ∀ n ∈ items, P n) (fun entries => ∀ e ∈ entries, P e.2)
    (fun e => P e.2) scalar sequence mapping ?_ ?_ ?_ ?_ (fun _ _ h => h) n
  · intro n h
    cases h
  · intro n rest hn hrest m hm
    rcases List.mem_cons.mp hm with rfl | hm
    · exact hn
    · exact hrest m hm
  · intro e h
    cases h
  · intro e rest he hrest f hf
    rcases List.mem_cons.mp hf with rfl | hf
    · exact he
    · exact hrest f hf

/-- Sets a key in entries in key order; a value already under the key is
replaced. -/
def insertEntry {α : Type} (key : String) (value : α) : List (String × α) → List (String × α)
  | [] => [(key, value)]
  | (k, v) :: rest =>
    if key < k then (key, value) :: (k, v) :: rest
    else if key = k then (key, value) :: rest
    else (k, v) :: insertEntry key value rest

/-- Entries in key order from a list in any order; of two values under one
key the later counts. -/
def entriesOf {α : Type} (pairs : List (String × α)) : List (String × α) :=
  pairs.foldl (fun entries (key, value) => insertEntry key value entries) []

mutual

/-- Whether every mapping in the tree has its keys in strictly increasing
order. -/
def Node.Ordered : Node → Prop
  | .scalar _ => True
  | .sequence items => itemsOrdered items
  | .mapping entries => (entries.map Prod.fst).Pairwise (· < ·) ∧ entriesOrdered entries
termination_by structural n => n

def itemsOrdered : List Node → Prop
  | [] => True
  | n :: rest => n.Ordered ∧ itemsOrdered rest
termination_by structural l => l

def entriesOrdered : List (String × Node) → Prop
  | [] => True
  | (_, n) :: rest => n.Ordered ∧ entriesOrdered rest
termination_by structural l => l

end

mutual

/-- The same tree with every mapping in key order, later entries replacing
earlier ones under the same key. -/
def Node.sorted : Node → Node
  | .scalar text => .scalar text
  | .sequence items => .sequence (sortedItems items)
  | .mapping entries => .mapping (entriesOf (sortedEntries entries))
termination_by structural n => n

def sortedItems : List Node → List Node
  | [] => []
  | n :: rest => n.sorted :: sortedItems rest
termination_by structural l => l

def sortedEntries : List (String × Node) → List (String × Node)
  | [] => []
  | (key, n) :: rest => (key, n.sorted) :: sortedEntries rest
termination_by structural l => l

end

end TreeSchema
