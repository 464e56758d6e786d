import TreeSchema.Number.Layout
import TreeSchema.Tree.Document
/-
  JSON values

  The values of JSON documents. Integers of 64 bits are kept exactly, all
  other numbers as floating-point numbers. The entries of an object are in
  key order.
-/

namespace TreeSchema.Json

inductive Number where
  | integer (n : Int)
  | real (x : Number.Binary64)
  deriving DecidableEq, Repr

namespace Number

def text : Number → String
  | integer n => TreeSchema.Number.integerText n
  | real x => TreeSchema.Number.Layout.json.text x

/-- Whether two numbers are equal: integers and floating-point numbers never
are. -/
def same : Number → Number → Bool
  | integer m, integer n => m == n
  | real x, real y => x.sameValue y
  | _, _ => false

end Number

inductive Value where
  | null
  | bool (b : Bool)
  | number (n : Number)
  | string (s : String)
  | array (items : List Value)
  | object (entries : List (String × Value))
  deriving Repr, Inhabited

def boolText (b : Bool) : String := if b then "true" else "false"

mutual

def Value.same : Value → Value → Bool
  | .null, .null => true
  | .bool a, .bool b => a == b
  | .number m, .number n => m.same n
  | .string s, .string t => s == t
  | .array xs, .array ys => sameItems xs ys
  | .object xs, .object ys => sameEntries xs ys
  | _, _ => false
termination_by structural v => v

def sameItems : List Value → List Value → Bool
  | [], [] => true
  | x :: xs, y :: ys => x.same y && sameItems xs ys
  | _, _ => false
termination_by structural l => l

def sameEntries : List (String × Value) → List (String × Value) → Bool
  | [], [] => true
  | (j, x) :: xs, (k, y) :: ys => j == k && x.same y && sameEntries xs ys
  | _, _ => false
termination_by structural l => l

end

/-- Induction over values, with the hypothesis at hand for every part. -/
theorem Value.induction {P : Value → Prop} (null : P .null) (bool : ∀ b, P (.bool b))
    (number : ∀ n, P (.number n)) (string : ∀ s, P (.string s))
    (array : ∀ items, (∀ v ∈ items, P v) → P (.array items))
    (object : ∀ entries, (∀ e ∈ entries, P e.2) → P (.object entries)) (v : Value) : P v := by
  refine @Value.rec P (fun items => ∀ v ∈ items, P v) (fun entries => ∀ e ∈ entries, P e.2)
    (fun e => P e.2) null bool number string array object ?_ ?_ ?_ ?_ (fun _ _ h => h) v
  · intro v h
    cases h
  · intro v rest hv hrest
    exact List.forall_mem_cons.mpr ⟨hv, hrest⟩
  · intro e h
    cases h
  · intro e rest he hrest
    exact List.forall_mem_cons.mpr ⟨he, hrest⟩

mutual

/-- The tree a value stands for: scalars by their text, numbers as they are
printed, null by the empty text. -/
def Value.node (print : Number → String) : Value → Node
  | .null => .scalar ""
  | .bool b => .scalar (boolText b)
  | .number n => .scalar (print n)
  | .string s => .scalar s
  | .array items => .sequence (itemNodes print items)
  | .object entries => .mapping (entriesOf (entryNodes print entries))
termination_by structural v => v

def itemNodes (print : Number → String) : List Value → List Node
  | [] => []
  | v :: rest => v.node print :: itemNodes print rest
termination_by structural l => l

def entryNodes (print : Number → String) : List (String × Value) → List (String × Node)
  | [] => []
  | (key, v) :: rest => (key, v.node print) :: entryNodes print rest
termination_by structural l => l

end

section
variable (print : Number → String)

theorem itemNodes_eq_map (items : List Value) :
    itemNodes print items = items.map (Value.node print) := by
  induction items with
  | nil => rfl
  | cons v rest ih => rw [itemNodes, ih, List.map_cons]

theorem entryNodes_eq_map (entries : List (String × Value)) :
    entryNodes print entries = entries.map fun e => (e.1, e.2.node print) := by
  induction entries with
  | nil => rfl
  | cons e rest ih => rw [entryNodes, ih, List.map_cons]

theorem Value.ordered_node (v : Value) : (v.node print).Ordered := by
  induction v using Value.induction with
  | null | bool | number | string => trivial
  | array items ih =>
    rw [node, itemNodes_eq_map]
    exact Node.ordered_sequence (List.forall_mem_map.mpr ih)
  | object entries ih =>
    rw [node, entryNodes_eq_map]
    exact Node.ordered_mapping_entriesOf (List.forall_mem_map.mpr ih)

end

def Value.document (print : Number → String) (v : Value) : Document :=
  { node := v.node print, ordered := v.ordered_node print }

end TreeSchema.Json
