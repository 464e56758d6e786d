import TreeSchema.Json.Value
/-
  YAML values

  The values of YAML documents. Keys of mappings may be any values; a tag of
  the document's own wraps the value it is put on.
-/

namespace TreeSchema.Yaml

inductive Number where
  | integer (n : Int)
  | real (x : Number.Binary64)
  | infinity (negative : Bool)
  | notANumber
  deriving DecidableEq, Repr

namespace Number

def text : Number → String
  | integer n => TreeSchema.Number.integerText n
  | real x => TreeSchema.Number.Layout.yaml.text x
  | infinity negative => if negative then "-.inf" else ".inf"
  | notANumber => ".nan"

/-- Whether two numbers count as the same key. -/
def same : Number → Number → Bool
  | integer m, integer n => m == n
  | real x, real y => x.sameValue y
  | infinity a, infinity b => a == b
  | notANumber, notANumber => true
  | _, _ => false

end Number

inductive Value where
  | null
  | bool (b : Bool)
  | number (n : Number)
  | string (s : String)
  | sequence (items : List Value)
  | mapping (entries : List (Value × Value))
  | tagged (tag : String) (value : Value)
  deriving Repr, Inhabited

/-- A tag without the exclamation mark it may begin with. -/
def bareTag (tag : String) : String :=
  match tag.toList with
  | '!' :: c :: rest => String.ofList (c :: rest)
  | _ => tag

mutual

/-- Whether two values are equal; the order of entries does not count. -/
def Value.same : Value → Value → Bool
  | .null, .null => true
  | .bool a, .bool b => a == b
  | .number m, .number n => m.same n
  | .string s, .string t => s == t
  | .sequence xs, .sequence ys => sameItems xs ys
  | .mapping xs, .mapping ys => xs.length == ys.length && sameEntries xs ys
  | .tagged s x, .tagged t y => bareTag s == bareTag t && x.same y
  | _, _ => false
termination_by structural v => v

def sameItems : List Value → List Value → Bool
  | [], [] => true
  | x :: xs, y :: ys => x.same y && sameItems xs ys
  | _, _ => false
termination_by structural l => l

def sameEntries : List (Value × Value) → List (Value × Value) → Bool
  | [], _ => true
  | (k, v) :: rest, others =>
    (others.any fun (k', v') => k.same k' && v.same v') && sameEntries rest others
termination_by structural l => l

end

/-- Induction over values, with the hypothesis at hand for every part. -/
theorem Value.induction {P : Value → Prop} (null : P .null) (bool : ∀ b, P (.bool b))
    (number : ∀ n, P (.number n)) (string : ∀ s, P (.string s))
    (sequence : ∀ items, (∀ v ∈ items, P v) → P (.sequence items))
    (mapping : ∀ entries, (∀ e ∈ entries, P e.1 ∧ P e.2) → P (.mapping entries))
    (tagged : ∀ tag v, P v → P (.tagged tag v)) (v : Value) : P v := by
  refine @Value.rec P (fun items => ∀ v ∈ items, P v)
    (fun entries => ∀ e ∈ entries, P e.1 ∧ P e.2) (fun e => P e.1 ∧ P e.2) null bool number string
    sequence mapping tagged ?_ ?_ ?_ ?_ (fun _ _ hkey hvalue => ⟨hkey, hvalue⟩) v
  · intro v h
    cases h
  · intro v rest hv hrest
    exact List.forall_mem_cons.mpr ⟨hv, hrest⟩
  · intro e h
    cases h
  · intro e rest he hrest
    exact List.forall_mem_cons.mpr ⟨he, hrest⟩

mutual

/-- The tree a value stands for, numbers as they are printed and tags left
aside; `none` if some key is no scalar. -/
def Value.node? (print : Number → String) : Value → Option Node
  | .null => some (.scalar "")
  | .bool b => some (.scalar (Json.boolText b))
  | .number n => some (.scalar (print n))
  | .string s => some (.scalar s)
  | .sequence items => (itemNodes? print items).map .sequence
  | .mapping entries => (entryNodes? print entries).map fun pairs => .mapping (entriesOf pairs)
  | .tagged _ value => value.node? print
termination_by structural v => v

def itemNodes? (print : Number → String) : List Value → Option (List Node)
  | [] => some []
  | v :: rest => do
    let node ← v.node? print
    let nodes ← itemNodes? print rest
    return node :: nodes
termination_by structural l => l

/-- `Value.node?` for every key and value; the key's node must be a scalar. -/
def entryNodes? (print : Number → String) : List (Value × Value) → Option (List (String × Node))
  | [] => some []
  | (k, v) :: rest => do
    match ← k.node? print with
    | .scalar key =>
      let node ← v.node? print
      let pairs ← entryNodes? print rest
      return (key, node) :: pairs
    | _ => none
termination_by structural l => l

end

section
variable {print : Number → String}

theorem itemNodes?_cons_eq_some_iff {v : Value} {rest : List Value} {nodes : List Node} :
    itemNodes? print (v :: rest) = some nodes ↔
      ∃ n others, v.node? print = some n ∧ itemNodes? print rest = some others ∧
        nodes = n :: others := by
  rw [itemNodes?]
  constructor
  · intro h
    obtain ⟨n, hn, h⟩ := Option.bind_eq_some_iff.mp h
    obtain ⟨others, hothers, h⟩ := Option.bind_eq_some_iff.mp h
    cases h
    exact ⟨n, others, hn, hothers, rfl⟩
  · intro h
    obtain ⟨n, others, hn, hothers, rfl⟩ := h
    refine Option.bind_eq_some_iff.mpr ⟨n, hn, ?_⟩
    exact Option.bind_eq_some_iff.mpr ⟨others, hothers, rfl⟩

theorem entryNodes?_cons_eq_some_iff {e : Value × Value} {rest : List (Value × Value)}
    {pairs : List (String × Node)} :
    entryNodes? print (e :: rest) = some pairs ↔
      ∃ p others, e.1.node? print = some (.scalar p.1) ∧ e.2.node? print = some p.2 ∧
        entryNodes? print rest = some others ∧ pairs = p :: others := by
  rw [entryNodes?]
  constructor
  · intro h
    obtain ⟨key, hkey, h⟩ := Option.bind_eq_some_iff.mp h
    split at h
    · obtain ⟨n, hn, h⟩ := Option.bind_eq_some_iff.mp h
      obtain ⟨others, hothers, h⟩ := Option.bind_eq_some_iff.mp h
      cases h
      exact ⟨(_, n), others, hkey, hn, hothers, rfl⟩
    · cases h
  · intro h
    obtain ⟨⟨key, n⟩, others, hkey, hn, hothers, rfl⟩ := h
    refine Option.bind_eq_some_iff.mpr ⟨.scalar key, hkey, ?_⟩
    refine Option.bind_eq_some_iff.mpr ⟨n, hn, ?_⟩
    exact Option.bind_eq_some_iff.mpr ⟨others, hothers, rfl⟩

theorem ordered_of_itemNodes? {items : List Value}
    (h : ∀ v ∈ items, ∀ n, v.node? print = some n → n.Ordered) {nodes : List Node}
    (hnodes : itemNodes? print items = some nodes) : ∀ n ∈ nodes, n.Ordered := by
  induction items generalizing nodes with
  | nil =>
    cases hnodes
    exact List.forall_mem_nil _
  | cons v rest ih =>
    obtain ⟨n, others, hn, hothers, rfl⟩ := itemNodes?_cons_eq_some_iff.mp hnodes
    obtain ⟨hfirst, hrest⟩ := List.forall_mem_cons.mp h
    exact List.forall_mem_cons.mpr ⟨hfirst n hn, ih hrest hothers⟩

theorem ordered_of_entryNodes? {entries : List (Value × Value)}
    (h : ∀ e ∈ entries, ∀ n, e.2.node? print = some n → n.Ordered) {pairs : List (String × Node)}
    (hpairs : entryNodes? print entries = some pairs) : ∀ p ∈ pairs, p.2.Ordered := by
  induction entries generalizing pairs with
  | nil =>
    cases hpairs
    exact List.forall_mem_nil _
  | cons e rest ih =>
    obtain ⟨p, others, _, hvalue, hothers, rfl⟩ := entryNodes?_cons_eq_some_iff.mp hpairs
    obtain ⟨hfirst, hrest⟩ := List.forall_mem_cons.mp h
    exact List.forall_mem_cons.mpr ⟨hfirst p.2 hvalue, ih hrest hothers⟩

theorem Value.ordered_node? (v : Value) : ∀ n, v.node? print = some n → n.Ordered := by
  induction v using Value.induction with
  | null | bool | number | string =>
    intro n hn
    cases hn
    trivial
  | sequence items ih =>
    intro n hn
    obtain ⟨nodes, hnodes, rfl⟩ := Option.map_eq_some_iff.mp hn
    exact Node.ordered_sequence (ordered_of_itemNodes? ih hnodes)
  | mapping entries ih =>
    intro n hn
    obtain ⟨pairs, hpairs, rfl⟩ := Option.map_eq_some_iff.mp hn
    exact Node.ordered_mapping_entriesOf (ordered_of_entryNodes? (fun e he => (ih e he).2) hpairs)
  | tagged tag v ih => exact ih

end

/-- The document of a value; `none` if some key is no scalar. -/
def Value.document? (print : Number → String) (v : Value) : Option Document :=
  (v.node? print).attach.map fun n => { node := n.1, ordered := v.ordered_node? n.1 n.2 }

section
variable {print : Number → String} {v : Value}

theorem Value.document?_eq_some_iff {d : Document} :
    v.document? print = some d ↔ v.node? print = some d.node := by
  rw [document?, Option.map_eq_some_iff]
  constructor
  · intro h
    obtain ⟨n, _, rfl⟩ := h
    exact n.2
  · intro h
    exact ⟨⟨d.node, h⟩, Option.attach_eq_some_iff.mpr h, rfl⟩

theorem Value.document?_eq_none_iff : v.document? print = none ↔ v.node? print = none := by
  rw [document?, Option.map_eq_none_iff, Option.attach_eq_none_iff]

end

end TreeSchema.Yaml
