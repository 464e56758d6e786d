import TreeSchema.Proofs.DocumentValues
/-
  Trees of JSON and YAML values

  A YAML value that is a JSON value up to tags and the order of entries
  stands for the same tree (`Yaml.Mirrors.node?_eq`), if the integers in it
  are printed alike: tags are passed over, and entries with different keys
  come into their order in whatever order they are put there
  (`entriesOf_of_perm`).

  A YAML value stands for no tree just if some mapping in it has a key that is
  a container below its tags (`Yaml.Value.node?_eq_none_iff`). A container
  inside a key needs no case of its own, since the key is one itself.
-/

namespace TreeSchema

namespace Yaml

/-! ## Tags -/

namespace Value

/-- A value without the tags around it. -/
def bare : Value → Value
  | tagged _ v => v.bare
  | v => v

theorem node?_bare (print : Number → String) (v : Value) : v.bare.node? print = v.node? print := by
  induction v using Value.induction with
  | tagged tag v ih => exact ih
  | null | bool | number | string | sequence | mapping => rfl

theorem bare_ne_tagged (v : Value) (tag : String) (w : Value) : v.bare ≠ tagged tag w := by
  induction v using Value.induction with
  | tagged tag v ih => exact ih
  | null | bool | number | string | sequence | mapping => simp [bare]

/-- A sequence or a mapping, tags left aside. -/
def IsContainer (v : Value) : Prop :=
  (∃ items, v.bare = sequence items) ∨ ∃ entries, v.bare = mapping entries

/-- A value that stands for a tree stands for a scalar unless it is a
container. -/
theorem isContainer_iff_of_node? {print : Number → String} {v : Value} {n : Node}
    (h : v.node? print = some n) :
    v.IsContainer ↔ ∀ text, n ≠ .scalar text := by
  rw [← node?_bare] at h
  unfold IsContainer
  cases hbare : v.bare with
  | tagged tag w => exact absurd hbare (bare_ne_tagged v tag w)
  | sequence items =>
    rw [hbare, node?] at h
    obtain ⟨nodes, _, rfl⟩ := Option.map_eq_some_iff.mp h
    simp
  | mapping entries =>
    rw [hbare, node?] at h
    obtain ⟨pairs, _, rfl⟩ := Option.map_eq_some_iff.mp h
    simp
  | null | bool | number | string =>
    rw [hbare] at h
    cases h
    simp

end Value

/-! ## YAML values that are JSON values -/

/-- The YAML value is the JSON value, whose numbers are integers that are
allowed and whose objects have different keys, with the entries of each
mapping in any order and tags around any part. -/
inductive Mirrors (allowed : Int → Prop) : Json.Value → Value → Prop where
  | null : Mirrors allowed .null .null
  | bool (b : Bool) : Mirrors allowed (.bool b) (.bool b)
  | integer {n : Int} (h : allowed n) :
    Mirrors allowed (.number (.integer n)) (.number (.integer n))
  | string (s : String) : Mirrors allowed (.string s) (.string s)
  | array {items : List Json.Value} {values : List Value}
    (parts : List.Forall₂ (Mirrors allowed) items values) :
    Mirrors allowed (.array items) (.sequence values)
  | object {entries order : List (String × Json.Value)} {pairs : List (Value × Value)}
    (distinct : (entries.map Prod.fst).Nodup) (reordered : order.Perm entries)
    (keys : List.Forall₂ (fun e p => p.1.bare = .string e.1) order pairs)
    (values : List.Forall₂ (fun e p => Mirrors allowed e.2 p.2) order pairs) :
    Mirrors allowed (.object entries) (.mapping pairs)
  | tagged {j : Json.Value} {v : Value} (tag : String) (inner : Mirrors allowed j v) :
    Mirrors allowed j (.tagged tag v)

namespace Mirrors

section
variable {allowed : Int → Prop} {printJson : Json.Number → String} {printYaml : Number → String}

theorem bare {j : Json.Value} {v : Value} (h : Mirrors allowed j v) :
    Mirrors allowed j v.bare := by
  induction v using Value.induction with
  | tagged tag v ih =>
    cases h with
    | tagged _ inner => exact ih inner
  | null | bool | number | string | sequence | mapping => exact h

/-- Only values without tags around them need to be looked at. -/
theorem node?_of_bare {j : Json.Value} {v : Value} {n : Node} (h : Mirrors allowed j v)
    (hbare : ∀ w, Mirrors allowed j w → (∀ tag u, w ≠ .tagged tag u) →
      w.node? printYaml = some n) :
    v.node? printYaml = some n := by
  rw [← Value.node?_bare]
  exact hbare v.bare h.bare v.bare_ne_tagged

theorem forall₂_isEntry {order : List (String × Json.Value)} {pairs : List (Value × Value)}
    (ih : ∀ e ∈ order, ∀ v, Mirrors allowed e.2 v →
      v.node? printYaml = some (e.2.node printJson))
    (hkeys : List.Forall₂ (fun e p => p.1.bare = .string e.1) order pairs)
    (hvalues : List.Forall₂ (fun e p => Mirrors allowed e.2 p.2) order pairs) :
    List.Forall₂ (IsEntry printYaml) pairs (order.map fun e => (e.1, e.2.node printJson)) := by
  have hboth := (List.forall₂_and_left _ _).mpr ⟨ih, hvalues⟩
  rw [List.forall₂_map_right_iff]
  refine List.Forall₂.flip (List.Forall₂.mp (fun e p hkey hvalue => ?_) hkeys hboth)
  refine ⟨?_, hvalue.1 p.2 hvalue.2⟩
  rw [← Value.node?_bare, hkey]
  rfl

/-- A YAML value that is a JSON value up to tags and order stands for the same
tree. -/
theorem node?_eq (halike : ∀ n, allowed n → printJson (.integer n) = printYaml (.integer n))
    {j : Json.Value} {v : Value} (h : Mirrors allowed j v) :
    v.node? printYaml = some (j.node printJson) := by
  induction j using Json.Value.induction generalizing v with
  | null | bool | string =>
    refine h.node?_of_bare fun w hw hne => ?_
    cases hw with
    | tagged tag _ => exact absurd rfl (hne tag _)
    | _ => rfl
  | number m =>
    refine h.node?_of_bare fun w hw hne => ?_
    cases hw with
    | tagged tag _ => exact absurd rfl (hne tag _)
    | integer hallowed => rw [Value.node?, Json.Value.node, halike _ hallowed]
  | array items ih =>
    refine h.node?_of_bare fun w hw hne => ?_
    cases hw with
    | tagged tag _ => exact absurd rfl (hne tag _)
    | @array _ values parts =>
      have hitems : ∀ j ∈ items, ∀ v, Mirrors allowed j v →
          v.node? printYaml = some (j.node printJson) :=
        fun j hj v => ih j hj
      have hboth := (List.forall₂_and_left _ _).mpr ⟨hitems, parts⟩
      have hnodes : itemNodes? printYaml values = some (items.map (Json.Value.node printJson)) := by
        rw [itemNodes?_eq_some_iff, List.forall₂_map_right_iff]
        exact List.Forall₂.flip (hboth.imp fun j v hv => hv.1 v hv.2)
      rw [Value.node?, hnodes, Json.Value.node, Json.itemNodes_eq_map]
      rfl
  | object entries ih =>
    refine h.node?_of_bare fun w hw hne => ?_
    cases hw with
    | tagged tag _ => exact absurd rfl (hne tag _)
    | @object _ order pairs distinct reordered keys values =>
      have hpairs : entryNodes? printYaml pairs
          = some (order.map fun e => (e.1, e.2.node printJson)) := by
        refine entryNodes?_eq_some_iff.mpr (forall₂_isEntry (fun e he v => ?_) keys values)
        exact ih e (reordered.mem_iff.mp he)
      have hsame : entriesOf (order.map fun e => (e.1, e.2.node printJson))
          = entriesOf (entries.map fun e => (e.1, e.2.node printJson)) := by
        apply entriesOf_of_perm (reordered.map _)
        rw [List.map_map]
        exact (reordered.map Prod.fst).nodup_iff.mpr distinct
      rw [Value.node?, hpairs, Json.Value.node, Json.entryNodes_eq_map, ← hsame]
      rfl

end

end Mirrors

/-! ## Values that stand for no tree -/

/-- The part is the value itself or stands somewhere in it: in an item, a key
or a value of a mapping, or below a tag. -/
inductive Value.Within (part : Value) : Value → Prop where
  | self : Within part part
  | item {v : Value} {items : List Value} (mem : v ∈ items) (inner : Within part v) :
    Within part (.sequence items)
  | key {e : Value × Value} {entries : List (Value × Value)} (mem : e ∈ entries)
    (inner : Within part e.1) : Within part (.mapping entries)
  | value {e : Value × Value} {entries : List (Value × Value)} (mem : e ∈ entries)
    (inner : Within part e.2) : Within part (.mapping entries)
  | tagged {v : Value} (tag : String) (inner : Within part v) : Within part (.tagged tag v)

namespace Value

/-- Some mapping in the value has a key that is a container. -/
def HasContainerKey (v : Value) : Prop :=
  ∃ entries e, Within (mapping entries) v ∧ e ∈ entries ∧ e.1.IsContainer

theorem hasContainerKey_sequence (items : List Value) :
    (sequence items).HasContainerKey ↔ ∃ v ∈ items, v.HasContainerKey := by
  constructor
  · intro h
    obtain ⟨entries, e, hwithin, he⟩ := h
    cases hwithin with
    | item mem inner => exact ⟨_, mem, entries, e, inner, he⟩
  · intro h
    obtain ⟨v, hv, entries, e, hwithin, he⟩ := h
    exact ⟨entries, e, .item hv hwithin, he⟩

theorem hasContainerKey_mapping (entries : List (Value × Value)) :
    (mapping entries).HasContainerKey ↔
      ∃ e ∈ entries, e.1.IsContainer ∨ e.1.HasContainerKey ∨ e.2.HasContainerKey := by
  constructor
  · intro h
    obtain ⟨others, f, hwithin, hf⟩ := h
    cases hwithin with
    | self => exact ⟨f, hf.1, Or.inl hf.2⟩
    | key mem inner => exact ⟨_, mem, Or.inr (Or.inl ⟨others, f, inner, hf⟩)⟩
    | value mem inner => exact ⟨_, mem, Or.inr (Or.inr ⟨others, f, inner, hf⟩)⟩
  · intro h
    obtain ⟨e, he, hkey | ⟨others, f, hwithin, hf⟩ | ⟨others, f, hwithin, hf⟩⟩ := h
    · exact ⟨entries, e, .self, he, hkey⟩
    · exact ⟨others, f, .key he hwithin, hf⟩
    · exact ⟨others, f, .value he hwithin, hf⟩

theorem hasContainerKey_tagged (tag : String) (v : Value) :
    (tagged tag v).HasContainerKey ↔ v.HasContainerKey := by
  constructor
  · intro h
    obtain ⟨entries, e, hwithin, he⟩ := h
    cases hwithin with
    | tagged _ inner => exact ⟨entries, e, inner, he⟩
  · intro h
    obtain ⟨entries, e, hwithin, he⟩ := h
    exact ⟨entries, e, .tagged tag hwithin, he⟩

/-- Nothing stands in a value that is neither a container nor tagged. -/
theorem not_hasContainerKey {v : Value} (hplain : ¬ v.IsContainer)
    (htag : ∀ tag w, v ≠ tagged tag w) : ¬ v.HasContainerKey := by
  rintro ⟨entries, e, hwithin, _⟩
  cases hwithin with
  | self => exact hplain (Or.inr ⟨entries, rfl⟩)
  | item => exact hplain (Or.inl ⟨_, rfl⟩)
  | key => exact hplain (Or.inr ⟨_, rfl⟩)
  | value => exact hplain (Or.inr ⟨_, rfl⟩)
  | tagged tag => exact htag tag _ rfl

section
variable (print : Number → String)

/-- A sequence stands for no tree if an item does not. -/
theorem node?_sequence_eq_none_iff (items : List Value) :
    (sequence items).node? print = none ↔ ∃ v ∈ items, v.node? print = none := by
  rw [node?, Option.map_eq_none_iff]
  induction items with
  | nil => simp [itemNodes?]
  | cons v rest ih =>
    rw [List.exists_mem_cons_iff, ← ih, itemNodes?]
    cases hv : v.node? print with
    | none => simp
    | some n => cases hrest : itemNodes? print rest <;> simp

/-- A mapping stands for no tree if a key or a value does not, or if a key
stands for a container. -/
theorem node?_mapping_eq_none_iff (entries : List (Value × Value)) :
    (mapping entries).node? print = none ↔
      ∃ e ∈ entries, e.1.IsContainer ∨ e.1.node? print = none ∨ e.2.node? print = none := by
  rw [node?, Option.map_eq_none_iff]
  induction entries with
  | nil => simp [entryNodes?]
  | cons e rest ih =>
    rw [List.exists_mem_cons_iff, ← ih, entryNodes?]
    cases hkey : e.1.node? print with
    | none => simp
    | some key =>
      rw [isContainer_iff_of_node? hkey]
      cases key with
      | scalar text =>
        cases hv : e.2.node? print with
        | none => simp
        | some n => cases hrest : entryNodes? print rest <;> simp
      | sequence items => simp
      | mapping pairs => simp

/-- A value stands for no tree just if a mapping in it has a key that is a
container. -/
theorem node?_eq_none_iff (v : Value) : v.node? print = none ↔ v.HasContainerKey := by
  induction v using Value.induction with
  | null | bool | number | string =>
    exact iff_of_false (by simp [node?])
      (not_hasContainerKey (by simp [IsContainer, bare]) (by simp))
  | sequence items ih =>
    rw [node?_sequence_eq_none_iff, hasContainerKey_sequence]
    exact exists_congr fun v => and_congr_right fun hv => ih v hv
  | mapping entries ih =>
    rw [node?_mapping_eq_none_iff, hasContainerKey_mapping]
    refine exists_congr fun e => and_congr_right fun he => ?_
    rw [(ih e he).1, (ih e he).2]
  | tagged tag v ih =>
    rw [hasContainerKey_tagged, ← ih]
    rfl

end

end Value

/-- A YAML value that is a JSON value up to tags and the order of entries
stands for the document of the JSON value, if the integers in it are printed
alike; and a YAML value stands for no document just if some mapping in it, at
any depth, has a key that is a sequence or a mapping below its tags. -/
theorem formats_agree {allowed : Int → Prop} {printJson : Json.Number → String}
    {printYaml : Number → String}
    (halike : ∀ n, allowed n → printJson (.integer n) = printYaml (.integer n))
    (j : Json.Value) (v : Value) :
    (Mirrors allowed j v → v.document? printYaml = some (j.document printJson)) ∧
      (v.document? printYaml = none ↔
        ∃ entries e, Value.Within (.mapping entries) v ∧ e ∈ entries ∧
          ((∃ items, e.1.bare = .sequence items) ∨ ∃ others, e.1.bare = .mapping others)) := by
  constructor
  · intro h
    exact Value.document?_eq_some_iff.mpr (h.node?_eq halike)
  · rw [Value.document?_eq_none_iff]
    exact v.node?_eq_none_iff printYaml

/-- The integers of 64 bits, with a sign or without. -/
def IsWord (n : Int) : Prop := -(Nat.pow 2 63 : Nat) ≤ n ∧ n < (Nat.pow 2 64 : Nat)

theorem swapped_formats_agree :
    (Value.mapping
      [(.tagged "!k" (.string "b"), .tagged "!t" (.bool true)),
       (.string "a", .sequence [.null, .tagged "!n" (.number (.integer (-9223372036854775808)))])]).document?
          Number.text
        = some ((Json.Value.object
            [("a", .array [.null, .number (.integer (-9223372036854775808))]), ("b", .bool true)]).document
          Json.Number.text) ∧
      (Value.sequence
        [.tagged "!t" (.mapping [(.tagged "!s" (.sequence []), .null)])]).document? Number.text
          = none := by
  have halike : ∀ n, IsWord n → Json.Number.text (.integer n) = Number.text (.integer n) :=
    fun _ _ => rfl
  constructor
  · refine (formats_agree halike _ _).1 (.object (by decide) (List.Perm.swap _ _ _) ?_ ?_)
    · exact .cons rfl (.cons rfl .nil)
    · refine .cons (.tagged _ (.bool true)) (.cons (.array ?_) .nil)
      exact .cons .null (.cons (.tagged _ (.integer (by unfold IsWord; decide))) .nil)
  · refine (formats_agree halike .null _).2.mpr ⟨[(.tagged "!s" (.sequence []), .null)], _, ?_,
      List.mem_singleton_self _, Or.inl ⟨[], rfl⟩⟩
    exact .item (List.mem_singleton_self _) (.tagged _ .self)

end Yaml

end TreeSchema
