import Mathlib.Data.List.Forall2
import TreeSchema.Proofs.Conformance
import TreeSchema.Proofs.Declaration
import TreeSchema.Proofs.Repeats
/-
  Assembly

  What a declaration asks of a tree, read off its items, and the entity that
  assembly makes of it. The entity asks the same (`similar_of_entity`), its
  names are names, its literals are not empty and distinct, and the keys of a
  mapping are distinct (`proper_of_entity`).
-/

namespace TreeSchema.Schema

/-- An entity by kind and name. -/
structure Reference where
  kind : Kind
  name : String
  deriving DecidableEq, Repr

namespace Item

def literal? : Item → Option String
  | literal value => some value
  | _ => none

/-- The entity that a plain reference names. -/
def member? : Item → Option Reference
  | reference kind name => some ⟨kind, name⟩
  | _ => none

/-- The key of a mapping member and the entity under it. -/
def entry? : Item → Option (String × Reference)
  | reference kind name => some (name, ⟨kind, name⟩)
  | aliased kind key target => some (key, ⟨kind, target⟩)
  | _ => none

end Item

/-- What a declaration with this kind and these items asks of a tree. -/
def patternOf (kind : Kind) (items : List Item) : Pattern Reference :=
  match kind with
  | .scalar =>
    if items = [] ∨ Item.text ∈ items then .anyScalar else .oneOf (items.filterMap Item.literal?)
  | .array => .array (items.filterMap Item.member?)
  | .mapping => .mapping (items.filterMap Item.entry?)

/-- The items that declare an entity; none if nothing declares it. -/
def itemsDeclaring (ds : List Declaration) (r : Reference) : List Item :=
  ((ds.find? fun d => d.kind = r.kind ∧ d.name = r.name).map Declaration.items).getD []

/-- What declarations ask of a tree under each name. -/
def declaredMeaning (ds : List Declaration) (r : Reference) : Pattern Reference :=
  patternOf r.kind (itemsDeclaring ds r)

/-! ## Items of one declaration -/

theorem literalsOf_eq_ok_iff {name : String} {known values : List String} {items : List Item} :
    literalsOf name known items = .ok values ↔
      (∀ item ∈ items, item = .text ∨ ∃ value, item = .literal value) ∧
        values = (items.filterMap Item.literal?).foldl addNew known := by
  induction items generalizing known with
  | nil =>
    rw [literalsOf, Except.ok.injEq]
    exact ⟨fun h => ⟨fun _ hi => absurd hi List.not_mem_nil, h.symm⟩, fun h => h.2.symm⟩
  | cons item rest ih =>
    cases item with
    | text => simp [literalsOf, ih, List.filterMap_cons, Item.literal?]
    | literal value => simp [literalsOf, ih, Item.literal?]
    | reference kind name => simp [literalsOf]
    | aliased kind key target => simp [literalsOf]

/-- The array member that names an entity. -/
def Reference.arrayMember (r : Reference) : MemberSpec :=
  { kind := r.kind, name := r.name, key := none }

def Reference.keyedMember (key : String) (r : Reference) : MemberSpec :=
  { kind := r.kind, name := r.name, key := some key }

theorem arrayMembersOf_eq_ok_iff {name : String} {known members : List MemberSpec}
    {items : List Item} :
    arrayMembersOf name known items = .ok members ↔
      (∀ item ∈ items, item.member?.isSome) ∧
        members
          = ((items.filterMap Item.member?).map Reference.arrayMember).foldl addNew known := by
  induction items generalizing known with
  | nil =>
    rw [arrayMembersOf, Except.ok.injEq]
    exact ⟨fun h => ⟨fun _ hi => absurd hi List.not_mem_nil, h.symm⟩, fun h => h.2.symm⟩
  | cons item rest ih =>
    cases item with
    | reference kind name => simp [arrayMembersOf, ih, Item.member?, Reference.arrayMember]
    | text => simp [arrayMembersOf, Item.member?]
    | literal value => simp [arrayMembersOf, Item.member?]
    | aliased kind key target => simp [arrayMembersOf, Item.member?]

theorem keyedMember?_eq (item : Item) :
    keyedMember? item = item.entry?.map (fun e => (e.1, e.2.keyedMember e.1)) := by
  cases item <;> rfl

theorem mappingMembersOf_eq_ok_iff {name : String} {known members : List MemberSpec}
    {items : List Item} (hknown : (known.map MemberSpec.key).Nodup) :
    mappingMembersOf name known items = .ok members ↔
      (∀ item ∈ items, item.entry?.isSome) ∧
        members = known ++ (items.filterMap Item.entry?).map (fun e => e.2.keyedMember e.1) ∧
        (members.map MemberSpec.key).Nodup := by
  induction items generalizing known with
  | nil =>
    simp only [mappingMembersOf, Except.ok.injEq, List.not_mem_nil, false_implies, implies_true,
      List.filterMap_nil, List.map_nil, List.append_nil, true_and]
    constructor
    · rintro rfl
      exact ⟨rfl, hknown⟩
    · rintro ⟨rfl, _⟩
      rfl
  | cons item rest ih =>
    rw [mappingMembersOf, keyedMember?_eq]
    cases he : item.entry? with
    | none => simp [he]
    | some e =>
      obtain ⟨key, r⟩ := e
      simp only [Option.map_some, List.mem_cons, forall_eq_or_imp, he, Option.isSome_some, true_and,
        List.filterMap_cons_some he, List.map_cons]
      by_cases hkey : known.any (fun m => m.key == some key) = true
      · rw [if_pos hkey]
        obtain ⟨m, hm, hmk⟩ := List.any_eq_true.mp hkey
        constructor
        · intro h
          cases h
        · rintro ⟨_, rfl, hnodup⟩
          -- The key stands among the known members and again at the head of the others.
          rw [List.map_append] at hnodup
          refine absurd ((List.nodup_append.mp hnodup).2.2 m.key (List.mem_map_of_mem hm)
            (some key) (by simp [Reference.keyedMember])) ?_
          simp [beq_iff_eq.mp hmk]
      · rw [if_neg hkey]
        have hnext : ((known ++ [r.keyedMember key]).map MemberSpec.key).Nodup := by
          rw [List.map_append]
          refine List.nodup_append.mpr ⟨hknown, by simp, ?_⟩
          rintro k hk k' hk' rfl
          obtain ⟨m, hm, rfl⟩ := List.mem_map.mp hk
          apply hkey
          rw [List.any_eq_true]
          exact ⟨m, hm, by simpa [Reference.keyedMember] using hk'⟩
        rw [ih hnext, List.append_assoc, List.singleton_append]

/-! ## The shape of one declaration -/

def MemberSpec.reference (m : MemberSpec) : Reference := ⟨m.kind, m.name⟩

namespace Shape

/-- What a shape asks of a tree. -/
def pattern : Shape → Pattern Reference
  | anyScalar => .anyScalar
  | oneOf values => .oneOf values
  | array members => .array (members.map MemberSpec.reference)
  | mapping members => .mapping (members.filterMap fun m => m.key.map fun key => (key, m.reference))

/-- The names in a shape are names, a choice of literals is not empty and has
no repeats, and the members of a mapping have keys, each its own. -/
def Proper : Shape → Prop
  | anyScalar => True
  | oneOf values => values ≠ [] ∧ values.Nodup
  | array members => ∀ m ∈ members, IsName m.name
  | mapping members =>
    (∀ m ∈ members, IsName m.name ∧ m.key.isSome) ∧ (members.map MemberSpec.key).Nodup

theorem Proper.isName {s : Shape} (h : s.Proper) {m : MemberSpec} (hm : m ∈ s.members) :
    IsName m.name := by
  cases s with
  | anyScalar => cases hm
  | oneOf values => cases hm
  | array members => exact h m hm
  | mapping members => exact (h.1 m hm).1

end Shape

namespace Declaration
variable {d : Declaration} {s : Shape}

theorem shape_scalar_iff (hk : d.kind = .scalar) :
    d.shape = .ok s ↔
      (∀ item ∈ d.items, item = .text ∨ ∃ value, item = .literal value) ∧
        s = if d.items = [] ∨ Item.text ∈ d.items then .anyScalar
          else .oneOf ((d.items.filterMap Item.literal?).foldl addNew []) := by
  rw [shape, hk]
  dsimp only
  rw [bind_eq_ok_iff]
  constructor
  · rintro ⟨values, hvalues, h⟩
    obtain ⟨hitems, rfl⟩ := literalsOf_eq_ok_iff.mp hvalues
    refine ⟨hitems, ?_⟩
    rw [← Except.ok.inj h]
    simp
  · rintro ⟨hitems, rfl⟩
    refine ⟨_, literalsOf_eq_ok_iff.mpr ⟨hitems, rfl⟩, ?_⟩
    simp [pure, Except.pure]

theorem shape_array_iff (hk : d.kind = .array) :
    d.shape = .ok s ↔
      (∀ item ∈ d.items, item.member?.isSome) ∧
        s = .array (((d.items.filterMap Item.member?).map Reference.arrayMember).foldl
          addNew []) := by
  rw [shape, hk]
  dsimp only
  rw [map_eq_ok_iff]
  constructor
  · rintro ⟨members, hmembers, rfl⟩
    obtain ⟨hitems, rfl⟩ := arrayMembersOf_eq_ok_iff.mp hmembers
    exact ⟨hitems, rfl⟩
  · rintro ⟨hitems, rfl⟩
    exact ⟨_, arrayMembersOf_eq_ok_iff.mpr ⟨hitems, rfl⟩, rfl⟩

theorem shape_mapping_iff (hk : d.kind = .mapping) :
    d.shape = .ok s ↔
      ∃ members, s = .mapping members ∧
        (∀ item ∈ d.items, item.entry?.isSome) ∧
        members = (d.items.filterMap Item.entry?).map (fun e => e.2.keyedMember e.1) ∧
        (members.map MemberSpec.key).Nodup := by
  rw [shape, hk]
  dsimp only
  rw [map_eq_ok_iff]
  constructor
  · rintro ⟨members, hmembers, rfl⟩
    exact ⟨members, rfl, (mappingMembersOf_eq_ok_iff (by simp)).mp hmembers⟩
  · rintro ⟨members, rfl, hmembers⟩
    exact ⟨members, (mappingMembersOf_eq_ok_iff (by simp)).mpr hmembers, rfl⟩

theorem kind_of_shape (h : d.shape = .ok s) : s.kind = d.kind := by
  cases hk : d.kind with
  | scalar =>
    rw [((shape_scalar_iff hk).mp h).2]
    split <;> rfl
  | array => rw [((shape_array_iff hk).mp h).2]; rfl
  | mapping =>
    obtain ⟨members, rfl, _⟩ := (shape_mapping_iff hk).mp h
    rfl

/-- The shape of a declaration asks what its items say. -/
theorem similar_of_shape (h : d.shape = .ok s) :
    s.pattern.Similar Eq (patternOf d.kind d.items) := by
  cases hk : d.kind with
  | scalar =>
    obtain ⟨_, rfl⟩ := (shape_scalar_iff hk).mp h
    unfold patternOf
    dsimp only
    split
    · exact .anyScalar
    · exact .oneOf (fun x => by rw [mem_foldl_addNew]; simp)
  | array =>
    obtain ⟨_, rfl⟩ := (shape_array_iff hk).mp h
    have hmem : ∀ r, r ∈ (((d.items.filterMap Item.member?).map Reference.arrayMember).foldl
        addNew []).map MemberSpec.reference ↔ r ∈ d.items.filterMap Item.member? := by
      intro r
      simp only [List.mem_map, mem_foldl_addNew, List.not_mem_nil, false_or]
      constructor
      · rintro ⟨m, ⟨r, hr, rfl⟩, rfl⟩
        exact hr
      · intro hr
        exact ⟨_, ⟨r, hr, rfl⟩, rfl⟩
    exact .array (fun r hr => ⟨r, (hmem r).mp hr, rfl⟩) (fun r hr => ⟨r, (hmem r).mpr hr, rfl⟩)
  | mapping =>
    obtain ⟨members, rfl, _, rfl, _⟩ := (shape_mapping_iff hk).mp h
    have hentries : ((d.items.filterMap Item.entry?).map (fun e => e.2.keyedMember e.1)).filterMap
        (fun m => m.key.map fun key => (key, m.reference)) = d.items.filterMap Item.entry? := by
      rw [List.filterMap_map]
      exact List.filterMap_some
    unfold Shape.pattern patternOf
    dsimp only
    rw [hentries]
    exact .mapping (fun e he => ⟨e, he, rfl, rfl⟩) (fun e he => ⟨e, he, rfl, rfl⟩)

/-- Where there is an item and none is a text, there is a literal. -/
theorem exists_literal {items : List Item}
    (hitems : ∀ item ∈ items, item = .text ∨ ∃ value, item = .literal value)
    (hne : ¬ (items = [] ∨ Item.text ∈ items)) : ∃ value, value ∈ items.filterMap Item.literal? := by
  obtain ⟨hitem, htext⟩ := not_or.mp hne
  obtain ⟨item, hmem⟩ := List.exists_mem_of_ne_nil _ hitem
  rcases hitems item hmem with rfl | ⟨value, rfl⟩
  · exact absurd hmem htext
  · exact ⟨value, List.mem_filterMap.mpr ⟨_, hmem, rfl⟩⟩

theorem proper_of_shape (hd : d.Named) (h : d.shape = .ok s) : s.Proper := by
  cases hk : d.kind with
  | scalar =>
    obtain ⟨hitems, rfl⟩ := (shape_scalar_iff hk).mp h
    split
    · trivial
    · next hne =>
      refine ⟨?_, nodup_foldl_addNew List.nodup_nil _⟩
      obtain ⟨value, hvalue⟩ := exists_literal hitems hne
      apply List.ne_nil_of_mem (a := value)
      rw [mem_foldl_addNew]
      exact Or.inr hvalue
  | array =>
    obtain ⟨_, rfl⟩ := (shape_array_iff hk).mp h
    intro m hm
    rw [mem_foldl_addNew] at hm
    obtain ⟨r, hr, rfl⟩ := List.mem_map.mp (hm.resolve_left List.not_mem_nil)
    obtain ⟨item, hitem, hr⟩ := List.mem_filterMap.mp hr
    have hnamed := hd.items item hitem
    cases item <;> cases hr
    exact hnamed
  | mapping =>
    obtain ⟨members, rfl, _, rfl, hnodup⟩ := (shape_mapping_iff hk).mp h
    refine ⟨?_, hnodup⟩
    intro m hm
    obtain ⟨e, he, rfl⟩ := List.mem_map.mp hm
    obtain ⟨item, hitem, he⟩ := List.mem_filterMap.mp he
    refine ⟨?_, rfl⟩
    have hnamed := hd.items item hitem
    cases item <;> cases he
    · exact hnamed
    · exact hnamed.2

end Declaration

/-! ## The entities of a schema -/

namespace Entity

def reference (e : Entity) : Reference := ⟨e.kind, e.name⟩

/-- Its name is a name and its shape is proper. -/
def Proper (e : Entity) : Prop := IsName e.name ∧ e.shape.Proper

end Entity

def Declaration.reference (d : Declaration) : Reference := ⟨d.kind, d.name⟩

theorem Declaration.entity_eq_ok_iff {file : String} {d : Declaration} {e : Entity} :
    d.entity file = .ok e ↔
      ∃ s, d.shape = .ok s ∧ e = { name := d.name, shape := s, line := some d.line } := by
  unfold entity
  cases d.shape with
  | error fault => simp
  | ok s => simp [eq_comm]

theorem assemble_eq_ok_iff {file : String} {ds : List Declaration} {es : List Entity} :
    assemble file ds = .ok es ↔ List.Forall₂ (fun d e => d.entity file = .ok e) ds es := by
  induction ds generalizing es with
  | nil =>
    rw [assemble, List.forall₂_nil_left_iff, Except.ok.injEq]
    exact eq_comm
  | cons d rest ih =>
    rw [assemble, bind_eq_ok_iff, List.forall₂_cons_left_iff]
    constructor
    · rintro ⟨e, he, h⟩
      obtain ⟨others, hothers, h⟩ := bind_eq_ok_iff.mp h
      cases h
      exact ⟨e, others, he, ih.mp hothers, rfl⟩
    · rintro ⟨e, others, he, hothers, rfl⟩
      exact ⟨e, he, bind_eq_ok_iff.mpr ⟨others, ih.mpr hothers, rfl⟩⟩

namespace Declaration
variable {file : String} {d : Declaration} {e : Entity}

theorem reference_of_entity (h : d.entity file = .ok e) : e.reference = d.reference := by
  obtain ⟨s, hs, rfl⟩ := entity_eq_ok_iff.mp h
  exact congrArg (Reference.mk · d.name) (kind_of_shape hs)

/-- The entity a declaration declares asks what its items say. -/
theorem similar_of_entity (h : d.entity file = .ok e) :
    e.shape.pattern.Similar Eq (patternOf d.kind d.items) := by
  obtain ⟨s, hs, rfl⟩ := entity_eq_ok_iff.mp h
  exact similar_of_shape hs

theorem proper_of_entity (hd : d.Named) (h : d.entity file = .ok e) : e.Proper := by
  obtain ⟨s, hs, rfl⟩ := entity_eq_ok_iff.mp h
  exact ⟨hd.name, proper_of_shape hd hs⟩

end Declaration

end TreeSchema.Schema
