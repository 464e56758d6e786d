import TreeSchema.Proofs.Assembly
import TreeSchema.Schema.Compile
/-
  Resolution

  Closing a symbol table adds the references it meets one after another, each
  unless something goes by its kind and name already. What is declared stays
  where it is, the list of entities and its index go on agreeing, so that
  kinds and names stay distinct, and every member points at the entity it
  refers to (`closes_of_resolve`).

  What a resolved schema asks of a tree, entities being named by their
  places, is what the declarations ask under kinds and names
  (`similar_declaredMeaning`).
-/

namespace TreeSchema.Schema

def Reference.anonymous (r : Reference) : Entity := .anonymous r.kind r.name

@[simp] theorem reference_anonymous (r : Reference) : r.anonymous.reference = r := by
  simp [Reference.anonymous, Entity.anonymous, Entity.reference, Entity.kind]

theorem isCalled_iff {e : Entity} {kind : Kind} {name : String} :
    e.isCalled kind name = true ↔ e.reference = ⟨kind, name⟩ := by
  simp [Entity.isCalled, Entity.reference]

namespace SymbolTable

/-- The kinds and names that are taken, in the order of the table. -/
def references (t : SymbolTable) : List Reference := t.entities.map Entity.reference

/-- No kind and name is taken twice. -/
def Distinct (t : SymbolTable) : Prop := t.references.Nodup

/-- The index gives a place for a kind and name just if the entity there goes
by them. -/
def Agrees (t : SymbolTable) : Prop :=
  ∀ kind name id,
    t.lookup kind name = some id ↔ (t.get? id).map Entity.reference = some ⟨kind, name⟩

variable {t u : SymbolTable} {kind : Kind} {name : String} {id : Nat} {e : Entity}

theorem getElem?_references (t : SymbolTable) (id : Nat) :
    t.references[id]? = (t.get? id).map Entity.reference := by
  simp [references, get?]

namespace Agrees

theorem get?_of_lookup (ht : t.Agrees) (h : t.lookup kind name = some id) :
    (t.get? id).map Entity.reference = some ⟨kind, name⟩ :=
  (ht kind name id).mp h

theorem mem_references_of_lookup (ht : t.Agrees) (h : t.lookup kind name = some id) :
    ⟨kind, name⟩ ∈ t.references := by
  apply List.mem_of_getElem? (i := id)
  rw [getElem?_references, ht.get?_of_lookup h]

theorem lookup_eq_none_iff (ht : t.Agrees) :
    t.lookup kind name = none ↔ ⟨kind, name⟩ ∉ t.references := by
  constructor
  · intro h hmem
    obtain ⟨id, hid⟩ := List.mem_iff_getElem?.mp hmem
    rw [getElem?_references] at hid
    rw [(ht kind name id).mpr hid] at h
    cases h
  · intro hnot
    cases hl : t.lookup kind name with
    | none => rfl
    | some id => exact absurd (ht.mem_references_of_lookup hl) hnot

/-- Where the index gives one place, there is one entity. -/
theorem distinct (ht : t.Agrees) : t.Distinct := by
  rw [Distinct, List.nodup_iff_getElem?_ne_getElem?]
  intro i j hij hj heq
  obtain ⟨r, hr⟩ : ∃ r, t.references[j]? = some r := ⟨_, List.getElem?_eq_getElem hj⟩
  have hi : t.lookup r.kind r.name = some i := by
    rw [ht r.kind r.name i, ← getElem?_references, heq, hr]
  rw [(ht r.kind r.name j).mpr (by rw [← getElem?_references, hr])] at hi
  have : j = i := Option.some.inj hi
  omega

end Agrees

/-! ## Entering entities -/

@[simp] theorem entities_push (t : SymbolTable) (e : Entity) :
    (t.push e).entities = t.entities ++ [e] := rfl

theorem references_push (t : SymbolTable) (e : Entity) :
    (t.push e).references = t.references ++ [e.reference] := by
  simp [references]

theorem lookup_push (t : SymbolTable) (e : Entity) (kind : Kind) (name : String) :
    (t.push e).lookup kind name
      = if e.reference = ⟨kind, name⟩ then some t.size else t.lookup kind name := by
  unfold lookup push
  rw [List.lookup_cons]
  by_cases h : e.reference = ⟨kind, name⟩
  · obtain ⟨hkind, hname⟩ := Reference.mk.inj h
    simp [hkind, hname, h]
  · have hne : ((kind, name) == (e.kind, e.name)) = false := by
      rw [beq_eq_false_iff_ne]
      intro heq
      obtain ⟨hkind, hname⟩ := Prod.mk.inj heq
      exact h (by simp [Entity.reference, hkind, hname])
    simp [hne, h]

theorem get?_push (t : SymbolTable) (e : Entity) (id : Nat) :
    (t.push e).get? id = if id = t.size then some e else t.get? id := by
  unfold get? size
  rw [entities_push, List.getElem?_append]
  by_cases hlt : id < t.entities.length
  · rw [if_pos hlt, if_neg (by omega)]
  · rw [if_neg hlt, List.getElem?_eq_none (l := t.entities) (by omega)]
    by_cases heq : id = t.entities.length
    · simp [heq]
    · rw [if_neg heq, List.getElem?_eq_none]
      simp only [List.length_singleton]
      omega

/-- The list and the index go on agreeing when what is added is new. -/
theorem agrees_push (ht : t.Agrees) (hfresh : e.reference ∉ t.references) : (t.push e).Agrees := by
  intro kind name id
  rw [lookup_push, get?_push]
  by_cases hid : id = t.size
  · -- The new place has no other name.
    have hnone : t.get? t.size = none := List.getElem?_eq_none (Nat.le_refl _)
    rw [if_pos hid, Option.map_some, hid]
    by_cases href : e.reference = ⟨kind, name⟩
    · simp [href]
    · rw [if_neg href, ht kind name t.size, hnone]
      simp [href]
  · rw [if_neg hid]
    by_cases href : e.reference = ⟨kind, name⟩
    · -- The new name has no other place.
      rw [if_pos href]
      refine iff_of_false (fun h => hid (Option.some.inj h).symm) (fun h => hfresh ?_)
      rw [href]
      exact List.mem_of_getElem? (by rw [getElem?_references, h])
    · rw [if_neg href]
      exact ht kind name id

theorem agrees_empty : empty.Agrees := by
  intro kind name id
  simp [lookup, get?, empty]

theorem distinct_push_iff : (t.push e).Distinct ↔ t.Distinct ∧ e.reference ∉ t.references := by
  rw [Distinct, references_push, List.nodup_append]
  constructor
  · rintro ⟨ht, _, hne⟩
    exact ⟨ht, fun hmem => hne _ hmem _ (List.mem_singleton_self _) rfl⟩
  · rintro ⟨ht, hfresh⟩
    refine ⟨ht, by simp, ?_⟩
    rintro r hr r' hr' rfl
    exact hfresh (List.mem_singleton.mp hr' ▸ hr)

/-- The table into which entities have been entered one after another. -/
def holding (es : List Entity) : SymbolTable := es.foldl push empty

theorem entities_foldl_push (t : SymbolTable) (es : List Entity) :
    (es.foldl push t).entities = t.entities ++ es := by
  induction es generalizing t with
  | nil => simp
  | cons e rest ih => rw [List.foldl_cons, ih, entities_push, List.append_assoc,
      List.singleton_append]

@[simp] theorem entities_holding (es : List Entity) : (holding es).entities = es :=
  entities_foldl_push empty es

@[simp] theorem references_holding (es : List Entity) :
    (holding es).references = es.map Entity.reference := by
  rw [references, entities_holding]

theorem agrees_foldl_push {es : List Entity} (ht : t.Agrees)
    (hdistinct : (es.foldl push t).Distinct) : (es.foldl push t).Agrees := by
  induction es generalizing t with
  | nil => exact ht
  | cons e rest ih =>
    rw [List.foldl_cons] at hdistinct ⊢
    refine ih (agrees_push ht ?_) hdistinct
    -- What the final table holds once, it held once when it was entered.
    rw [Distinct, references, entities_foldl_push, List.map_append] at hdistinct
    exact (distinct_push_iff.mp (List.nodup_append.mp hdistinct).1).2

theorem agrees_holding {es : List Entity} (h : (es.map Entity.reference).Nodup) :
    (holding es).Agrees := by
  apply agrees_foldl_push agrees_empty
  show (holding es).references.Nodup
  rw [references_holding]
  exact h

/-- Entities are entered as they come, as long as their kinds and names are
new. -/
theorem pushAll_eq_ok_iff {file : String} {es : List Entity} (ht : t.Agrees) :
    t.pushAll file es = .ok u ↔ u = es.foldl push t ∧ u.Distinct := by
  induction es generalizing t with
  | nil =>
    rw [pushAll, Except.ok.injEq, List.foldl_nil]
    constructor
    · rintro rfl
      exact ⟨rfl, ht.distinct⟩
    · rintro ⟨rfl, _⟩
      rfl
  | cons e rest ih =>
    rw [pushAll, List.foldl_cons]
    cases hl : t.lookup e.kind e.name with
    | none =>
      have hfresh : e.reference ∉ t.references := ht.lookup_eq_none_iff.mp hl
      exact ih (agrees_push ht hfresh)
    | some first =>
      constructor
      · intro h
        cases h
      · rintro ⟨rfl, hu⟩
        -- The table would hold the kind and name twice.
        have hmem : e.reference ∈ t.references := ht.mem_references_of_lookup hl
        rw [Distinct, references, entities_foldl_push, List.map_append] at hu
        exact absurd hmem (distinct_push_iff.mp (List.nodup_append.mp hu).1).2

theorem ofEntities_eq_ok_iff {file : String} {es : List Entity} :
    ofEntities file es = .ok t ↔ t = holding es ∧ (es.map Entity.reference).Nodup := by
  rw [ofEntities, pushAll_eq_ok_iff agrees_empty, ← holding]
  constructor
  · rintro ⟨rfl, hd⟩
    exact ⟨rfl, references_holding es ▸ hd⟩
  · rintro ⟨rfl, hd⟩
    exact ⟨rfl, (agrees_holding hd).distinct⟩

/-! ## Adding references -/

/-- The table with an anonymous entity for the reference, if it has none. -/
def addReference (t : SymbolTable) (r : Reference) : SymbolTable :=
  if r ∈ t.references then t else t.push r.anonymous

/-- The member points at the entity that is referred to. -/
def Resolves (t : SymbolTable) (spec : MemberSpec) (m : Member) : Prop :=
  (t.get? m.target).map Entity.reference = some spec.reference ∧ m.key = spec.key

theorem agrees_addReference (ht : t.Agrees) (r : Reference) : (t.addReference r).Agrees := by
  unfold addReference
  split
  · exact ht
  · next hr => exact agrees_push ht (by rwa [reference_anonymous])

theorem resolveSpec_spec (ht : t.Agrees) (spec : MemberSpec) :
    (t.resolveSpec spec).1 = t.addReference spec.reference ∧
      (t.addReference spec.reference).Resolves spec (t.resolveSpec spec).2 := by
  unfold resolveSpec addReference
  cases hl : t.lookup spec.kind spec.name with
  | some id =>
    have hmem : spec.reference ∈ t.references := ht.mem_references_of_lookup hl
    rw [if_pos hmem]
    exact ⟨rfl, ht.get?_of_lookup hl, rfl⟩
  | none =>
    have hfresh : spec.reference ∉ t.references := ht.lookup_eq_none_iff.mp hl
    rw [if_neg hfresh]
    refine ⟨rfl, ?_, rfl⟩
    simp [get?, size, Reference.anonymous, MemberSpec.reference, Entity.anonymous,
      Entity.reference, Entity.kind]

/-- The closed table is the table followed by an anonymous entity for each
reference that is not taken, in order and without repeats. -/
theorem entities_foldl_addReference (t : SymbolTable) (rs : List Reference) :
    (rs.foldl addReference t).entities
      = t.entities ++ ((rs.filter (fun r => r ∉ t.references)).eraseDups).map
          Reference.anonymous := by
  induction rs generalizing t with
  | nil => simp
  | cons r rest ih =>
    rw [List.foldl_cons, ih]
    by_cases hr : r ∈ t.references
    · simp [addReference, hr]
    · have hpush : t.addReference r = t.push r.anonymous := if_neg hr
      rw [hpush, references_push, reference_anonymous, filter_not_mem_append,
        List.filter_cons_of_pos (by simpa using hr), List.eraseDups_cons, List.map_cons,
        entities_push, List.append_assoc, List.singleton_append]

theorem prefix_foldl_addReference (t : SymbolTable) (rs : List Reference) :
    t.entities <+: (rs.foldl addReference t).entities := by
  rw [entities_foldl_addReference]
  exact List.prefix_append _ _

theorem agrees_foldl_addReference (ht : t.Agrees) (rs : List Reference) :
    (rs.foldl addReference t).Agrees := by
  induction rs generalizing t with
  | nil => exact ht
  | cons r rest ih => exact ih (agrees_addReference ht r)

theorem get?_of_extends (hp : t.entities <+: u.entities) (h : t.get? id = some e) :
    u.get? id = some e := by
  obtain ⟨more, hmore⟩ := hp
  rw [get?, ← hmore, List.getElem?_append_left (List.getElem?_eq_some_iff.mp h).1]
  exact h

theorem Resolves.of_extends {spec : MemberSpec} {m : Member} (hp : t.entities <+: u.entities)
    (h : t.Resolves spec m) : u.Resolves spec m := by
  refine ⟨?_, h.2⟩
  obtain ⟨e, he, href⟩ := Option.map_eq_some_iff.mp h.1
  rw [get?_of_extends hp he, Option.map_some, href]

theorem resolveSpecs_spec (ht : t.Agrees) (specs : List MemberSpec) :
    (t.resolveSpecs specs).1 = (specs.map MemberSpec.reference).foldl addReference t ∧
      ∀ u : SymbolTable, (t.resolveSpecs specs).1.entities <+: u.entities →
        List.Forall₂ u.Resolves specs (t.resolveSpecs specs).2 := by
  induction specs generalizing t with
  | nil => exact ⟨rfl, fun u _ => .nil⟩
  | cons spec rest ih =>
    obtain ⟨hstep, hres⟩ := resolveSpec_spec ht spec
    obtain ⟨hrest, hall⟩ := ih (agrees_addReference ht spec.reference)
    have hfst : (t.resolveSpecs (spec :: rest)).1
        = ((t.addReference spec.reference).resolveSpecs rest).1 := by
      rw [← hstep]
      rfl
    have hsnd : (t.resolveSpecs (spec :: rest)).2
        = (t.resolveSpec spec).2 :: ((t.addReference spec.reference).resolveSpecs rest).2 := by
      rw [← hstep]
      rfl
    refine ⟨?_, fun u hu => ?_⟩
    · rw [hfst, hrest]
      rfl
    · rw [hfst] at hu
      rw [hsnd]
      refine .cons (hres.of_extends (List.IsPrefix.trans ?_ hu)) (hall u hu)
      rw [hrest]
      exact prefix_foldl_addReference _ _

end SymbolTable

def referencesIn (es : List Entity) : List Reference :=
  es.flatMap fun e => e.shape.members.map MemberSpec.reference

theorem SymbolTable.resolveEntities_spec {t : SymbolTable} (ht : t.Agrees) (es : List Entity) :
    (t.resolveEntities es).1 = (referencesIn es).foldl addReference t ∧
      ∀ u : SymbolTable, (t.resolveEntities es).1.entities <+: u.entities →
        List.Forall₂ (fun e ms => List.Forall₂ u.Resolves e.shape.members ms) es
          (t.resolveEntities es).2 := by
  induction es generalizing t with
  | nil => exact ⟨rfl, fun u _ => .nil⟩
  | cons e rest ih =>
    obtain ⟨hfirst, hmembers⟩ := resolveSpecs_spec ht e.shape.members
    have hnext : (t.resolveSpecs e.shape.members).1.Agrees := by
      rw [hfirst]
      exact agrees_foldl_addReference ht _
    obtain ⟨hrest, hall⟩ := ih hnext
    refine ⟨?_, fun u hu => ?_⟩
    · show ((t.resolveSpecs e.shape.members).1.resolveEntities rest).1 = _
      rw [hrest, hfirst, referencesIn, referencesIn, List.flatMap_cons, List.foldl_append]
    · have hu' : ((t.resolveSpecs e.shape.members).1.resolveEntities rest).1.entities
          <+: u.entities := hu
      refine .cons (hmembers u (List.IsPrefix.trans ?_ hu')) (hall u hu')
      rw [hrest]
      exact prefix_foldl_addReference _ _

/-! ## The closed table -/

/-- The kind and name written as sigil and name. -/
def Reference.ofText? (text : String) : Option Reference :=
  match text.toList with
  | [] => none
  | c :: name => (Kind.ofSigil? c).map fun kind => ⟨kind, String.ofList name⟩

/-- The root of a schema with these declarations: the one asked for, or the
first. -/
def rootReference (declared : List Reference) : Option String → Option Reference
  | none => declared.head?
  | some wanted => Reference.ofText? wanted

/-- The references that entities make to what is not among them, in order and
without repeats. -/
def missingFrom (es : List Entity) : List Reference :=
  ((referencesIn es).filter (fun r => r ∉ es.map Entity.reference)).eraseDups

/-- The schema closes the entities `es` under their references: what was
missing has been added, every member of the table points at the entity it
refers to, and the root is the one that `root` asks for. -/
structure Resolved.Closes (s : Resolved) (es : List Entity) (root : Option String) : Prop where
  entities : s.table.entities = es ++ (missingFrom es).map Reference.anonymous
  members : List.Forall₂ (fun e ms => List.Forall₂ s.table.Resolves e.shape.members ms)
    s.table.entities s.members
  agrees : s.table.Agrees
  root : ∃ e ∈ es, s.table.get? s.root = some e ∧
    rootReference (es.map Entity.reference) root = some e.reference

namespace SymbolTable

theorem lookupDisplay_eq (t : SymbolTable) (text : String) :
    t.lookupDisplay text = (Reference.ofText? text).bind fun r => t.lookup r.kind r.name := by
  unfold lookupDisplay Reference.ofText?
  cases text.toList with
  | nil => rfl
  | cons c name =>
    dsimp only
    cases Kind.ofSigil? c <;> rfl

/-- The root is an entity of the table: the first one, or the one that was
asked for. -/
theorem chooseRoot_spec {t : SymbolTable} {root : Option String} {id : Nat} (ht : t.Agrees)
    (hne : t.entities ≠ []) (h : t.chooseRoot root = .ok id) :
    ∃ e, t.get? id = some e ∧ rootReference t.references root = some e.reference := by
  cases root with
  | none =>
    cases h
    obtain ⟨e, rest, hes⟩ := List.exists_cons_of_ne_nil hne
    exact ⟨e, by rw [get?, hes]; rfl, by rw [rootReference, references, hes]; rfl⟩
  | some wanted =>
    rw [chooseRoot, findRoot, lookupDisplay_eq] at h
    rw [rootReference]
    cases hr : Reference.ofText? wanted with
    | none =>
      rw [hr] at h
      cases h
    | some r =>
      rw [hr, Option.bind_some] at h
      cases hl : t.lookup r.kind r.name with
      | none =>
        rw [hl] at h
        cases h
      | some found =>
        rw [hl] at h
        dsimp only at h
        split at h
        · cases h
          obtain ⟨e, he, href⟩ := Option.map_eq_some_iff.mp (ht.get?_of_lookup hl)
          exact ⟨e, he, congrArg some href.symm⟩
        · cases h

/-- A table of declared entities can be closed if the root that is asked for is
among them. -/
theorem exists_resolve {t : SymbolTable} {root : Option String} {r : Reference} (ht : t.Agrees)
    (hdeclared : ∀ e ∈ t.entities, e.line.isSome)
    (hroot : rootReference t.references root = some r) (hr : r ∈ t.references) (file : String) :
    ∃ s, t.resolve file root = .ok s := by
  have hne : t.entities ≠ [] := by
    intro hnil
    rw [references, hnil] at hr
    cases hr
  have hchosen : ∃ id, t.chooseRoot root = .ok id := by
    cases root with
    | none => exact ⟨0, rfl⟩
    | some wanted =>
      rw [rootReference] at hroot
      cases hl : t.lookup r.kind r.name with
      | none => exact absurd hr (ht.lookup_eq_none_iff.mp hl)
      | some id =>
        obtain ⟨e, he, _⟩ := Option.map_eq_some_iff.mp (ht.get?_of_lookup hl)
        refine ⟨id, ?_⟩
        rw [chooseRoot, findRoot, lookupDisplay_eq, hroot, Option.bind_some, hl]
        dsimp only
        rw [he, Option.bind_some, if_pos (hdeclared e (List.mem_of_getElem? he))]
  obtain ⟨id, hid⟩ := hchosen
  unfold resolve
  rw [if_neg (by simpa using hne)]
  exact ⟨_, bind_eq_ok_iff.mpr ⟨id, hid, rfl⟩⟩

/-- Entities without members have no members to resolve. -/
theorem forall₂_replicate_nil {t : SymbolTable} {es : List Entity}
    (h : ∀ e ∈ es, e.shape.members = []) :
    List.Forall₂ (fun e ms => List.Forall₂ t.Resolves e.shape.members ms) es
      (List.replicate es.length []) := by
  induction es with
  | nil => exact .nil
  | cons e rest ih =>
    refine .cons ?_ (ih (fun x hx => h x (List.mem_cons_of_mem e hx)))
    rw [h e List.mem_cons_self]
    exact .nil

theorem closes_of_resolve {file : String} {t : SymbolTable} {root : Option String} {s : Resolved}
    (ht : t.Agrees) (h : t.resolve file root = .ok s) : s.Closes t.entities root := by
  unfold resolve at h
  split at h
  · cases h
  · next hne =>
    obtain ⟨id, hid, h⟩ := bind_eq_ok_iff.mp h
    obtain ⟨hclosed, hmembers⟩ := resolveEntities_spec ht t.entities
    have hgrown : (t.resolveEntities t.entities).1.entities
        = t.entities ++ (missingFrom t.entities).map Reference.anonymous := by
      rw [hclosed]
      exact t.entities_foldl_addReference (referencesIn t.entities)
    cases h
    refine ⟨hgrown, ?_, ?_, ?_⟩
    · dsimp only
      -- The declared entities have been resolved, and those added after them have no members.
      have hadded : (t.resolveEntities t.entities).1.size - t.size
          = ((missingFrom t.entities).map Reference.anonymous).length := by
        rw [size, size, hgrown, List.length_append]
        omega
      rw [hadded, hgrown]
      refine List.rel_append (hmembers _ (List.prefix_refl _)) (forall₂_replicate_nil ?_)
      intro e he
      obtain ⟨r, _, rfl⟩ := List.mem_map.mp he
      exact Shape.members_least _
    · dsimp only
      rw [hclosed]
      exact agrees_foldl_addReference ht _
    · obtain ⟨e, he, href⟩ := chooseRoot_spec ht (by simpa using hne) hid
      refine ⟨e, List.mem_of_getElem? he, ?_, href⟩
      dsimp only
      rw [hclosed]
      exact get?_of_extends (t.prefix_foldl_addReference _) he

end SymbolTable

namespace Resolved.Closes
variable {s : Resolved} {es : List Entity} {root : Option String} {e : Entity}

theorem mem_entities (h : s.Closes es root) (he : e ∈ s.table.entities) :
    e ∈ es ∨ ∃ r ∈ referencesIn es, r ∉ es.map Entity.reference ∧ e = r.anonymous := by
  rw [h.entities, List.mem_append] at he
  refine he.imp_right (fun he => ?_)
  obtain ⟨r, hr, rfl⟩ := List.mem_map.mp he
  obtain ⟨hr, hfresh⟩ := List.mem_filter.mp (List.mem_eraseDups.mp hr)
  exact ⟨r, hr, of_decide_eq_true hfresh, rfl⟩

theorem distinct (h : s.Closes es root) : s.table.Distinct := h.agrees.distinct

theorem nodup_references (h : s.Closes es root) : (es.map Entity.reference).Nodup := by
  have hdistinct := h.distinct
  rw [SymbolTable.Distinct, SymbolTable.references, h.entities, List.map_append] at hdistinct
  exact (List.nodup_append.mp hdistinct).1

/-- Closing keeps names and shapes proper. -/
theorem proper (h : s.Closes es root) (hes : ∀ e ∈ es, e.Proper) :
    ∀ e ∈ s.table.entities, e.Proper := by
  intro e he
  rcases h.mem_entities he with he | ⟨r, hr, _, rfl⟩
  · exact hes e he
  · obtain ⟨owner, howner, hr⟩ := List.mem_flatMap.mp hr
    obtain ⟨m, hm, rfl⟩ := List.mem_map.mp hr
    refine ⟨(hes owner howner).2.isName hm, ?_⟩
    show (Shape.least m.kind).Proper
    cases m.kind with
    | scalar => trivial
    | array => exact fun x hx => absurd hx List.not_mem_nil
    | mapping => exact ⟨fun x hx => absurd hx List.not_mem_nil, List.nodup_nil⟩

end Resolved.Closes

/-! ## What a resolved schema asks of a tree -/

/-- What a shape asks of a tree when these are its members. -/
def Shape.over (members : List Member) : Shape → Pattern Nat
  | anyScalar => .anyScalar
  | oneOf values => .oneOf values
  | array _ => .array (members.map Member.target)
  | mapping _ => .mapping (members.filterMap fun m => m.key.map fun key => (key, m.target))

namespace Resolved

def membersAt (s : Resolved) (id : Nat) : List Member := (s.members[id]?).getD []

/-- What the entity at a place asks of a tree; where there is none, nothing
will do. -/
def pattern (s : Resolved) (id : Nat) : Pattern Nat :=
  match s.table.get? id with
  | none => .oneOf []
  | some e => e.shape.over (s.membersAt id)

theorem pattern_eq {s : Resolved} {id : Nat} {e : Entity} (he : s.table.get? id = some e) :
    s.pattern id = e.shape.over (s.membersAt id) := by
  rw [pattern, he]

/-- The entity at the place goes by this kind and name. -/
def Names (s : Resolved) (id : Nat) (r : Reference) : Prop :=
  (s.table.get? id).map Entity.reference = some r

theorem Closes.membersAt {s : Resolved} {es : List Entity} {root : Option String} {id : Nat}
    {e : Entity} (h : s.Closes es root) (he : s.table.get? id = some e) :
    List.Forall₂ s.table.Resolves e.shape.members (s.membersAt id) := by
  obtain ⟨hlt, rfl⟩ := List.getElem?_eq_some_iff.mp he
  have hlt' : id < s.members.length := by
    rw [← h.members.length_eq]
    exact hlt
  rw [Resolved.membersAt, List.getElem?_eq_getElem hlt', Option.getD_some]
  exact List.Forall₂.get h.members hlt hlt'

end Resolved

theorem exists_left_of_forall₂ {α β : Type} {R : α → β → Prop} {l : List α} {k : List β}
    (h : List.Forall₂ R l k) {b : β} (hb : b ∈ k) : ∃ a ∈ l, R a b := by
  induction h with
  | nil => cases hb
  | cons hr _ ih =>
    rcases List.mem_cons.mp hb with rfl | hb
    · exact ⟨_, List.mem_cons_self, hr⟩
    · obtain ⟨a, ha, hab⟩ := ih hb
      exact ⟨a, List.mem_cons_of_mem _ ha, hab⟩

theorem exists_right_of_forall₂ {α β : Type} {R : α → β → Prop} {l : List α} {k : List β}
    (h : List.Forall₂ R l k) {a : α} (ha : a ∈ l) : ∃ b ∈ k, R a b :=
  exists_left_of_forall₂ (R := fun b a => R a b) h.flip ha

/-- Resolved members ask what the references did. -/
theorem similar_over {s : Resolved} {shape : Shape} {ms : List Member}
    (h : List.Forall₂ s.table.Resolves shape.members ms) :
    (shape.over ms).Similar s.Names shape.pattern := by
  cases shape with
  | anyScalar => exact .anyScalar
  | oneOf values => exact .oneOf (fun _ => Iff.rfl)
  | array specs =>
    refine .array ?_ ?_
    · intro id hid
      obtain ⟨m, hm, rfl⟩ := List.mem_map.mp hid
      obtain ⟨spec, hspec, hres⟩ := exists_left_of_forall₂ h hm
      exact ⟨spec.reference, List.mem_map_of_mem hspec, hres.1⟩
    · intro r hr
      obtain ⟨spec, hspec, rfl⟩ := List.mem_map.mp hr
      obtain ⟨m, hm, hres⟩ := exists_right_of_forall₂ h hspec
      exact ⟨m.target, List.mem_map_of_mem hm, hres.1⟩
  | mapping specs =>
    refine .mapping ?_ ?_
    · intro e he
      obtain ⟨m, hm, he⟩ := List.mem_filterMap.mp he
      obtain ⟨key, hkey, rfl⟩ := Option.map_eq_some_iff.mp he
      obtain ⟨spec, hspec, hres⟩ := exists_left_of_forall₂ h hm
      refine ⟨(key, spec.reference), List.mem_filterMap.mpr ⟨spec, hspec, ?_⟩, rfl, hres.1⟩
      rw [← hres.2, hkey, Option.map_some]
    · intro f hf
      obtain ⟨spec, hspec, hf⟩ := List.mem_filterMap.mp hf
      obtain ⟨key, hkey, rfl⟩ := Option.map_eq_some_iff.mp hf
      obtain ⟨m, hm, hres⟩ := exists_right_of_forall₂ h hspec
      refine ⟨(key, m.target), List.mem_filterMap.mpr ⟨m, hm, ?_⟩, rfl, hres.1⟩
      rw [hres.2, hkey, Option.map_some]

section
variable {file : String} {ds : List Declaration} {es : List Entity}

theorem map_reference_of_assemble (hes : assemble file ds = .ok es) :
    es.map Entity.reference = ds.map Declaration.reference := by
  have h := assemble_eq_ok_iff.mp hes
  clear hes
  induction h with
  | nil => rfl
  | cons hd _ ih => rw [List.map_cons, List.map_cons, ih, Declaration.reference_of_entity hd]

/-- What an entity that is declared asks of a tree. -/
theorem similar_of_declared (hes : assemble file ds = .ok es)
    (hnodup : (es.map Entity.reference).Nodup) {e : Entity} (he : e ∈ es) :
    e.shape.pattern.Similar Eq (declaredMeaning ds e.reference) := by
  obtain ⟨d, hd, hentity⟩ := exists_left_of_forall₂ (assemble_eq_ok_iff.mp hes) he
  have href : e.reference = d.reference := Declaration.reference_of_entity hentity
  rw [map_reference_of_assemble hes] at hnodup
  have hfind : itemsDeclaring ds e.reference = d.items := by
    rw [itemsDeclaring, find?_of_nodup_map hnodup hd]
    · rfl
    · intro x _
      rw [decide_eq_true_iff, href]
      simp [Declaration.reference]
  rw [declaredMeaning, hfind, href]
  exact Declaration.similar_of_entity hentity

/-- What an entity that is only referred to asks of a tree. -/
theorem similar_of_undeclared (hes : assemble file ds = .ok es) {r : Reference}
    (hr : r ∉ es.map Entity.reference) :
    r.anonymous.shape.pattern.Similar Eq (declaredMeaning ds r) := by
  have hnone : itemsDeclaring ds r = [] := by
    unfold itemsDeclaring
    rw [List.find?_eq_none.mpr]
    · rfl
    · intro d hd hcalled
      rw [map_reference_of_assemble hes] at hr
      apply hr
      refine List.mem_map.mpr ⟨d, hd, ?_⟩
      cases r
      simpa [Declaration.reference] using hcalled
  rw [declaredMeaning, hnone]
  show (Shape.least r.kind).pattern.Similar Eq (patternOf r.kind [])
  cases r.kind with
  | scalar => exact .anyScalar
  | array =>
    exact .array (fun m hm => absurd hm List.not_mem_nil) (fun m hm => absurd hm List.not_mem_nil)
  | mapping =>
    exact .mapping (fun m hm => absurd hm List.not_mem_nil)
      (fun m hm => absurd hm List.not_mem_nil)

/-- What the places of a resolved schema ask is what the declarations ask of
the kinds and names found there. -/
theorem similar_declaredMeaning {s : Resolved} {root : Option String}
    (hes : assemble file ds = .ok es) (h : s.Closes es root) :
    ∀ id r, s.Names id r → (s.pattern id).Similar s.Names (declaredMeaning ds r) := by
  intro id r hr
  obtain ⟨e, he, rfl⟩ := Option.map_eq_some_iff.mp hr
  have hover := similar_over (h.membersAt he)
  rw [Resolved.pattern_eq he]
  refine hover.trans_eq ?_
  rcases h.mem_entities (List.mem_of_getElem? he) with hmem | ⟨r, _, hfresh, rfl⟩
  · exact similar_of_declared hes h.nodup_references hmem
  · rw [reference_anonymous]
    exact similar_of_undeclared hes hfresh

end

/-- A schema text that resolves has been read, assembled and closed. -/
theorem resolveSource_eq_ok {file source : String} {root : Option String} {s : Resolved}
    (h : resolveSource file source root = .ok s) :
    ∃ ds es, Declaration.readAll file source = .ok ds ∧ assemble file ds = .ok es ∧
      s.Closes es root ∧ ∀ e ∈ s.table.entities, e.Proper := by
  obtain ⟨es, hes, h⟩ := bind_eq_ok_iff.mp h
  obtain ⟨ds, hds, hes⟩ := bind_eq_ok_iff.mp hes
  obtain ⟨t, ht, h⟩ := bind_eq_ok_iff.mp h
  obtain ⟨rfl, hnodup⟩ := SymbolTable.ofEntities_eq_ok_iff.mp ht
  have hcloses := SymbolTable.closes_of_resolve (SymbolTable.agrees_holding hnodup) h
  rw [SymbolTable.entities_holding] at hcloses
  refine ⟨ds, es, hds, hes, hcloses, hcloses.proper ?_⟩
  intro e he
  obtain ⟨d, hd, hentity⟩ := exists_left_of_forall₂ (assemble_eq_ok_iff.mp hes) he
  exact Declaration.proper_of_entity (Declaration.named_of_readAll hds d hd) hentity

/-- A recursive schema: a tree has a value and, under the key `below`, a
sequence of trees and leaves. -/
def nestedSource : String :=
  "%tree: $value @(below)children\n@children: %tree $leaf\n$leaf: 'x 'y"

def nestedFile : String := "tree.schema"

/-- `nestedSource`, closed and rooted. -/
def nested : Resolved where
  table :=
    { entities :=
        [{ name := "tree"
           shape := .mapping [⟨.scalar, "value", some "value"⟩, ⟨.array, "children", some "below"⟩]
           line := some 1 },
         { name := "children"
           shape := .array [⟨.mapping, "tree", none⟩, ⟨.scalar, "leaf", none⟩]
           line := some 2 },
         { name := "leaf", shape := .oneOf ["x", "y"], line := some 3 },
         { name := "value", shape := .anyScalar, line := none }]
      index :=
        [((.scalar, "value"), 3), ((.scalar, "leaf"), 2), ((.array, "children"), 1),
         ((.mapping, "tree"), 0)] }
  members := [[⟨3, some "value"⟩, ⟨1, some "below"⟩], [⟨0, none⟩, ⟨2, none⟩], [], []]
  root := 0
  anonymous := 1

theorem resolveSource_nested : resolveSource nestedFile nestedSource none = .ok nested := by
  decide +kernel

end TreeSchema.Schema
