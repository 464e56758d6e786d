import TreeSchema.Proofs.Resolution
/-
  Symbol tables

  Entering entities stops at the first repeat of a kind and name and reports
  it with the place where they came first (`exists_repeat_of_pushAll`). Every
  table that is entered or closed has a list and an index that agree
  (`Obtained.agrees`).

  Closing a table fails only for want of a root (`resolve_eq_error_iff`).
  Where it succeeds, what is added are the references that nothing declares,
  each once and in the order in which they are first made (`missing`).
-/

namespace TreeSchema.Schema

namespace SymbolTable
variable {file : String} {t : SymbolTable} {es : List Entity} {id : Nat} {e : Entity}

/-! ## Repeats -/

theorem lineAt_eq (h : t.get? id = some e) : t.lineAt id = e.line.getD 0 := by
  rw [lineAt, h, Option.bind_some]

/-- The entity that is looked up is the first that goes by the kind and name. -/
theorem find?_of_lookup (ht : t.Agrees) (h : t.lookup e.kind e.name = some id) :
    ∃ first, t.get? id = some first ∧
      t.entities.find? (fun f => f.reference = e.reference) = some first := by
  obtain ⟨first, hfirst, href⟩ := Option.map_eq_some_iff.mp (ht.get?_of_lookup h)
  refine ⟨first, hfirst, find?_of_nodup_map ht.distinct (List.mem_of_getElem? hfirst) ?_⟩
  intro f _
  rw [decide_eq_true_iff, href]
  exact Iff.rfl

/-- A refusal names the first entity that repeats a kind and name, and the
line where they came first. -/
theorem exists_repeat_of_pushAll (ht : t.Agrees) {error : Error}
    (h : t.pushAll file es = .error error) :
    ∃ before e after first, es = before ++ e :: after ∧
      ((t.entities ++ before).map Entity.reference).Nodup ∧
      (t.entities ++ before).find? (fun f => f.reference = e.reference) = some first ∧
      error = .duplicate file (e.line.getD 0) e.kind e.name (first.line.getD 0) := by
  induction es generalizing t with
  | nil => cases h
  | cons x rest ih =>
    rw [pushAll] at h
    cases hl : t.lookup x.kind x.name with
    | some id =>
      rw [hl] at h
      obtain ⟨first, hfirst, hfind⟩ := find?_of_lookup ht hl
      refine ⟨[], x, rest, first, rfl, ?_, ?_, ?_⟩
      · rw [List.append_nil]
        exact ht.distinct
      · rw [List.append_nil]
        exact hfind
      · rw [← lineAt_eq hfirst]
        exact (Except.error.inj h).symm
    | none =>
      rw [hl] at h
      have hfresh : x.reference ∉ t.references := ht.lookup_eq_none_iff.mp hl
      obtain ⟨before, e, after, first, hsplit, hnodup, hfind, herror⟩ :=
        ih (agrees_push ht hfresh) h
      rw [entities_push, List.append_assoc, List.singleton_append] at hnodup hfind
      exact ⟨x :: before, e, after, first, by rw [hsplit]; rfl, hnodup, hfind, herror⟩

/-! ## Tables that are entered and closed -/

/-- The tables that come of entering entities and of closing such tables. -/
inductive Obtained : SymbolTable → Prop where
  | ofEntities {file : String} {es : List Entity} {t : SymbolTable}
    (h : ofEntities file es = .ok t) : Obtained t
  | resolve {file : String} {t : SymbolTable} {root : Option String} {s : Resolved}
    (ht : Obtained t) (h : t.resolve file root = .ok s) : Obtained s.table

theorem Obtained.agrees (h : Obtained t) : t.Agrees := by
  induction h with
  | ofEntities h =>
    obtain ⟨rfl, hnodup⟩ := ofEntities_eq_ok_iff.mp h
    exact agrees_holding hnodup
  | resolve _ h ih => exact (closes_of_resolve ih h).agrees

/-- Entering entities succeeds just if no kind and name repeats, and keeps
their order; a refusal names the first repeat and the line where its kind and
name came first. Whatever table is obtained, its index gives a place just if
the entity there goes by the kind and name, so that no two do. -/
theorem index_exact (file : String) (es : List Entity) :
    ((∃ t, ofEntities file es = .ok t) ↔ (es.map Entity.reference).Nodup) ∧
      (∀ t, ofEntities file es = .ok t → t.entities = es) ∧
      (∀ error, ofEntities file es = .error error →
        ∃ before e after first, es = before ++ e :: after ∧
          (before.map Entity.reference).Nodup ∧
          before.find? (fun f => f.reference = e.reference) = some first ∧
          error = .duplicate file (e.line.getD 0) e.kind e.name (first.line.getD 0)) ∧
      ∀ t, Obtained t → t.Distinct ∧
        ∀ kind name id, t.lookup kind name = some id ↔
          ∃ e, t.get? id = some e ∧ e.kind = kind ∧ e.name = name := by
  refine ⟨?_, ?_, ?_, ?_⟩
  · refine ⟨?_, fun hnodup => ⟨_, ofEntities_eq_ok_iff.mpr ⟨rfl, hnodup⟩⟩⟩
    intro h
    obtain ⟨t, ht⟩ := h
    exact (ofEntities_eq_ok_iff.mp ht).2
  · intro t ht
    rw [(ofEntities_eq_ok_iff.mp ht).1, entities_holding]
  · intro error h
    exact exists_repeat_of_pushAll agrees_empty h
  · intro t ht
    refine ⟨ht.agrees.distinct, ?_⟩
    intro kind name id
    rw [ht.agrees kind name id, Option.map_eq_some_iff]
    simp [Entity.reference]

/-! ## The root -/

end SymbolTable

/-- Sigil and name are those of the entity just if they are what it is shown
as. -/
theorem ofText?_eq_reference_iff {e : Entity} {text : String} :
    Reference.ofText? text = some e.reference ↔ e.displayName = text := by
  unfold Reference.ofText? Entity.displayName
  rw [← String.toList_inj, String.toList_ofList]
  cases text.toList with
  | nil => simp
  | cons c name =>
    have hname : String.ofList name = e.name ↔ e.name.toList = name := by
      rw [← String.toList_inj, String.toList_ofList]
      exact eq_comm
    simp only [Option.map_eq_some_iff, Kind.ofSigil?_eq_some_iff, Entity.reference,
      Reference.mk.injEq, List.cons.injEq, hname]
    refine ⟨?_, fun h => ⟨e.kind, h.1.symm, rfl, h.2⟩⟩
    intro h
    obtain ⟨kind, hc, hkind, hrest⟩ := h
    exact ⟨by rw [hc, hkind], hrest⟩

namespace SymbolTable
variable {t : SymbolTable} {root : Option String} {id : Nat}

theorem findRoot_eq_ok_iff (ht : t.Agrees) {wanted : String} :
    t.findRoot wanted = .ok id ↔
      ∃ e, t.get? id = some e ∧ e.line.isSome ∧ e.displayName = wanted := by
  -- The index gives the place just if the entity there is shown as what is wanted.
  have hshown : t.lookupDisplay wanted = some id ↔
      ∃ e, t.get? id = some e ∧ e.displayName = wanted := by
    rw [lookupDisplay_eq, Option.bind_eq_some_iff]
    refine ⟨?_, ?_⟩
    · intro h
      obtain ⟨r, hr, hl⟩ := h
      obtain ⟨e, he, href⟩ := Option.map_eq_some_iff.mp (ht.get?_of_lookup hl)
      refine ⟨e, he, ofText?_eq_reference_iff.mp ?_⟩
      rw [hr, href]
    · intro h
      obtain ⟨e, he, hwanted⟩ := h
      refine ⟨e.reference, ofText?_eq_reference_iff.mpr hwanted, ?_⟩
      rw [ht, he]
      rfl
  unfold findRoot
  cases hl : t.lookupDisplay wanted with
  | none =>
    rw [hl] at hshown
    refine iff_of_false (fun h => by cases h) ?_
    intro h
    obtain ⟨e, he, _, hwanted⟩ := h
    cases hshown.mpr ⟨e, he, hwanted⟩
  | some found =>
    rw [hl, Option.some.injEq] at hshown
    dsimp only
    refine ⟨?_, ?_⟩
    · intro h
      split at h
      · next hline =>
        have hid : found = id := Except.ok.inj h
        obtain ⟨e, he, hwanted⟩ := hshown.mp hid
        rw [hid, he, Option.bind_some] at hline
        exact ⟨e, he, hline, hwanted⟩
      · cases h
    · intro h
      obtain ⟨e, he, hline, hwanted⟩ := h
      rw [hshown.mpr ⟨e, he, hwanted⟩, he, Option.bind_some, if_pos hline]

/-- The places that can be chosen as a root. -/
theorem exists_chooseRoot_iff (ht : t.Agrees) (root : Option String) :
    (∃ id, t.chooseRoot root = .ok id) ↔
      ∀ wanted, root = some wanted → ∃ e ∈ t.entities, e.line.isSome ∧ e.displayName = wanted := by
  cases root with
  | none => exact iff_of_true ⟨0, rfl⟩ (fun wanted h => by cases h)
  | some wanted =>
    simp only [chooseRoot, findRoot_eq_ok_iff ht, Option.some.injEq, forall_eq']
    refine ⟨?_, ?_⟩
    · intro h
      obtain ⟨id, e, he, hroot⟩ := h
      exact ⟨e, List.mem_of_getElem? he, hroot⟩
    · intro h
      obtain ⟨e, he, hroot⟩ := h
      obtain ⟨id, hid⟩ := List.mem_iff_getElem?.mp he
      exact ⟨id, e, hid, hroot⟩

/-! ## Closing -/

/-- What closing a table does besides adding to it. -/
theorem resolve_eq_ok {s : Resolved} (h : t.resolve file root = .ok s) :
    t.chooseRoot root = .ok s.root ∧ s.anonymous = s.table.size - t.size := by
  unfold resolve at h
  split at h
  · cases h
  · obtain ⟨id, hid, h⟩ := bind_eq_ok_iff.mp h
    cases h
    exact ⟨hid, rfl⟩

theorem resolve_eq_error_iff (ht : t.Agrees) :
    (∃ error, t.resolve file root = .error error) ↔
      t.entities = [] ∨ ∃ wanted, root = some wanted ∧
        ∀ e ∈ t.entities, e.line.isSome → e.displayName ≠ wanted := by
  unfold resolve
  by_cases hempty : t.entities = []
  · rw [if_pos (List.isEmpty_iff.mpr hempty)]
    exact iff_of_true ⟨_, rfl⟩ (Or.inl hempty)
  · rw [if_neg (by simpa using hempty)]
    have hchosen := exists_chooseRoot_iff ht root
    cases hroot : t.chooseRoot root with
    | ok id =>
      have hdeclared := hchosen.mp ⟨id, hroot⟩
      refine iff_of_false (by simp) ?_
      intro h
      obtain ⟨wanted, hwanted, hnone⟩ := h.resolve_left hempty
      obtain ⟨e, he, hline, hshown⟩ := hdeclared wanted hwanted
      exact hnone e he hline hshown
    | error error =>
      refine iff_of_true ⟨error, rfl⟩ (Or.inr ?_)
      have hnot : ¬ ∃ id, t.chooseRoot root = .ok id := by
        intro h
        obtain ⟨id, hid⟩ := h
        rw [hroot] at hid
        cases hid
      rw [hchosen] at hnot
      obtain ⟨wanted, hwanted⟩ := not_forall.mp hnot
      obtain ⟨hasked, hnone⟩ := Classical.not_imp.mp hwanted
      exact ⟨wanted, hasked, fun e he hline hshown => hnone ⟨e, he, hline, hshown⟩⟩

end SymbolTable

/-- The references are those that entities make to what is not among them,
each once, in the order in which they are first made. -/
structure Missing (es : List Entity) (rs : List Reference) : Prop where
  mem_iff : ∀ r, r ∈ rs ↔
    (∃ e ∈ es, ∃ m ∈ e.shape.members, m.reference = r) ∧ ∀ e ∈ es, e.reference ≠ r
  ordered : rs.Pairwise fun r r' => (referencesIn es).idxOf r < (referencesIn es).idxOf r'

theorem missing (es : List Entity) : Missing es (missingFrom es) := by
  refine ⟨?_, pairwise_idxOf_eraseDups _ _⟩
  intro r
  rw [missingFrom, List.mem_eraseDups, List.mem_filter, decide_eq_true_iff, referencesIn,
    List.mem_flatMap]
  simp only [List.mem_map, not_exists, not_and, ne_eq]

/-- The root of a schema: the first entity, or the declared entity that is
shown as what was wanted. -/
def Resolved.RootedAt (s : Resolved) (es : List Entity) : Option String → Prop
  | none => s.root = 0
  | some wanted => ∃ e ∈ es, s.table.get? s.root = some e ∧ e.line.isSome ∧ e.displayName = wanted

theorem Resolved.rootedAt_of_resolve {file : String} {t : SymbolTable} {root : Option String}
    {s : Resolved}
    (ht : t.Agrees) (h : t.resolve file root = .ok s) : s.RootedAt t.entities root := by
  have hchosen := (SymbolTable.resolve_eq_ok h).1
  cases root with
  | none => exact (Except.ok.inj hchosen).symm
  | some wanted =>
    obtain ⟨e, he, hroot⟩ := (SymbolTable.findRoot_eq_ok_iff ht).mp hchosen
    refine ⟨e, List.mem_of_getElem? he, ?_, hroot⟩
    apply SymbolTable.get?_of_extends (t := t) ?_ he
    rw [(SymbolTable.closes_of_resolve ht h).entities]
    exact List.prefix_append _ _

/-- Closing keeps the entities where they are and adds one anonymous entity
for each reference that nothing declares, in the order in which these are
first made; each entity has the members it lists, under the same keys, and
each points at the entity of the kind and name it refers to. Closing fails
just if there is nothing to close, or if the root that is asked for is not
what a declared entity is shown as. -/
theorem resolve_adds_missing {file : String} {es : List Entity} {t : SymbolTable}
    (ht : SymbolTable.ofEntities file es = .ok t) (root : Option String) :
    (∀ s, t.resolve file root = .ok s →
      ∃ added, Missing es added ∧
        s.table.entities = es ++ added.map Reference.anonymous ∧
        s.anonymous = added.length ∧
        List.Forall₂ (fun e ms => List.Forall₂ s.table.Resolves e.shape.members ms)
          s.table.entities s.members ∧
        s.RootedAt es root) ∧
    ((∃ error, t.resolve file root = .error error) ↔
      es = [] ∨ ∃ wanted, root = some wanted ∧
        ∀ e ∈ es, e.line.isSome → e.displayName ≠ wanted) := by
  have hagrees := (SymbolTable.Obtained.ofEntities ht).agrees
  have hentities : t.entities = es := by
    rw [(SymbolTable.ofEntities_eq_ok_iff.mp ht).1, SymbolTable.entities_holding]
  refine ⟨?_, ?_⟩
  · intro s hs
    have hcloses := SymbolTable.closes_of_resolve hagrees hs
    have hrooted := Resolved.rootedAt_of_resolve hagrees hs
    rw [hentities] at hcloses hrooted
    refine ⟨missingFrom es, missing es, hcloses.entities, ?_, hcloses.members, hrooted⟩
    rw [(SymbolTable.resolve_eq_ok hs).2, SymbolTable.size, SymbolTable.size, hcloses.entities,
      hentities]
    simp
  · rw [SymbolTable.resolve_eq_error_iff hagrees, hentities]

/-- In the recursive schema the scalar `value` is referred to and not
declared: it is what closing adds, and it cannot be asked for as a root. -/
theorem nested_adds_missing :
    ∃ t, SymbolTable.ofEntities nestedFile (nested.table.entities.take 3) = .ok t ∧
      t.resolve nestedFile none = .ok nested ∧
      (∃ added, Missing (nested.table.entities.take 3) added ∧
        nested.table.entities = nested.table.entities.take 3 ++ added.map Reference.anonymous ∧
        nested.anonymous = added.length) ∧
      ∃ error, t.resolve nestedFile (some "$value") = .error error := by
  have ht : SymbolTable.ofEntities nestedFile (nested.table.entities.take 3)
      = .ok (.holding (nested.table.entities.take 3)) := by
    decide +kernel
  have hs : (SymbolTable.holding (nested.table.entities.take 3)).resolve nestedFile none
      = .ok nested := by
    decide +kernel
  refine ⟨_, ht, hs, ?_, ?_⟩
  · obtain ⟨added, hmissing, hentities, hnumber, _⟩ := (resolve_adds_missing ht none).1 _ hs
    exact ⟨added, hmissing, hentities, hnumber⟩
  · apply (resolve_adds_missing ht (some "$value")).2.mpr
    exact Or.inr ⟨"$value", rfl, by decide +kernel⟩

end TreeSchema.Schema
