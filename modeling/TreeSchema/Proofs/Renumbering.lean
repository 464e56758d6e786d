import TreeSchema.Proofs.LineGrammar
/-
  Line numbers

  What the passes of a compilation do with the numbers of lines: they carry
  them along to the errors and look at nothing but whether there is one. When
  declarations get other numbers, whichever they are, an error names the new
  numbers in the place of the old ones and a grammar stays what it is. A
  number alone does not tell its new one, since lines that are far enough
  apart have the same.
-/

namespace TreeSchema.Schema

variable {R : UInt32 → UInt32 → Prop}

/-- The same error, with line numbers that `R` relates. -/
inductive Error.Renumbered (R : UInt32 → UInt32 → Prop) : Error → Error → Prop where
  | syntaxFault (file : String) {line line' : UInt32} (h : R line line') (fault : LineFault) :
    Renumbered R (.syntaxFault file line fault) (.syntaxFault file line' fault)
  | duplicate (file : String) {line line' : UInt32} (h : R line line') (kind : Kind)
    (name : String) {firstLine firstLine' : UInt32} (hfirst : R firstLine firstLine') :
    Renumbered R (.duplicate file line kind name firstLine)
      (.duplicate file line' kind name firstLine')
  | unknownRoot (wanted : String) : Renumbered R (.unknownRoot wanted) (.unknownRoot wanted)
  | noEntities (file : String) : Renumbered R (.noEntities file) (.noEntities file)

/-! ## Outcomes -/

section
variable {α β γ δ : Type} {S : α → β → Prop} {T : γ → δ → Prop}

/-- The outcomes of a pass before and after: an error names the new numbers,
and results are related by `S`. -/
inductive Carried (R : UInt32 → UInt32 → Prop) (S : α → β → Prop) :
    Except Error α → Except Error β → Prop where
  | error {e e' : Error} (h : e.Renumbered R e') : Carried R S (.error e) (.error e')
  | ok {a : α} {b : β} (h : S a b) : Carried R S (.ok a) (.ok b)

theorem Carried.bind {x : Except Error α} {x' : Except Error β} (h : Carried R S x x')
    {next : α → Except Error γ} {next' : β → Except Error δ}
    (hnext : ∀ a b, x = .ok a → S a b → Carried R T (next a) (next' b)) :
    Carried R T (x >>= next) (x' >>= next') := by
  cases h with
  | error h => exact .error h
  | ok h => exact hnext _ _ rfl h

theorem Carried.mapM {read : α → Except Error γ} {read' : β → Except Error δ} {l : List α}
    {l' : List β} (hl : List.Forall₂ S l l')
    (h : ∀ a b, S a b → Carried R T (read a) (read' b)) :
    Carried R (List.Forall₂ T) (l.mapM read) (l'.mapM read') := by
  induction hl with
  | nil => exact .ok .nil
  | cons hab _ ih =>
    rw [List.mapM_cons, List.mapM_cons]
    refine (h _ _ hab).bind fun c d _ hcd => ?_
    refine ih.bind fun others others' _ hothers => ?_
    exact .ok (.cons hcd hothers)

end

/-! ## Declarations and entities -/

/-- The same declaration with another number. -/
def Declaration.Renumbered (R : UInt32 → UInt32 → Prop) (d d' : Declaration) : Prop :=
  ∃ line, R d.line line ∧ d' = { d with line }

def Entity.Renumbered (R : UInt32 → UInt32 → Prop) (e e' : Entity) : Prop :=
  ∃ line, Option.Rel R e.line line ∧ e' = { e with line }

section
variable {e e' : Entity}

theorem Entity.Renumbered.kind (h : e.Renumbered R e') : e'.kind = e.kind := by
  obtain ⟨line, _, rfl⟩ := h
  rfl

theorem Entity.Renumbered.name (h : e.Renumbered R e') : e'.name = e.name := by
  obtain ⟨line, _, rfl⟩ := h
  rfl

theorem Entity.Renumbered.shape (h : e.Renumbered R e') : e'.shape = e.shape := by
  obtain ⟨line, _, rfl⟩ := h
  rfl

theorem Entity.Renumbered.isSome_line (h : e.Renumbered R e') :
    e'.line.isSome = e.line.isSome := by
  obtain ⟨line, hrel, rfl⟩ := h
  dsimp only
  generalize e.line = number at hrel
  cases hrel <;> rfl

theorem Entity.Renumbered.nonterminal (h : e.Renumbered R e') :
    e'.nonterminal = e.nonterminal := by
  obtain ⟨line, _, rfl⟩ := h
  rfl

theorem Entity.Renumbered.line (h : e.Renumbered R e') (hline : e.line.isSome) :
    R (e.line.getD 0) (e'.line.getD 0) := by
  obtain ⟨line, hrel, rfl⟩ := h
  obtain ⟨number, hnumber⟩ := Option.isSome_iff_exists.mp hline
  rw [hnumber] at hrel ⊢
  cases hrel with
  | some hrel => exact hrel

end

namespace SymbolTable
variable {t t' : SymbolTable}

structure Renumbered (R : UInt32 → UInt32 → Prop) (t t' : SymbolTable) : Prop where
  entities : List.Forall₂ (Entity.Renumbered R) t.entities t'.entities
  index : t'.index = t.index

theorem Renumbered.lookup (h : t.Renumbered R t') (kind : Kind) (name : String) :
    t'.lookup kind name = t.lookup kind name := by
  rw [SymbolTable.lookup, SymbolTable.lookup, h.index]

theorem Renumbered.size (h : t.Renumbered R t') : t'.size = t.size :=
  h.entities.length_eq.symm

theorem Renumbered.get?_cases (h : t.Renumbered R t') (id : Nat) :
    (t.get? id = none ∧ t'.get? id = none) ∨
      ∃ e e', t.get? id = some e ∧ t'.get? id = some e' ∧ e.Renumbered R e' := by
  unfold SymbolTable.get?
  have hentities := h.entities
  generalize t.entities = es at hentities
  generalize t'.entities = es' at hentities
  induction hentities generalizing id with
  | nil => exact .inl ⟨rfl, rfl⟩
  | cons he _ ih =>
    cases id with
    | zero => exact .inr ⟨_, _, rfl, rfl, he⟩
    | succ id => exact ih id

theorem Renumbered.push (h : t.Renumbered R t') {e e' : Entity} (he : e.Renumbered R e') :
    (t.push e).Renumbered R (t'.push e') := by
  refine ⟨List.rel_append h.entities (.cons he .nil), ?_⟩
  show ((e'.kind, e'.name), t'.size) :: t'.index = ((e.kind, e.name), t.size) :: t.index
  rw [he.kind, he.name, h.size, h.index]

/-- An entity that has been looked up has a line to be named, if all have. -/
theorem Renumbered.lineAt {kind : Kind} {name : String} {id : Nat} (h : t.Renumbered R t')
    (hagrees : t.Agrees) (ht : ∀ e ∈ t.entities, e.line.isSome)
    (hlookup : t.lookup kind name = some id) : R (t.lineAt id) (t'.lineAt id) := by
  obtain ⟨f, hf, _⟩ := Option.map_eq_some_iff.mp (hagrees.get?_of_lookup hlookup)
  unfold SymbolTable.lineAt
  rcases h.get?_cases id with ⟨hnone, _⟩ | ⟨e, e', hget, hget', he⟩
  · rw [hnone] at hf
    cases hf
  · rw [hget, hget']
    exact he.line (ht e (List.mem_of_getElem? hget))

theorem Renumbered.pushAll (file : String) {es es' : List Entity} (h : t.Renumbered R t')
    (hagrees : t.Agrees) (ht : ∀ e ∈ t.entities, e.line.isSome)
    (hes : List.Forall₂ (Entity.Renumbered R) es es') (hlines : ∀ e ∈ es, e.line.isSome) :
    Carried R (SymbolTable.Renumbered R) (t.pushAll file es) (t'.pushAll file es') := by
  induction hes generalizing t t' with
  | nil => exact .ok h
  | @cons e e' es es' he _ ih =>
    obtain ⟨hline, hothers⟩ := List.forall_mem_cons.mp hlines
    rw [SymbolTable.pushAll, SymbolTable.pushAll, h.lookup, he.kind, he.name]
    cases hlookup : t.lookup e.kind e.name with
    | some first =>
      exact .error (.duplicate file (he.line hline) e.kind e.name (h.lineAt hagrees ht hlookup))
    | none =>
      refine ih (h.push he) (agrees_push hagrees (hagrees.lookup_eq_none_iff.mp hlookup)) ?_ hothers
      intro f hf
      rcases List.mem_append.mp hf with hf | hf
      · exact ht f hf
      · rw [List.mem_singleton.mp hf]
        exact hline

theorem Renumbered.resolveSpec (h : t.Renumbered R t') (spec : MemberSpec) :
    (t.resolveSpec spec).1.Renumbered R (t'.resolveSpec spec).1 ∧
      (t'.resolveSpec spec).2 = (t.resolveSpec spec).2 := by
  unfold SymbolTable.resolveSpec
  rw [h.lookup, h.size]
  cases t.lookup spec.kind spec.name with
  | some id => exact ⟨h, rfl⟩
  | none => exact ⟨h.push ⟨none, .none, rfl⟩, rfl⟩

theorem Renumbered.resolveSpecs (h : t.Renumbered R t') (specs : List MemberSpec) :
    (t.resolveSpecs specs).1.Renumbered R (t'.resolveSpecs specs).1 ∧
      (t'.resolveSpecs specs).2 = (t.resolveSpecs specs).2 := by
  induction specs generalizing t t' with
  | nil => exact ⟨h, rfl⟩
  | cons spec specs ih =>
    obtain ⟨htable, hmember⟩ := h.resolveSpec spec
    obtain ⟨hlast, hmembers⟩ := ih htable
    refine ⟨hlast, ?_⟩
    simp only [SymbolTable.resolveSpecs]
    rw [hmember, hmembers]

theorem Renumbered.resolveEntities (h : t.Renumbered R t') {es es' : List Entity}
    (hes : List.Forall₂ (Entity.Renumbered R) es es') :
    (t.resolveEntities es).1.Renumbered R (t'.resolveEntities es').1 ∧
      (t'.resolveEntities es').2 = (t.resolveEntities es).2 := by
  induction hes generalizing t t' with
  | nil => exact ⟨h, rfl⟩
  | @cons e e' es es' he _ ih =>
    obtain ⟨htable, hmembers⟩ := h.resolveSpecs e.shape.members
    obtain ⟨hlast, hothers⟩ := ih htable
    simp only [SymbolTable.resolveEntities]
    rw [he.shape]
    refine ⟨hlast, ?_⟩
    rw [hmembers, hothers]

theorem Renumbered.chooseRoot (h : t.Renumbered R t') (root : Option String) :
    Carried R Eq (t.chooseRoot root) (t'.chooseRoot root) := by
  cases root with
  | none => exact .ok rfl
  | some wanted =>
    have hdisplay : t'.lookupDisplay wanted = t.lookupDisplay wanted := by
      unfold lookupDisplay
      simp only [h.lookup]
    unfold SymbolTable.chooseRoot findRoot
    dsimp only
    rw [hdisplay]
    cases t.lookupDisplay wanted with
    | none => exact .error (.unknownRoot wanted)
    | some id =>
      -- Whether the entity has a number decides here, and not which it is.
      have hline : ((t'.get? id).bind Entity.line).isSome
          = ((t.get? id).bind Entity.line).isSome := by
        rcases h.get?_cases id with ⟨hnone, hnone'⟩ | ⟨e, e', hget, hget', he⟩
        · rw [hnone, hnone']
        · rw [hget, hget']
          exact he.isSome_line
      dsimp only
      rw [hline]
      split
      · exact .ok rfl
      · exact .error (.unknownRoot wanted)

end SymbolTable

/-- The same resolved schema, with other numbers for its entities. -/
structure Resolved.Renumbered (R : UInt32 → UInt32 → Prop) (s s' : Resolved) : Prop where
  table : s.table.Renumbered R s'.table
  members : s'.members = s.members
  root : s'.root = s.root

theorem SymbolTable.Renumbered.resolve (file : String) {t t' : SymbolTable}
    (h : t.Renumbered R t') (root : Option String) :
    Carried R (Resolved.Renumbered R) (t.resolve file root) (t'.resolve file root) := by
  have hempty : t'.entities.isEmpty = t.entities.isEmpty := by
    rw [Bool.eq_iff_iff, List.isEmpty_iff_length_eq_zero, List.isEmpty_iff_length_eq_zero,
      h.entities.length_eq]
  obtain ⟨htable, hmembers⟩ := h.resolveEntities h.entities
  unfold SymbolTable.resolve
  rw [hempty]
  split
  · exact .error (.noEntities file)
  · refine (h.chooseRoot root).bind fun id id' _ hid => ?_
    subst hid
    refine .ok ⟨htable, ?_, rfl⟩
    dsimp only
    rw [hmembers, htable.size, h.size]

namespace Resolved
variable {s s' : Resolved}

theorem Renumbered.nonterminalAt (h : s.Renumbered R s') (id : Nat) :
    s'.nonterminalAt id = s.nonterminalAt id := by
  unfold Resolved.nonterminalAt
  rcases h.table.get?_cases id with ⟨hnone, hnone'⟩ | ⟨e, e', hget, hget', he⟩
  · rw [hnone, hnone']
  · rw [hget, hget']
    show e'.nonterminal = e.nonterminal
    exact he.nonterminal

theorem Renumbered.grammar (h : s.Renumbered R s') (name : String) :
    s'.grammar name = s.grammar name := by
  have hrules : ∀ e e' members, Entity.Renumbered R e e' →
      s'.entityRules e' members = s.entityRules e members := by
    intro e e' members he
    simp only [entityRules, arrayRules, mappingRules, h.nonterminalAt, he.nonterminal, he.shape]
  have hzip : ∀ {es es' : List Entity} (members : List (List Member)),
      List.Forall₂ (Entity.Renumbered R) es es' →
      List.zipWith s'.entityRules es' members = List.zipWith s.entityRules es members := by
    intro es es' members hes
    induction hes generalizing members with
    | nil => rfl
    | cons he _ ih =>
      cases members with
      | nil => rfl
      | cons first members =>
        rw [List.zipWith_cons_cons, List.zipWith_cons_cons, ih, hrules _ _ _ he]
  unfold Resolved.grammar
  rw [h.members, h.root, h.nonterminalAt, hzip _ h.table.entities]

end Resolved

/-! ## Compilation -/

section
variable {file source source' : String}

variable (h : Carried R (List.Forall₂ (Declaration.Renumbered R))
  (Declaration.readAll file source) (Declaration.readAll file source'))
include h

end

end TreeSchema.Schema
