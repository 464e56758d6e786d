import TreeSchema.Proofs.EndToEnd
/-
  What the root can reach

  Where an entity stands in a schema, and what else stands there, shows in
  the places and in the order of the rules, and in nothing that a validator
  says. Two patterns are alike if their members are, one by one and in
  order, and trees are judged the same by patterns that stay alike as far as
  members go (`check_eq_of_alike`). The places of two schemas that go by one
  kind and name are alike as soon as what both roots can reach has the same
  shape in both.
-/

namespace TreeSchema.Schema

open Validation
open Grammar (isIdentifier)

/-! ## Patterns that are alike -/

/-- The same pattern, with related members in the same order. -/
inductive Pattern.Alike {ι κ : Type} (R : ι → κ → Prop) : Pattern ι → Pattern κ → Prop where
  | anyScalar : Alike R .anyScalar .anyScalar
  | oneOf {values : List String} : Alike R (.oneOf values) (.oneOf values)
  | array {l : List ι} {k : List κ} (members : List.Forall₂ R l k) : Alike R (.array l) (.array k)
  | mapping {l : List (String × ι)} {k : List (String × κ)}
    (members : List.Forall₂ (fun a b => a.1 = b.1 ∧ R a.2 b.2) l k) :
    Alike R (.mapping l) (.mapping k)

theorem map_eq_of_forall₂ {α β γ : Type} {R : α → β → Prop} {f : α → γ} {g : β → γ} {l : List α}
    {k : List β} (h : List.Forall₂ R l k) (hfg : ∀ a b, R a b → f a = g b) :
    l.map f = k.map g := by
  induction h with
  | nil => rfl
  | cons hab _ ih => rw [List.map_cons, List.map_cons, hfg _ _ hab, ih]

namespace Pattern.Alike
variable {ι κ : Type} {R : ι → κ → Prop} {p : Pattern ι} {q : Pattern κ}

theorem heads_eq (h : p.Alike R q) : p.heads = q.heads := by
  cases h <;> rfl

theorem begins_eq (h : p.Alike R q) (t : TreeToken) : p.begins t = q.begins t := by
  rw [Pattern.begins, h.heads_eq, Pattern.begins]

theorem items (h : p.Alike R q) : List.Forall₂ R p.items q.items := by
  cases h with
  | anyScalar => exact .nil
  | oneOf => exact .nil
  | array members => exact members
  | mapping members => exact .nil

theorem entries (h : p.Alike R q) :
    List.Forall₂ (fun a b => a.1 = b.1 ∧ R a.2 b.2) p.entries q.entries := by
  cases h with
  | anyScalar => exact .nil
  | oneOf => exact .nil
  | array members => exact .nil
  | mapping members => exact members

end Pattern.Alike

section
variable {ι κ : Type} {R : ι → κ → Prop} {meaning : ι → Pattern ι} {meaning' : κ → Pattern κ}
  {label : ι → String} {label' : κ → String}

theorem itemHeads_eq_of_alike (halike : ∀ i k, R i k → (meaning i).Alike R (meaning' k))
    {members : List ι} {members' : List κ} (hmembers : List.Forall₂ R members members') :
    itemHeads meaning members = itemHeads meaning' members' := by
  have hheads := map_eq_of_forall₂ hmembers fun i k hik => (halike i k hik).heads_eq
  cases hmembers with
  | nil => rfl
  | cons _ _ =>
    simp only [itemHeads, List.isEmpty_cons, Bool.false_eq_true, if_false, List.flatMap, hheads]

theorem entryHeads_eq_of_alike {members : List (String × ι)} {members' : List (String × κ)}
    (hmembers : List.Forall₂ (fun a b => a.1 = b.1 ∧ R a.2 b.2) members members') :
    entryHeads members = entryHeads members' := by
  have hkeys : members.map (fun m => Terminal.key (some m.1))
      = members'.map fun m => Terminal.key (some m.1) :=
    map_eq_of_forall₂ hmembers fun a b hab => by rw [hab.1]
  cases hmembers with
  | nil => rfl
  | cons _ _ => simp only [entryHeads, List.isEmpty_cons, Bool.false_eq_true, if_false, hkeys]

theorem itemVerdict_eq_of_related {members : List ι} {members' : List κ}
    (hmembers : List.Forall₂ R members members') {verdict : ι → Option (List Violation)}
    {verdict' : κ → Option (List Violation)} (h : ∀ i k, R i k → verdict i = verdict' k)
    (n : Node) : itemVerdict members n verdict = itemVerdict members' n verdict' := by
  have hfilter : members.filterMap verdict = members'.filterMap verdict' := by
    induction hmembers with
    | nil => rfl
    | cons hab _ ih => rw [List.filterMap_cons, List.filterMap_cons, h _ _ hab, ih]
  cases hmembers with
  | nil => rfl
  | cons _ _ => simp only [itemVerdict, List.isEmpty_cons, Bool.false_eq_true, if_false, hfilter]

theorem entryVerdict_eq_of_related {members : List (String × ι)} {members' : List (String × κ)}
    (hmembers : List.Forall₂ (fun a b => a.1 = b.1 ∧ R a.2 b.2) members members')
    {verdict : ι → Option (List Violation)} {verdict' : κ → Option (List Violation)}
    (h : ∀ i k, R i k → verdict i = verdict' k) (key : String) (n : Node) :
    entryVerdict members key n verdict = entryVerdict members' key n verdict' := by
  have hfind : (members.find? fun m => m.1 == key).bind (fun m => verdict m.2)
      = (members'.find? fun m => m.1 == key).bind fun m => verdict' m.2 := by
    induction hmembers with
    | nil => rfl
    | @cons a b l k hab _ ih =>
      rw [List.find?_cons, List.find?_cons, hab.1]
      cases b.1 == key with
      | true => exact h _ _ hab.2
      | false => exact ih
  cases hmembers with
  | nil => rfl
  | cons _ _ => simp only [entryVerdict, List.isEmpty_cons, Bool.false_eq_true, if_false, hfind]

theorem check_eq_of_alike (halike : ∀ i k, R i k → (meaning i).Alike R (meaning' k))
    (hlabel : ∀ i k, R i k → label i = label' k) {i : ι} {k : κ} (hik : R i k) (n : Node)
    (path : String) : check meaning label path n i = check meaning' label' path n k := by
  induction n using Node.induction generalizing i k path with
  | scalar text => rw [check, check, (halike i k hik).begins_eq]
  | sequence items ih =>
    have hmembers := (halike i k hik).items
    have hitems : ∀ index, checkItems meaning label (label i) (meaning i).items path index items
        = checkItems meaning' label' (label' k) (meaning' k).items path index items := by
      induction items with
      | nil => exact fun _ => rfl
      | cons n rest ihrest =>
        intro index
        rw [checkItems, checkItems, ihrest (fun m hm => ih m (List.mem_cons_of_mem n hm)),
          itemVerdict_eq_of_related hmembers
            (fun i k hik => ih n List.mem_cons_self hik (Path.child path (toString index))),
          itemHeads_eq_of_alike halike hmembers, hlabel i k hik]
    rw [check, check, (halike i k hik).begins_eq, hitems]
  | mapping entries ih =>
    have hmembers := (halike i k hik).entries
    have hentries : checkEntries meaning label (label i) (meaning i).entries path entries
        = checkEntries meaning' label' (label' k) (meaning' k).entries path entries := by
      induction entries with
      | nil => rfl
      | cons e rest ihrest =>
        obtain ⟨key, n⟩ := e
        rw [checkEntries, checkEntries,
          ihrest (fun f hf => ih f (List.mem_cons_of_mem (key, n) hf)),
          entryVerdict_eq_of_related hmembers
            (fun i k hik => ih (key, n) List.mem_cons_self hik (Path.child path key)),
          entryHeads_eq_of_alike hmembers, hlabel i k hik]
    rw [check, check, (halike i k hik).begins_eq, hentries]

theorem treeViolations_eq_of_alike (halike : ∀ i k, R i k → (meaning i).Alike R (meaning' k))
    (hlabel : ∀ i k, R i k → label i = label' k) {i : ι} {k : κ} (hik : R i k) (n : Node) :
    treeViolations meaning label i n = treeViolations meaning' label' k n := by
  rw [treeViolations, treeViolations, check_eq_of_alike halike hlabel hik, hlabel i k hik,
    (halike i k hik).heads_eq]

end

/-! ## What a root reaches -/

/-- The shape that entities declare for a kind and name; the least one if
they declare none. -/
def declaredShape (es : List Entity) (r : Reference) : Shape :=
  ((es.find? fun e => e.isCalled r.kind r.name).map Entity.shape).getD (.least r.kind)

/-- The root, its members, their members, and so on. -/
inductive Reaches (es : List Entity) (root : Reference) : Reference → Prop where
  | root : Reaches es root root
  | member {r : Reference} {m : MemberSpec} (owner : Reaches es root r)
    (mem : m ∈ (declaredShape es r).members) : Reaches es root m.reference

theorem declaredShape_of_mem {es : List Entity} (hnodup : (es.map Entity.reference).Nodup)
    {e : Entity} (he : e ∈ es) : declaredShape es e.reference = e.shape := by
  have hfind : es.find? (fun x => x.isCalled e.reference.kind e.reference.name) = some e :=
    find?_of_nodup_map hnodup he fun x _ => isCalled_iff
  rw [declaredShape, hfind]
  rfl

theorem declaredShape_of_not_mem {es : List Entity} {r : Reference}
    (h : r ∉ es.map Entity.reference) : declaredShape es r = .least r.kind := by
  have hfind : es.find? (fun e => e.isCalled r.kind r.name) = none := by
    apply List.find?_eq_none.mpr
    intro e he hcalled
    exact h (List.mem_map.mpr ⟨e, he, isCalled_iff.mp hcalled⟩)
  rw [declaredShape, hfind]
  rfl

namespace Resolved
variable {s s' : Resolved} {es es' : List Entity} {wanted wanted' : Option String}

theorem Closes.shape_eq (h : s.Closes es wanted) {id : Nat} {e : Entity}
    (he : s.table.get? id = some e) : e.shape = declaredShape es e.reference := by
  rcases h.mem_entities (List.mem_of_getElem? he) with hmem | ⟨r, _, hfresh, rfl⟩
  · exact (declaredShape_of_mem h.nodup_references hmem).symm
  · rw [reference_anonymous, declaredShape_of_not_mem hfresh]
    rfl

/-- Places of two schemas that go by the same kind and name, where both roots
reach it. -/
def Twins (s s' : Resolved) (es es' : List Entity) (root : Reference) (i k : Nat) : Prop :=
  ∃ r, Reaches es root r ∧ Reaches es' root r ∧ s.Names i r ∧ s'.Names k r

/-- The members that one shape has in two schemas. -/
theorem alike_over {shape : Shape} {ms ms' : List Member} {R : Nat → Nat → Prop}
    (h : List.Forall₂ s.table.Resolves shape.members ms)
    (h' : List.Forall₂ s'.table.Resolves shape.members ms')
    (hR : ∀ spec ∈ shape.members, ∀ i k, s.Names i spec.reference →
      s'.Names k spec.reference → R i k) :
    (shape.over ms).Alike R (shape.over ms') := by
  -- Both lists of members are resolved from the same references, one by one.
  have hmembers : List.Forall₂ (fun m m' => m.key = m'.key ∧ R m.target m'.target) ms ms' := by
    generalize shape.members = specs at h h' hR
    induction h generalizing ms' with
    | nil =>
      cases h'
      exact .nil
    | @cons spec m specs ms hm _ ih =>
      cases h' with
      | cons hm' hrest' =>
        refine .cons ⟨hm.2.trans hm'.2.symm, ?_⟩
          (ih hrest' fun x hx => hR x (List.mem_cons_of_mem _ hx))
        exact hR spec List.mem_cons_self _ _ hm.1 hm'.1
  cases shape with
  | anyScalar => exact .anyScalar
  | oneOf values => exact .oneOf
  | array specs =>
    refine .array ?_
    rw [List.forall₂_map_left_iff, List.forall₂_map_right_iff]
    exact hmembers.imp fun _ _ hmm' => hmm'.2
  | mapping specs =>
    refine .mapping (List.rel_filterMap ?_ hmembers)
    intro m m' hmm'
    show Option.Rel _ (m.key.map fun key => (key, m.target))
      (m'.key.map fun key => (key, m'.target))
    rw [hmm'.1]
    cases m'.key with
    | none => exact .none
    | some key => exact .some ⟨rfl, hmm'.2⟩

variable {root : Reference}

theorem alike_of_twins (h : s.Closes es wanted) (h' : s'.Closes es' wanted')
    (hagree : ∀ r, Reaches es root r → Reaches es' root r →
      declaredShape es r = declaredShape es' r) (i k : Nat)
    (hik : Twins s s' es es' root i k) :
    (s.pattern i).Alike (Twins s s' es es' root) (s'.pattern k) := by
  obtain ⟨r, hreach, hreach', hi, hk⟩ := hik
  obtain ⟨e, he, rfl⟩ := Option.map_eq_some_iff.mp hi
  obtain ⟨e', he', href⟩ := Option.map_eq_some_iff.mp hk
  -- Both entities have the shape that the two schemas declare.
  have hshape := h.shape_eq he
  have hshape' : e'.shape = e.shape := by
    rw [h'.shape_eq he', href, ← hagree _ hreach hreach', ← hshape]
  rw [pattern_eq he, pattern_eq he', hshape']
  refine alike_over (h.membersAt he) (hshape' ▸ h'.membersAt he') ?_
  intro spec hspec i k hi hk
  refine ⟨spec.reference, .member hreach ?_, .member hreach' ?_, hi, hk⟩
  · rw [← hshape]
    exact hspec
  · rw [← hagree _ hreach hreach', ← hshape]
    exact hspec

theorem nonterminalAt_eq_of_twins (i k : Nat) (hik : Twins s s' es es' root i k) :
    s.nonterminalAt i = s'.nonterminalAt k := by
  obtain ⟨r, _, _, hi, hk⟩ := hik
  obtain ⟨e, he, rfl⟩ := Option.map_eq_some_iff.mp hi
  obtain ⟨e', he', href⟩ := Option.map_eq_some_iff.mp hk
  obtain ⟨hkind, hname⟩ := Reference.mk.inj href
  rw [nonterminalAt_eq he, nonterminalAt_eq he', Entity.nonterminal, Entity.nonterminal, hkind,
    hname]

theorem Closes.names_root (h : s.Closes es wanted)
    (hroot : rootReference (es.map Entity.reference) wanted = some root) :
    s.Names s.root root := by
  obtain ⟨e, _, hget, href⟩ := h.root
  rw [Names, hget, Option.map_some, ← href, hroot]

end Resolved

/-! ## Lines of a schema -/

namespace Declaration

/-- What a line declares, wherever it stands. -/
def ofLine? (raw : List Char) : Option Declaration :=
  if saysNothing (Text.trim raw) then none else (ofText 0 (Text.trim raw)).toOption

theorem ofText_zero {line : UInt32} {text : List Char} {d : Declaration}
    (h : ofText line text = .ok d) : ofText 0 text = .ok { d with line := 0 } := by
  unfold ofText at h ⊢
  split at h
  · cases h
  · dsimp only at h ⊢
    split at h
    · cases h
    · obtain ⟨name, hname, h⟩ := bind_eq_ok_iff.mp h
      obtain ⟨items, hitems, h⟩ := bind_eq_ok_iff.mp h
      cases h
      rw [hname, hitems]
      rfl

theorem filterMap_ofLine? {file : String} {position : Nat} {lines : List (List Char)}
    {ds : List Declaration} (h : ofLines file position lines = .ok ds) :
    lines.filterMap ofLine? = ds.map fun d => { d with line := 0 } := by
  induction lines generalizing position ds with
  | nil =>
    cases h
    rfl
  | cons raw rest ih =>
    unfold ofLines at h
    dsimp only at h
    split at h
    · next hnothing =>
      have hnone : ofLine? raw = none := if_pos hnothing
      rw [List.filterMap_cons_none hnone, ih h]
    · next hsays =>
      split at h
      · cases h
      · next d hd =>
        obtain ⟨others, hothers, h⟩ := bind_eq_ok_iff.mp h
        cases h
        have hsome : ofLine? raw = some { d with line := 0 } := by
          rw [ofLine?, if_neg hsays, ofText_zero hd]
          rfl
        rw [List.filterMap_cons_some hsome, ih hothers, List.map_cons]

theorem shape_of_items_eq_nil {d : Declaration} (h : d.items = []) :
    d.shape = .ok (.least d.kind) := by
  unfold shape
  rw [h]
  cases d.kind <;> rfl

end Declaration

/-- The declarations on the lines of a schema text, wherever they stand. -/
def declarationsOn (lines : List (List Char)) : List Declaration :=
  lines.filterMap Declaration.ofLine?

theorem mem_declarationsOn_iff {lines common own : List (List Char)}
    (h : lines.Perm (common ++ own)) (d : Declaration) :
    d ∈ declarationsOn lines ↔ d ∈ declarationsOn common ∨ d ∈ declarationsOn own := by
  unfold declarationsOn
  rw [(h.filterMap Declaration.ofLine?).mem_iff, List.filterMap_append, List.mem_append]

/-- Each declaration on a line, in order, gives an entity of its kind, name
and shape. -/
theorem forall₂_declarationsOn {file source : String} {es : List Entity}
    (h : readEntities file source = .ok es) :
    List.Forall₂ (fun d e => e.reference = d.reference ∧ d.shape = .ok e.shape)
      (declarationsOn (Text.lines source.toList)) es := by
  obtain ⟨ds, hds, hes⟩ := bind_eq_ok_iff.mp h
  rw [declarationsOn, Declaration.filterMap_ofLine? hds, List.forall₂_map_left_iff]
  refine (assemble_eq_ok_iff.mp hes).imp fun d e hentity => ?_
  have href : e.reference = d.reference := Declaration.reference_of_entity hentity
  refine ⟨href, ?_⟩
  obtain ⟨shape, hshape, rfl⟩ := Declaration.entity_eq_ok_iff.mp hentity
  exact hshape

section
variable {ds : List Declaration} {es : List Entity}

theorem shape_of_mem_declarations
    (h : List.Forall₂ (fun d e => e.reference = d.reference ∧ d.shape = .ok e.shape) ds es)
    (hnodup : (es.map Entity.reference).Nodup) {d : Declaration} (hd : d ∈ ds) :
    d.shape = .ok (declaredShape es d.reference) := by
  obtain ⟨e, he, href, hshape⟩ := exists_right_of_forall₂ h hd
  rw [← href, declaredShape_of_mem hnodup he]
  exact hshape

theorem declaredShape_of_empty
    (h : List.Forall₂ (fun d e => e.reference = d.reference ∧ d.shape = .ok e.shape) ds es)
    (hnodup : (es.map Entity.reference).Nodup) {r : Reference}
    (hempty : ∀ d ∈ ds, d.reference = r → d.items = []) :
    declaredShape es r = .least r.kind := by
  by_cases hmem : r ∈ es.map Entity.reference
  · obtain ⟨e, he, rfl⟩ := List.mem_map.mp hmem
    obtain ⟨d, hd, href, hshape⟩ := exists_left_of_forall₂ h he
    rw [Declaration.shape_of_items_eq_nil (hempty d hd href.symm)] at hshape
    rw [declaredShape_of_mem hnodup he, href]
    exact (Except.ok.inj hshape).symm
  · exact declaredShape_of_not_mem hmem

end

section
variable {file file' source source' : String} {es es' : List Entity} {root : Reference}

/-- A line of only one of the schemas makes no difference if what it declares
has no items or is out of reach. -/
theorem declaredShape_eq_of_lines (hes : readEntities file source = .ok es)
    (hes' : readEntities file' source' = .ok es') (hnodup : (es.map Entity.reference).Nodup)
    (hnodup' : (es'.map Entity.reference).Nodup) {common own own' : List (List Char)}
    (hlines : (Text.lines source.toList).Perm (common ++ own))
    (hlines' : (Text.lines source'.toList).Perm (common ++ own'))
    (hown : ∀ d ∈ declarationsOn (own ++ own'), d.items = [] ∨
      ¬ Reaches es root d.reference ∨ ¬ Reaches es' root d.reference) (r : Reference)
    (hreach : Reaches es root r) (hreach' : Reaches es' root r) :
    declaredShape es r = declaredShape es' r := by
  have hds := forall₂_declarationsOn hes
  have hds' := forall₂_declarationsOn hes'
  have hmem := mem_declarationsOn_iff hlines
  have hmem' := mem_declarationsOn_iff hlines'
  have hmemown := mem_declarationsOn_iff (List.Perm.refl (own ++ own'))
  by_cases hcommon : ∃ d ∈ declarationsOn common, d.reference = r
  · obtain ⟨d, hd, rfl⟩ := hcommon
    have hshape := shape_of_mem_declarations hds hnodup ((hmem d).mpr (Or.inl hd))
    rw [shape_of_mem_declarations hds' hnodup' ((hmem' d).mpr (Or.inl hd))] at hshape
    exact (Except.ok.inj hshape).symm
  · -- Whatever declares it stands on a line of one schema only, so it declares nothing more.
    have hempty : ∀ d, d ∈ declarationsOn common ∨ d ∈ declarationsOn (own ++ own') →
        d.reference = r → d.items = [] := by
      rintro d (hd | hd) rfl
      · exact absurd ⟨d, hd, rfl⟩ hcommon
      · rcases hown d hd with hitems | hnot | hnot
        · exact hitems
        · exact absurd hreach hnot
        · exact absurd hreach' hnot
    have hleast : declaredShape es r = .least r.kind := by
      refine declaredShape_of_empty hds hnodup fun d hd => hempty d ?_
      rw [hmemown]
      exact ((hmem d).mp hd).imp_right Or.inl
    have hleast' : declaredShape es' r = .least r.kind := by
      refine declaredShape_of_empty hds' hnodup' fun d hd => hempty d ?_
      rw [hmemown]
      exact ((hmem' d).mp hd).imp_right Or.inr
    rw [hleast, hleast']

/-- The validator that a schema text compiles to. -/
theorem exists_validator_of_compile {text : String} {options : Options}
    (hname : isIdentifier options.name = true) (h : compile file source options = .ok text)
    (hes : readEntities file source = .ok es) :
    ∃ (s : Resolved) (v : Validator), s.Closes es options.root ∧ Validator.ofText text = .ok v ∧
      ∀ n, v.violations? n = some (treeViolations s.pattern s.nonterminalAt s.root n) := by
  obtain ⟨ds, es', s, v, hds, hes', _, hcloses, _, hv, hviolations⟩ :=
    exists_resolved_of_compile hname h
  have hread : readEntities file source = .ok es' := bind_eq_ok_iff.mpr ⟨ds, hds, hes'⟩
  rw [hes] at hread
  cases hread
  exact ⟨s, v, hcloses, hv, hviolations⟩

end

/-- Two validators that report the same of every document. -/
def ReportAlike (v v' : Validator) : Prop :=
  ∀ n, ∃ found, v.violations? n = some found ∧ v'.violations? n = some found

/-- If two schema texts compile, and their roots go by one kind and name, then
their validators report the same of every document as soon as whatever both
roots reach has one shape in both. It has if the texts have the same lines up
to their order, but for lines that declare what is out of reach and lines
that declare a name without items. -/
theorem reportAlike_of_reachable {file file' source source' text text' : String}
    {options options' : Options} {es es' : List Entity} {root : Reference}
    (hname : isIdentifier options.name = true) (hname' : isIdentifier options'.name = true)
    (h : compile file source options = .ok text) (h' : compile file' source' options' = .ok text')
    (hes : readEntities file source = .ok es) (hes' : readEntities file' source' = .ok es')
    (hroot : rootReference (es.map Entity.reference) options.root = some root)
    (hroot' : rootReference (es'.map Entity.reference) options'.root = some root) :
    ∃ v v', Validator.ofText text = .ok v ∧ Validator.ofText text' = .ok v' ∧
      ((∀ r, Reaches es root r → Reaches es' root r →
        declaredShape es r = declaredShape es' r) → ReportAlike v v') ∧
      ∀ common own own', (Text.lines source.toList).Perm (common ++ own) →
        (Text.lines source'.toList).Perm (common ++ own') →
        (∀ d ∈ declarationsOn (own ++ own'), d.items = [] ∨
          ¬ Reaches es root d.reference ∨ ¬ Reaches es' root d.reference) →
        ReportAlike v v' := by
  obtain ⟨s, v, hcloses, hv, hfound⟩ := exists_validator_of_compile hname h hes
  obtain ⟨s', v', hcloses', hv', hfound'⟩ := exists_validator_of_compile hname' h' hes'
  have hagree : (∀ r, Reaches es root r → Reaches es' root r →
      declaredShape es r = declaredShape es' r) → ReportAlike v v' := by
    intro hshapes n
    refine ⟨_, hfound n, ?_⟩
    rw [hfound' n, treeViolations_eq_of_alike (Resolved.alike_of_twins hcloses hcloses' hshapes)
      Resolved.nonterminalAt_eq_of_twins
      ⟨root, .root, .root, hcloses.names_root hroot, hcloses'.names_root hroot'⟩]
  refine ⟨v, v', hv, hv', hagree, ?_⟩
  intro common own own' hlines hlines' hown
  exact hagree (declaredShape_eq_of_lines hes hes' hcloses.nodup_references
    hcloses'.nodup_references hlines hlines' hown)

/-- The lines of `nestedSource` in another order, with a declaration that
nothing refers to and one that says no more than nothing would. -/
def nestedReordered : String :=
  "$leaf: 'x 'y\n%other: %tree $leaf\n@children: %tree $leaf\n$value:\n" ++
    "%tree: $value @(below)children"

def nestedReorderedEntities : List Entity :=
  [{ name := "leaf", shape := .oneOf ["x", "y"], line := some 1 },
   { name := "other"
     shape := .mapping [⟨.mapping, "tree", some "tree"⟩, ⟨.scalar, "leaf", some "leaf"⟩]
     line := some 2 },
   { name := "children"
     shape := .array [⟨.mapping, "tree", none⟩, ⟨.scalar, "leaf", none⟩]
     line := some 3 },
   { name := "value", shape := .anyScalar, line := some 4 },
   { name := "tree"
     shape := .mapping [⟨.scalar, "value", some "value"⟩, ⟨.array, "children", some "below"⟩]
     line := some 5 }]

theorem exists_compile {file source : String} (options : Options) {es : List Entity}
    (hes : readEntities file source = .ok es)
    (h : (resolveEntities file es options.root).isOk = true) :
    ∃ text, compile file source options = .ok text := by
  obtain ⟨s, hs⟩ := exists_eq_ok h
  have hresolve : resolveSource file source options.root = .ok s := bind_eq_ok_iff.mpr ⟨es, hes, hs⟩
  have hgrammar := compileGrammar_eq_ok_iff.mpr ⟨s, hresolve, rfl⟩
  exact ⟨_, bind_eq_ok_iff.mpr ⟨_, hgrammar, rfl⟩⟩

theorem not_reaches_other :
    ¬ Reaches nestedReorderedEntities ⟨.mapping, "tree"⟩ ⟨.mapping, "other"⟩ := by
  have hclosed : ∀ r, Reaches nestedReorderedEntities ⟨.mapping, "tree"⟩ r →
      r ∈ [⟨.mapping, "tree"⟩, ⟨.scalar, "value"⟩, ⟨.array, "children"⟩,
        (⟨.scalar, "leaf"⟩ : Reference)] := by
    intro r hr
    induction hr with
    | root => exact List.mem_cons_self
    | @member r m _ hmem ih =>
      simp only [List.mem_cons, List.not_mem_nil, or_false] at ih
      revert m
      rcases ih with rfl | rfl | rfl | rfl <;> decide
  intro h
  exact absurd (hclosed _ h) (by decide)

/-- The two schemas report the same of every document. -/
theorem nested_reportAlike :
    ∃ text text' v v', compile nestedFile nestedSource { name := "Tree" } = .ok text ∧
      compile nestedFile nestedReordered { name := "Forest", root := some "%tree" } = .ok text' ∧
      Validator.ofText text = .ok v ∧ Validator.ofText text' = .ok v' ∧ ReportAlike v v' := by
  have hread : readEntities nestedFile nestedSource = .ok (nested.table.entities.take 3) := by
    decide +kernel
  have hread' : readEntities nestedFile nestedReordered = .ok nestedReorderedEntities := by
    decide +kernel
  obtain ⟨text, htext⟩ := exists_compile { name := "Tree" } hread (by decide +kernel)
  obtain ⟨text', htext'⟩ :=
    exists_compile { name := "Forest", root := some "%tree" } hread' (by decide +kernel)
  obtain ⟨v, v', hv, hv', _, halike⟩ :=
    reportAlike_of_reachable (by decide) (by decide) htext htext' hread hread' rfl rfl
  refine ⟨text, text', v, v', htext, htext', hv, hv', ?_⟩
  have hlines : (Text.lines nestedReordered.toList).Perm
      (Text.lines nestedSource.toList ++ ["%other: %tree $leaf".toList, "$value:".toList]) := by
    decide +kernel
  refine halike _ [] _ (by rw [List.append_nil]) hlines ?_
  have hown : declarationsOn ([] ++ ["%other: %tree $leaf".toList, "$value:".toList])
      = [⟨.mapping, "other", [.reference .mapping "tree", .reference .scalar "leaf"], 0⟩,
        ⟨.scalar, "value", [], 0⟩] := by
    decide +kernel
  intro d hd
  rw [hown] at hd
  rcases List.mem_pair.mp hd with rfl | rfl
  · exact Or.inr (Or.inr not_reaches_other)
  · exact Or.inl rfl

end TreeSchema.Schema
