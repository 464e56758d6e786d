import TreeSchema.Proofs.Assembly
/-
  Legal declarations

  Which items a declaration may list, and the entity that a legal declaration
  comes to: literals and array members without their repeats, mapping members
  under their keys. One declaration is assembled just if it is legal
  (`entity_eq_ok_iff_legal`), and a list of them is assembled one by one up to
  the first that is not (`exists_illegal_of_assemble`).
-/

namespace TreeSchema.Schema

def Item.isValue : Item → Bool
  | literal _ | text => true
  | reference .. | aliased .. => false

theorem Item.isValue_iff {item : Item} :
    item.isValue = true ↔ item = .text ∨ ∃ value, item = .literal value := by
  cases item <;> simp [isValue]

namespace Declaration

/-- The items are such as a declaration of this kind may list: values for a
scalar, plain references for an array, plain or aliased references under
pairwise distinct keys for a mapping. -/
def Legal (d : Declaration) : Prop :=
  match d.kind with
  | .scalar => ∀ item ∈ d.items, item.isValue = true
  | .array => ∀ item ∈ d.items, item.member?.isSome = true
  | .mapping =>
    (∀ item ∈ d.items, item.entry?.isSome = true) ∧
      ((d.items.filterMap Item.entry?).map Prod.fst).Nodup

/-- The shape of a declaration that is legal. A scalar with no items, or with
the text marker among them, may hold anything; literals and array members
count where they come first. -/
def normalShape (d : Declaration) : Shape :=
  match d.kind with
  | .scalar =>
    if d.items = [] ∨ Item.text ∈ d.items then .anyScalar
    else .oneOf (d.items.filterMap Item.literal?).eraseDups
  | .array => .array ((d.items.filterMap Item.member?).eraseDups.map Reference.arrayMember)
  | .mapping =>
    .mapping ((d.items.filterMap Item.entry?).map fun (key, r) => r.keyedMember key)

/-- The entity of a declaration that is legal. -/
def normalEntity (d : Declaration) : Entity :=
  { name := d.name, shape := d.normalShape, line := some d.line }

variable {d : Declaration} {s : Shape} {e : Entity}

/-! ## One declaration -/

theorem arrayMember_injective : Function.Injective Reference.arrayMember := by
  intro r r' h
  obtain ⟨hkind, hname, _⟩ := MemberSpec.mk.inj h
  cases r
  cases r'
  exact congrArg₂ Reference.mk hkind hname

/-- Array members are gathered as the references they make. -/
theorem foldl_addNew_arrayMember (rs : List Reference) :
    (rs.map Reference.arrayMember).foldl addNew [] = rs.eraseDups.map Reference.arrayMember := by
  rw [← foldl_addNew_nil rs]
  exact foldl_addNew_map arrayMember_injective [] rs

/-- Members have distinct keys just if the items they stand for do. -/
theorem nodup_key_iff (entries : List (String × Reference)) :
    ((entries.map fun x => x.2.keyedMember x.1).map MemberSpec.key).Nodup ↔
      (entries.map Prod.fst).Nodup := by
  have hkeys : (entries.map fun x => x.2.keyedMember x.1).map MemberSpec.key
      = (entries.map Prod.fst).map some := by
    simp [Reference.keyedMember]
  rw [hkeys]
  exact List.nodup_map_iff (fun _ _ h => Option.some.inj h)

theorem shape_eq_ok_iff_legal : d.shape = .ok s ↔ d.Legal ∧ s = d.normalShape := by
  unfold Legal normalShape
  cases hk : d.kind with
  | scalar =>
    rw [shape_scalar_iff hk, foldl_addNew_nil]
    simp only [Item.isValue_iff]
  | array =>
    rw [shape_array_iff hk, foldl_addNew_arrayMember]
  | mapping =>
    rw [shape_mapping_iff hk]
    dsimp only
    refine ⟨?_, ?_⟩
    · intro h
      obtain ⟨members, hs, hitems, hmembers, hnodup⟩ := h
      rw [hmembers, nodup_key_iff] at hnodup
      exact ⟨⟨hitems, hnodup⟩, by rw [hs, hmembers]⟩
    · intro h
      obtain ⟨⟨hitems, hnodup⟩, hs⟩ := h
      exact ⟨_, hs, hitems, rfl, (nodup_key_iff _).mpr hnodup⟩

theorem entity_eq_ok_iff_legal {file : String} :
    d.entity file = .ok e ↔ d.Legal ∧ e = d.normalEntity := by
  rw [entity_eq_ok_iff]
  refine ⟨?_, ?_⟩
  · intro h
    obtain ⟨s, hs, he⟩ := h
    obtain ⟨hlegal, hshape⟩ := shape_eq_ok_iff_legal.mp hs
    exact ⟨hlegal, by rw [he, hshape, normalEntity]⟩
  · intro h
    obtain ⟨hlegal, he⟩ := h
    exact ⟨d.normalShape, shape_eq_ok_iff_legal.mpr ⟨hlegal, rfl⟩, he⟩

/-- A declaration that is not assembled is illegal, and the error names its
line. -/
theorem illegal_of_entity {file : String} {error : Error} (h : d.entity file = .error error) :
    ¬ d.Legal ∧ ∃ fault, error = .syntaxFault file d.line fault := by
  refine ⟨?_, ?_⟩
  · intro hlegal
    rw [entity_eq_ok_iff_legal.mpr ⟨hlegal, rfl⟩] at h
    cases h
  · unfold entity at h
    split at h
    · next fault _ => exact ⟨fault, (Except.error.inj h).symm⟩
    · cases h

theorem kind_normalEntity (hd : d.Legal) : d.normalEntity.kind = d.kind :=
  kind_of_shape (shape_eq_ok_iff_legal.mpr ⟨hd, rfl⟩)

/-- A scalar that may not hold anything lists a literal. -/
theorem ne_nil_of_normalShape (hd : d.Legal) {values : List String}
    (h : d.normalShape = .oneOf values) : values ≠ [] := by
  unfold normalShape at h
  unfold Legal at hd
  cases hk : d.kind with
  | array => rw [hk] at h; cases h
  | mapping => rw [hk] at h; cases h
  | scalar =>
    rw [hk] at h hd
    dsimp only at h hd
    split at h
    · cases h
    · next hne =>
      obtain ⟨value, hvalue⟩ :=
        exists_literal (fun item hitem => Item.isValue_iff.mp (hd item hitem)) hne
      apply List.ne_nil_of_mem (a := value)
      rw [← Shape.oneOf.inj h, List.mem_eraseDups]
      exact hvalue

end Declaration

/-! ## A list of declarations -/

section
variable {file : String} {ds : List Declaration}

theorem assemble_eq_ok_iff_legal {es : List Entity} :
    assemble file ds = .ok es ↔ (∀ d ∈ ds, d.Legal) ∧ es = ds.map Declaration.normalEntity := by
  rw [assemble_eq_ok_iff]
  refine ⟨?_, ?_⟩
  · intro h
    induction h with
    | nil => simp
    | cons hd _ ih =>
      obtain ⟨hlegal, he⟩ := Declaration.entity_eq_ok_iff_legal.mp hd
      obtain ⟨hrest, hes⟩ := ih
      exact ⟨List.forall_mem_cons.mpr ⟨hlegal, hrest⟩, by rw [List.map_cons, he, hes]⟩
  · intro h
    obtain ⟨hlegal, hes⟩ := h
    rw [hes, List.forall₂_map_right_iff, List.forall₂_same]
    intro d hd
    exact Declaration.entity_eq_ok_iff_legal.mpr ⟨hlegal d hd, rfl⟩

/-- Assembly stops at the first declaration that is illegal, on its line. -/
theorem exists_illegal_of_assemble {error : Error} (h : assemble file ds = .error error) :
    ∃ before d after fault, ds = before ++ d :: after ∧ (∀ b ∈ before, b.Legal) ∧
      ¬ d.Legal ∧ error = .syntaxFault file d.line fault := by
  induction ds with
  | nil => cases h
  | cons d rest ih =>
    rw [assemble] at h
    cases hd : d.entity file with
    | error found =>
      rw [hd] at h
      obtain ⟨hillegal, fault, hfault⟩ := Declaration.illegal_of_entity hd
      refine ⟨[], d, rest, fault, rfl, by simp, hillegal, ?_⟩
      rw [← hfault]
      exact (Except.error.inj h).symm
    | ok e =>
      rw [hd, ok_bind] at h
      have hlegal := (Declaration.entity_eq_ok_iff_legal.mp hd).1
      cases hrest : assemble file rest with
      | ok es => rw [hrest] at h; cases h
      | error found =>
        rw [hrest] at h
        have hsame : assemble file rest = .error error := by rw [hrest]; exact h
        obtain ⟨before, bad, after, fault, hsplit, hbefore, hbad, herror⟩ := ih hsame
        refine ⟨d :: before, bad, after, fault, by rw [hsplit]; rfl, ?_, hbad, herror⟩
        exact List.forall_mem_cons.mpr ⟨hlegal, hbefore⟩

end

/-- Declarations are assembled just if all of them are legal. The entities
have the kinds, names and lines of the declarations, in order, and their
normal shapes, in which a choice of literals is never empty. A refusal is on
the line of the first declaration that is illegal. -/
theorem assemble_exact (file : String) (ds : List Declaration) :
    ((∃ es, assemble file ds = .ok es) ↔ ∀ d ∈ ds, d.Legal) ∧
      (∀ es, assemble file ds = .ok es →
        List.Forall₂ (fun d e => e.kind = d.kind ∧ e.name = d.name ∧ e.line = some d.line ∧
          e.shape = d.normalShape ∧ ∀ values, e.shape = .oneOf values → values ≠ []) ds es) ∧
      ∀ error, assemble file ds = .error error →
        ∃ before d after, ds = before ++ d :: after ∧ (∀ b ∈ before, b.Legal) ∧ ¬ d.Legal ∧
          error.line? = some d.line ∧ ∃ fault, error = .syntaxFault file d.line fault := by
  refine ⟨?_, ?_, ?_⟩
  · refine ⟨?_, fun hlegal => ⟨_, assemble_eq_ok_iff_legal.mpr ⟨hlegal, rfl⟩⟩⟩
    intro h
    obtain ⟨es, hes⟩ := h
    exact (assemble_eq_ok_iff_legal.mp hes).1
  · intro es hes
    obtain ⟨hlegal, hnormal⟩ := assemble_eq_ok_iff_legal.mp hes
    rw [hnormal, List.forall₂_map_right_iff, List.forall₂_same]
    intro d hd
    refine ⟨Declaration.kind_normalEntity (hlegal d hd), rfl, rfl, rfl, ?_⟩
    intro values hvalues
    exact Declaration.ne_nil_of_normalShape (hlegal d hd) hvalues
  · intro error h
    obtain ⟨before, d, after, fault, hsplit, hbefore, hillegal, herror⟩ :=
      exists_illegal_of_assemble h
    exact ⟨before, d, after, hsplit, hbefore, hillegal, by rw [herror]; rfl, fault, herror⟩

end TreeSchema.Schema
