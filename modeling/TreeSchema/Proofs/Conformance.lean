import Mathlib.Logic.Relation
import TreeSchema.Proofs.TokenStream
/-
  Conformance

  When a tree is one that a schema describes, said without grammars, tokens
  or validators. Entities are named by the values of some type, and a
  meaning tells what each of them asks of a tree. Membership is closed and
  every member is optional; a container without members holds scalars only.

  A pattern that asks no more than another describes no fewer trees
  (`conforms_of_within`). Two ways of naming the entities of one schema
  describe the same trees as soon as what they ask corresponds, member by
  member (`conforms_iff_of_similar`).
-/

namespace TreeSchema.Schema

/-- What an entity asks of a tree. Its members are named by values of `ι`. -/
inductive Pattern (ι : Type) where
  | anyScalar
  | oneOf (values : List String)
  | array (members : List ι)
  | mapping (members : List (String × ι))
  deriving DecidableEq, Repr

mutual

/-- The trees that the entity `r` describes. -/
inductive Conforms {ι : Type} (meaning : ι → Pattern ι) : Node → ι → Prop where
  | anyScalar {text : String} {r : ι} (h : meaning r = .anyScalar) :
    Conforms meaning (.scalar text) r
  | oneOf {text : String} {r : ι} {values : List String} (h : meaning r = .oneOf values)
    (mem : text ∈ values) : Conforms meaning (.scalar text) r
  | array {items : List Node} {r : ι} {members : List ι} (h : meaning r = .array members)
    (each : ∀ n ∈ items, ItemConforms meaning members n) : Conforms meaning (.sequence items) r
  | mapping {entries : List (String × Node)} {r : ι} {members : List (String × ι)}
    (h : meaning r = .mapping members) (each : ∀ e ∈ entries, EntryConforms meaning members e) :
    Conforms meaning (.mapping entries) r

/-- The trees that may stand in an array with these members. -/
inductive ItemConforms {ι : Type} (meaning : ι → Pattern ι) : List ι → Node → Prop where
  | scalar {text : String} : ItemConforms meaning [] (.scalar text)
  | member {members : List ι} {n : Node} {r : ι} (mem : r ∈ members) (h : Conforms meaning n r) :
    ItemConforms meaning members n

/-- The keys and values that may stand in a mapping with these members. -/
inductive EntryConforms {ι : Type} (meaning : ι → Pattern ι) :
    List (String × ι) → String × Node → Prop where
  | scalar {key text : String} : EntryConforms meaning [] (key, .scalar text)
  | member {members : List (String × ι)} {key : String} {n : Node} {r : ι}
    (mem : (key, r) ∈ members) (h : Conforms meaning n r) : EntryConforms meaning members (key, n)

end

section
variable {ι : Type} {meaning : ι → Pattern ι}

theorem conforms_scalar_iff {text : String} {r : ι} :
    Conforms meaning (.scalar text) r ↔
      meaning r = .anyScalar ∨ ∃ values, meaning r = .oneOf values ∧ text ∈ values := by
  constructor
  · intro h
    cases h with
    | anyScalar h => exact Or.inl h
    | oneOf h mem => exact Or.inr ⟨_, h, mem⟩
  · rintro (h | ⟨values, h, mem⟩)
    · exact .anyScalar h
    · exact .oneOf h mem

theorem conforms_sequence_iff {items : List Node} {r : ι} :
    Conforms meaning (.sequence items) r ↔
      ∃ members, meaning r = .array members ∧ ∀ n ∈ items, ItemConforms meaning members n := by
  constructor
  · intro h
    cases h with
    | array h each => exact ⟨_, h, each⟩
  · rintro ⟨members, h, each⟩
    exact .array h each

theorem conforms_mapping_iff {entries : List (String × Node)} {r : ι} :
    Conforms meaning (.mapping entries) r ↔
      ∃ members, meaning r = .mapping members ∧
        ∀ e ∈ entries, EntryConforms meaning members e := by
  constructor
  · intro h
    cases h with
    | mapping h each => exact ⟨_, h, each⟩
  · rintro ⟨members, h, each⟩
    exact .mapping h each

theorem itemConforms_iff {members : List ι} {n : Node} :
    ItemConforms meaning members n ↔
      (members = [] ∧ ∃ text, n = .scalar text) ∨ ∃ r ∈ members, Conforms meaning n r := by
  constructor
  · intro h
    cases h with
    | scalar => exact Or.inl ⟨rfl, _, rfl⟩
    | member mem h => exact Or.inr ⟨_, mem, h⟩
  · rintro (⟨rfl, text, rfl⟩ | ⟨r, mem, h⟩)
    · exact .scalar
    · exact .member mem h

theorem entryConforms_iff {members : List (String × ι)} {key : String} {n : Node} :
    EntryConforms meaning members (key, n) ↔
      (members = [] ∧ ∃ text, n = .scalar text) ∨
        ∃ r, (key, r) ∈ members ∧ Conforms meaning n r := by
  constructor
  · intro h
    cases h with
    | scalar => exact Or.inl ⟨rfl, _, rfl⟩
    | member mem h => exact Or.inr ⟨_, mem, h⟩
  · rintro (⟨rfl, text, rfl⟩ | ⟨r, mem, h⟩)
    · exact .scalar
    · exact .member mem h

end

/-! ## Naming entities in two ways -/

/-- Patterns that ask the same of a tree, as far as related members do. The
order of members and values, and how often they occur, does not count. -/
inductive Pattern.Similar {ι κ : Type} (R : ι → κ → Prop) : Pattern ι → Pattern κ → Prop where
  | anyScalar : Similar R .anyScalar .anyScalar
  | oneOf {values others : List String} (h : ∀ x, x ∈ values ↔ x ∈ others) :
    Similar R (.oneOf values) (.oneOf others)
  | array {members : List ι} {others : List κ} (left : ∀ m ∈ members, ∃ o ∈ others, R m o)
    (right : ∀ o ∈ others, ∃ m ∈ members, R m o) : Similar R (.array members) (.array others)
  | mapping {members : List (String × ι)} {others : List (String × κ)}
    (left : ∀ e ∈ members, ∃ f ∈ others, e.1 = f.1 ∧ R e.2 f.2)
    (right : ∀ f ∈ others, ∃ e ∈ members, e.1 = f.1 ∧ R e.2 f.2) :
    Similar R (.mapping members) (.mapping others)

theorem Pattern.Similar.refl {ι : Type} (p : Pattern ι) : p.Similar Eq p := by
  cases p with
  | anyScalar => exact .anyScalar
  | oneOf values => exact .oneOf (fun _ => Iff.rfl)
  | array members => exact .array (fun m hm => ⟨m, hm, rfl⟩) (fun m hm => ⟨m, hm, rfl⟩)
  | mapping members =>
    exact .mapping (fun e he => ⟨e, he, rfl, rfl⟩) (fun e he => ⟨e, he, rfl, rfl⟩)

theorem Pattern.Similar.symm {ι κ : Type} {R : ι → κ → Prop} {p : Pattern ι} {q : Pattern κ}
    (h : p.Similar R q) : q.Similar (fun o m => R m o) p := by
  cases h with
  | anyScalar => exact .anyScalar
  | oneOf h => exact .oneOf (fun x => (h x).symm)
  | array left right => exact .array right left
  | mapping left right =>
    refine .mapping (fun f hf => ?_) (fun e he => ?_)
    · obtain ⟨e, he, hkey, hr⟩ := right f hf
      exact ⟨e, he, hkey.symm, hr⟩
    · obtain ⟨f, hf, hkey, hr⟩ := left e he
      exact ⟨f, hf, hkey.symm, hr⟩

theorem Pattern.Similar.comp {ι κ μ : Type} {R : ι → κ → Prop} {S : κ → μ → Prop} {p : Pattern ι}
    {q : Pattern κ} {t : Pattern μ} (h : p.Similar R q) (h' : q.Similar S t) :
    p.Similar (Relation.Comp R S) t := by
  cases h' with
  | anyScalar =>
    cases h
    exact .anyScalar
  | oneOf h' =>
    cases h with
    | oneOf h => exact .oneOf (fun x => (h x).trans (h' x))
  | array left' right' =>
    cases h with
    | array left right =>
      refine .array (fun m hm => ?_) (fun o ho => ?_)
      · obtain ⟨r, hr, hmr⟩ := left m hm
        obtain ⟨o, ho, hro⟩ := left' r hr
        exact ⟨o, ho, r, hmr, hro⟩
      · obtain ⟨r, hr, hro⟩ := right' o ho
        obtain ⟨m, hm, hmr⟩ := right r hr
        exact ⟨m, hm, r, hmr, hro⟩
  | mapping left' right' =>
    cases h with
    | mapping left right =>
      refine .mapping (fun e he => ?_) (fun f hf => ?_)
      · obtain ⟨r, hr, hkey, her⟩ := left e he
        obtain ⟨f, hf, hkey', hrf⟩ := left' r hr
        exact ⟨f, hf, hkey.trans hkey', r.2, her, hrf⟩
      · obtain ⟨r, hr, hkey', hrf⟩ := right' f hf
        obtain ⟨e, he, hkey, her⟩ := right r hr
        exact ⟨e, he, hkey.trans hkey', r.2, her, hrf⟩

theorem Pattern.Similar.trans_eq {ι κ : Type} {R : ι → κ → Prop} {p : Pattern ι}
    {q q' : Pattern κ} (h : p.Similar R q) (h' : q.Similar Eq q') : p.Similar R q' := by
  rw [← Relation.comp_eq (r := R)]
  exact h.comp h'

/-- The second pattern allows what the first does, as far as related members
do. A container without members stays without, for it holds scalars only. -/
inductive Pattern.Within {ι κ : Type} (R : ι → κ → Prop) : Pattern ι → Pattern κ → Prop where
  | anyScalar : Within R .anyScalar .anyScalar
  | oneOf {values others : List String} (h : ∀ x ∈ values, x ∈ others) :
    Within R (.oneOf values) (.oneOf others)
  | array {members : List ι} {others : List κ} (left : ∀ m ∈ members, ∃ o ∈ others, R m o)
    (empty : members = [] → others = []) : Within R (.array members) (.array others)
  | mapping {members : List (String × ι)} {others : List (String × κ)}
    (left : ∀ e ∈ members, ∃ f ∈ others, e.1 = f.1 ∧ R e.2 f.2)
    (empty : members = [] → others = []) : Within R (.mapping members) (.mapping others)

theorem eq_nil_iff_of_related {α β : Type} {P : α → β → Prop} {l : List α} {k : List β}
    (left : ∀ a ∈ l, ∃ b ∈ k, P a b) (right : ∀ b ∈ k, ∃ a ∈ l, P a b) : l = [] ↔ k = [] := by
  rw [List.eq_nil_iff_forall_not_mem, List.eq_nil_iff_forall_not_mem]
  constructor
  · intro hnone b hb
    obtain ⟨a, ha, _⟩ := right b hb
    exact hnone a ha
  · intro hnone a ha
    obtain ⟨b, hb, _⟩ := left a ha
    exact hnone b hb

theorem Pattern.Similar.within {ι κ : Type} {R : ι → κ → Prop} {p : Pattern ι} {q : Pattern κ}
    (h : p.Similar R q) : p.Within R q := by
  cases h with
  | anyScalar => exact .anyScalar
  | oneOf h => exact .oneOf (fun x => (h x).mp)
  | array left right => exact .array left (eq_nil_iff_of_related left right).mp
  | mapping left right => exact .mapping left (eq_nil_iff_of_related left right).mp

section
variable {ι κ : Type} {meaning : ι → Pattern ι} {other : κ → Pattern κ} {R : ι → κ → Prop}

/-- Entities that ask no more of a tree describe no fewer trees. -/
theorem conforms_of_within (hR : ∀ r o, R r o → (meaning r).Within R (other o)) {n : Node}
    {r : ι} {o : κ} (hr : R r o) (h : Conforms meaning n r) : Conforms other n o := by
  have hs := hR r o hr
  induction n using Node.induction generalizing r o with
  | scalar text =>
    rcases conforms_scalar_iff.mp h with hm | ⟨values, hm, mem⟩
    · rw [hm] at hs
      generalize ho : other o = q at hs
      cases hs
      exact .anyScalar ho
    · rw [hm] at hs
      generalize ho : other o = q at hs
      cases hs with
      | oneOf hx => exact .oneOf ho (hx text mem)
  | sequence items ih =>
    obtain ⟨members, hm, each⟩ := conforms_sequence_iff.mp h
    rw [hm] at hs
    generalize ho : other o = q at hs
    cases hs with
    | array left empty =>
      refine .array ho (fun n hn => itemConforms_iff.mpr ?_)
      rcases itemConforms_iff.mp (each n hn) with ⟨hnil, text, rfl⟩ | ⟨m, mem, hc⟩
      · exact Or.inl ⟨empty hnil, text, rfl⟩
      · obtain ⟨o, ho, hmo⟩ := left m mem
        exact Or.inr ⟨o, ho, ih n hn hmo hc (hR m o hmo)⟩
  | mapping entries ih =>
    obtain ⟨members, hm, each⟩ := conforms_mapping_iff.mp h
    rw [hm] at hs
    generalize ho : other o = q at hs
    cases hs with
    | mapping left empty =>
      refine .mapping ho (fun e he => ?_)
      obtain ⟨key, n⟩ := e
      rw [entryConforms_iff]
      rcases entryConforms_iff.mp (each (key, n) he) with ⟨hnil, text, rfl⟩ | ⟨m, mem, hc⟩
      · exact Or.inl ⟨empty hnil, text, rfl⟩
      · obtain ⟨⟨_, o⟩, hf, rfl, hmo⟩ := left (key, m) mem
        exact Or.inr ⟨o, hf, ih (key, n) he hmo hc (hR m o hmo)⟩

/-- Entities that ask the same of a tree describe the same trees. -/
theorem conforms_iff_of_similar (hR : ∀ r o, R r o → (meaning r).Similar R (other o)) {n : Node}
    {r : ι} {o : κ} (hr : R r o) : Conforms meaning n r ↔ Conforms other n o :=
  ⟨conforms_of_within (fun r o h => (hR r o h).within) hr,
    conforms_of_within (R := fun o m => R m o) (fun o r h => (hR r o h).symm.within) hr⟩

end

end TreeSchema.Schema
