import TreeSchema.Proofs.RoundTrip
import TreeSchema.Proofs.Validator
/-
  From schema text to verdict

  A schema text that compiles gives a grammar text that a validator can be
  made of, and the validator finds nothing wrong with just those documents
  that conform to what the declarations of the schema ask.
-/

namespace TreeSchema.Schema

open Validation
open Grammar (isIdentifier)

theorem treeViolations_eq_nil_iff {ι : Type} {g : Grammar} {meaning : ι → Pattern ι}
    {label : ι → String} {present : ι → Prop} {i : ι} (h : Describes g meaning label present)
    (hi : present i) (n : Node) :
    treeViolations meaning label i n = [] ↔ Conforms meaning n i := by
  rw [treeViolations, getD_misfit_eq_nil_iff, check_eq_some_nil_iff h.closed h.proper hi]

/-- The text of a well-formed grammar makes the validator that the grammar
makes. -/
theorem ofText_text {g : Grammar} (h : g.WellFormed) :
    Validator.ofText g.text = Validator.ofGrammar g := by
  rw [Validator.ofText, Grammar.read_text h, ok_bind]

/-- Conforming to the root of a resolved schema is conforming to the
declaration that the root was chosen by. -/
theorem conforms_root_iff {ds : List Declaration} {es : List Entity} {s : Resolved}
    {wanted : Option String} (hes : assemble file ds = .ok es) (h : s.Closes es wanted) :
    ∃ root ∈ ds.map Declaration.reference,
      rootReference (ds.map Declaration.reference) wanted = some root ∧
        ∀ n, Conforms s.pattern n s.root ↔ Conforms (declaredMeaning ds) n root := by
  obtain ⟨e, he, hget, hroot⟩ := h.root
  rw [map_reference_of_assemble hes] at hroot
  refine ⟨e.reference, ?_, hroot, fun n => ?_⟩
  · rw [← map_reference_of_assemble hes]
    exact List.mem_map_of_mem he
  · have hnames : s.Names s.root e.reference := by
      rw [Resolved.Names, hget, Option.map_some]
    exact conforms_iff_of_similar (similar_declaredMeaning hes h) hnames

/-- A schema text that compiles has been read, assembled and resolved, and the
validator of its grammar text reports what the walk reports. -/
theorem exists_resolved_of_compile {file source text : String} {options : Options}
    (hname : isIdentifier options.name = true) (h : compile file source options = .ok text) :
    ∃ (ds : List Declaration) (es : List Entity) (s : Resolved) (v : Validator),
      Declaration.readAll file source = .ok ds ∧ assemble file ds = .ok es ∧
      resolveSource file source options.root = .ok s ∧ s.Closes es options.root ∧
      Describes (s.grammar options.name) s.pattern s.nonterminalAt s.Present ∧
      Validator.ofText text = .ok v ∧
      ∀ n, v.violations? n = some (treeViolations s.pattern s.nonterminalAt s.root n) := by
  obtain ⟨g, hg, h⟩ := bind_eq_ok_iff.mp h
  obtain rfl : g.text = text := Except.ok.inj h
  obtain ⟨s, hs, rfl⟩ := compileGrammar_eq_ok_iff.mp hg
  obtain ⟨ds, es, hds, hes, hcloses, hproper⟩ := resolveSource_eq_ok hs
  have hdesc := Resolved.describes_grammar hcloses hproper options.name
  obtain ⟨v, hv, hviolations⟩ := exists_validator hdesc hcloses.present_root rfl
  refine ⟨ds, es, s, v, hds, hes, hs, hcloses, hdesc, ?_, hviolations⟩
  rw [ofText_text (Resolved.wellFormed_grammar hcloses hproper hname)]
  exact hv

/-- If a schema text compiles, under a name that is an identifier, then a
validator can be made of the grammar text, it comes to a verdict on every
document, and it finds nothing wrong with a document just if the document
conforms to the declared root. -/
theorem compile_correct {file source text : String} {options : Options}
    (hname : isIdentifier options.name = true) (h : compile file source options = .ok text) :
    ∃ ds root v, Declaration.readAll file source = .ok ds ∧
      root ∈ ds.map Declaration.reference ∧
      rootReference (ds.map Declaration.reference) options.root = some root ∧
      Validator.ofText text = .ok v ∧
      ∀ n, ∃ found, v.violations? n = some found ∧
        (found = [] ↔ Conforms (declaredMeaning ds) n root) := by
  obtain ⟨g, hg, h⟩ := bind_eq_ok_iff.mp h
  cases h
  obtain ⟨s, hs, rfl⟩ := compileGrammar_eq_ok_iff.mp hg
  obtain ⟨ds, es, hds, hes, hcloses, hproper⟩ := resolveSource_eq_ok hs
  have hdesc := Resolved.describes_grammar hcloses hproper options.name
  obtain ⟨v, hv, hviolations⟩ := exists_validator hdesc hcloses.present_root rfl
  obtain ⟨root, hmem, hroot, hconforms⟩ := conforms_root_iff hes hcloses
  refine ⟨ds, root, v, hds, hmem, hroot, ?_, fun n => ⟨_, hviolations n, ?_⟩⟩
  · rw [ofText_text (Resolved.wellFormed_grammar hcloses hproper hname)]
    exact hv
  · rw [treeViolations_eq_nil_iff hdesc hcloses.present_root, hconforms]

def nestedDeclarations : List Declaration :=
  [{ kind := .mapping, name := "tree", line := 1
     items := [.reference .scalar "value", .aliased .array "below" "children"] },
   { kind := .array, name := "children", line := 2
     items := [.reference .mapping "tree", .reference .scalar "leaf"] },
   { kind := .scalar, name := "leaf", line := 3, items := [.literal "x", .literal "y"] }]

/-- A tree with a leaf and an empty tree below it is accepted, and a scalar is
not. -/
theorem nested_compile_correct :
    ∃ text v, compile nestedFile nestedSource { name := "Tree" } = .ok text ∧
      Validator.ofText text = .ok v ∧
      v.violations? (.mapping [("below", .sequence [.scalar "y", .mapping []])]) = some [] ∧
      v.violations? (.scalar "y") ≠ some [] := by
  have hcompile : compile nestedFile nestedSource { name := "Tree" }
      = .ok (nested.grammar "Tree").text := by
    rw [compile, compileGrammar_eq_ok_iff.mpr ⟨_, resolveSource_nested, rfl⟩]
    rfl
  have hread : Declaration.readAll nestedFile nestedSource = .ok nestedDeclarations := by
    decide +kernel
  obtain ⟨ds, root, v, hds, _, hroot, hv, hverdict⟩ := compile_correct (by decide) hcompile
  rw [hread] at hds
  cases hds
  cases hroot
  refine ⟨_, v, hcompile, hv, ?_, ?_⟩
  · obtain ⟨found, hfound, hnil⟩ :=
      hverdict (.mapping [("below", .sequence [.scalar "y", .mapping []])])
    rw [hfound, hnil.mpr]
    refine .mapping rfl (fun e he => ?_)
    rw [List.mem_singleton.mp he]
    refine .member (r := ⟨.array, "children"⟩) (by decide) (.array rfl (fun n hn => ?_))
    rcases List.mem_pair.mp hn with rfl | rfl
    · exact .member (r := ⟨.scalar, "leaf"⟩) (by decide) (.oneOf rfl (by decide))
    · exact .member (r := ⟨.mapping, "tree"⟩) (by decide)
        (.mapping rfl (fun e he => absurd he List.not_mem_nil))
  · obtain ⟨found, hfound, hnil⟩ := hverdict (.scalar "y")
    rw [hfound]
    intro hempty
    rcases conforms_scalar_iff.mp (hnil.mp (Option.some.inj hempty)) with hany | ⟨values, hone, _⟩
    · cases hany
    · cases hone

theorem exists_validator_nested :
    ∃ text v, compile nestedFile nestedSource { name := "Tree" } = .ok text ∧
      Validator.ofText text = .ok v ∧
      ∀ n, v.violations? n
        = some (treeViolations nested.pattern nested.nonterminalAt nested.root n) := by
  have hcompile : compile nestedFile nestedSource { name := "Tree" }
      = .ok (nested.grammar "Tree").text := by
    rw [compile, compileGrammar_eq_ok_iff.mpr ⟨_, resolveSource_nested, rfl⟩]
    rfl
  obtain ⟨_, _, s, v, _, _, hs, _, _, hv, hfound⟩ :=
    exists_resolved_of_compile (by decide) hcompile
  have hresolved := resolveSource_nested.symm.trans hs
  cases hresolved
  exact ⟨_, v, hcompile, hv, hfound⟩

end TreeSchema.Schema
