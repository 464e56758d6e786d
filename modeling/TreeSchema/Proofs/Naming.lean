import TreeSchema.Command.Run
import TreeSchema.Proofs.EndToEnd
import TreeSchema.Proofs.Soundness
/-
  Names of grammars

  The name of a grammar is written into its text as it is, and the text is
  read word by word. The text of a compiled schema makes a validator of that
  name just if the name is an identifier (`exists_named_iff`); any other name
  is read as something else, and most often the text is then refused. So it
  is only under such a name that a command can have a grammar refused that it
  has made itself.
-/

namespace TreeSchema

namespace Schema

open Validation
open Grammar (isIdentifier)

theorem name_of_ofGrammar {g : Grammar} {v : Validator} (h : Validator.ofGrammar g = .ok v) :
    v.name = g.name :=
  congrArg Grammar.name (Validator.grammar_of_ofGrammar h)

section
variable {file source text : String} {options : Options}

theorem exists_named_of_isIdentifier (hname : isIdentifier options.name = true)
    (h : compile file source options = .ok text) :
    ∃ v, Validator.ofText text = .ok v ∧ v.name = options.name := by
  obtain ⟨_, _, s, v, _, _, hs, _, _, hv, _⟩ := exists_resolved_of_compile hname h
  obtain ⟨_, _, _, _, hcloses, hproper⟩ := resolveSource_eq_ok hs
  rw [compile, compileGrammar_eq_ok_iff.mpr ⟨s, hs, rfl⟩] at h
  obtain rfl : (s.grammar options.name).text = text := Except.ok.inj h
  refine ⟨v, hv, ?_⟩
  rw [ofText_text (Resolved.wellFormed_grammar hcloses hproper hname)] at hv
  exact name_of_ofGrammar hv

/-- A name that comes back is a name that the reader has read. -/
theorem isIdentifier_of_named {v : Validator} (h : compile file source options = .ok text)
    (hv : Validator.ofText text = .ok v) (hname : v.name = options.name) :
    isIdentifier options.name = true := by
  obtain ⟨g, hg, h⟩ := bind_eq_ok_iff.mp h
  obtain rfl : g.text = text := Except.ok.inj h
  obtain ⟨s, _, rfl⟩ := compileGrammar_eq_ok_iff.mp hg
  obtain ⟨read, hread, hv⟩ := bind_eq_ok_iff.mp hv
  have hsame : read.name = options.name := (name_of_ofGrammar hv).symm.trans hname
  have hne : read.name ≠ "" := by
    rw [hsame]
    exact Grammar.name_ne_empty_of_read_text hread
  rw [← hsame]
  exact (Grammar.wellFormed_of_read hread hne).1

theorem exists_named_iff (h : compile file source options = .ok text) :
    (∃ v, Validator.ofText text = .ok v ∧ v.name = options.name) ↔
      isIdentifier options.name = true := by
  constructor
  · rintro ⟨v, hv, hname⟩
    exact isIdentifier_of_named h hv hname
  · intro hname
    exact exists_named_of_isIdentifier hname h

end

end Schema

/-! ## Commands -/

namespace Command

open Schema (compile)
open Validation
open Grammar (isIdentifier)

section
variable {e : Environment} {w : File.Workspace} {error : Grammar.Error}

theorem compileFile_eq_error {path : String} {options : Schema.Options} {outcome : Outcome}
    (h : compileFile w path options = .error outcome) :
    ∃ error, outcome = .schemaRefused error := by
  unfold compileFile at h
  dsimp only at h
  split at h
  · next error _ => exact ⟨error, (Except.error.inj h).symm⟩
  · cases h

theorem exists_compile_of_compileFile {path text : String} {options : Schema.Options}
    (h : compileFile w path options = .ok text) :
    ∃ source, compile path source options = .ok text := by
  unfold compileFile at h
  dsimp only at h
  split at h
  · cases h
  · next found hfound =>
    cases h
    split at hfound
    · cases hfound
    · next source _ => exact ⟨source, hfound⟩

theorem exists_error_of_check {text : String} {documents : List String}
    (h : check w text documents = .grammarRefused error) :
    Validator.ofText text = .error error := by
  unfold check at h
  split at h
  · next found hfound =>
    cases h
    exact hfound
  · cases h

/-- Only a check makes a validator, so only a check can have its grammar
refused. -/
theorem check_of_grammarRefused {config : Config} {action : Action}
    (h : (perform e w config action).1 = .grammarRefused error) :
    ∃ schema documents text, action = .check schema documents ∧
      compileFile w schema.path (config.options schema) = .ok text ∧
      Validator.ofText text = .error error := by
  unfold perform at h
  cases action with
  | compile schema out =>
    dsimp only at h
    split at h
    · next hfile =>
      obtain ⟨_, rfl⟩ := compileFile_eq_error hfile
      cases h
    · unfold deliver at h
      split at h
      · cases h
      · split at h <;> cases h
  | check schema documents =>
    dsimp only at h
    split at h
    · next hfile =>
      obtain ⟨_, rfl⟩ := compileFile_eq_error hfile
      cases h
    · next text hfile => exact ⟨schema, documents, text, rfl, hfile, exists_error_of_check h⟩
  | build schema program args =>
    dsimp only at h
    split at h
    · cases h
    · split at h
      · next hfile =>
        obtain ⟨_, rfl⟩ := compileFile_eq_error hfile
        cases h
      · unfold build at h
        dsimp only at h
        split at h <;> cases h
  | test directory =>
    dsimp only at h
    split at h <;> cases h

theorem exists_config_of_grammarRefused {settings : Option String} {action : Action}
    (h : (outcomeOf e w settings action).1 = .grammarRefused error) :
    ∃ config, readConfig w settings = .ok config ∧
      (perform e w config action).1 = .grammarRefused error := by
  unfold outcomeOf at h
  split at h
  · next outcome hconfig =>
    unfold readConfig at hconfig
    split at hconfig
    · cases hconfig
    · split at hconfig
      · cases hconfig
        cases h
      · split at hconfig
        · cases hconfig
          cases h
        · cases hconfig
  · next config hconfig => exact ⟨config, hconfig, h⟩

theorem isIdentifier_eq_false_of_grammarRefused {settings : Option String} {action : Action}
    (h : (outcomeOf e w settings action).1 = .grammarRefused error) :
    ∃ config schema documents, readConfig w settings = .ok config ∧
      action = .check schema documents ∧ isIdentifier (config.options schema).name = false := by
  obtain ⟨config, hconfig, h⟩ := exists_config_of_grammarRefused h
  obtain ⟨schema, documents, text, rfl, hfile, hrefused⟩ := check_of_grammarRefused h
  refine ⟨config, schema, documents, hconfig, rfl, ?_⟩
  obtain ⟨source, hcompile⟩ := exists_compile_of_compileFile hfile
  rw [Bool.eq_false_iff]
  intro hname
  obtain ⟨v, hv, _⟩ := Schema.exists_named_of_isIdentifier hname hcompile
  rw [hv] at hrefused
  cases hrefused

end

/-- The text of a compiled schema makes a validator of the name that was asked
for just if that name is an identifier; and a command has the grammar of a
schema refused only if it checks documents under a name that is none. -/
theorem compiled_accepted_iff_name {file source text : String} {options : Schema.Options}
    (h : compile file source options = .ok text) :
    ((∃ v, Validator.ofText text = .ok v ∧ v.name = options.name) ↔
      isIdentifier options.name = true) ∧
    ∀ e w settings action error, (outcomeOf e w settings action).1 = .grammarRefused error →
      ∃ config schema documents, readConfig w settings = .ok config ∧
        action = .check schema documents ∧
        isIdentifier (config.options schema).name = false := by
  refine ⟨Schema.exists_named_iff h, ?_⟩
  intro e w settings action error hrefused
  exact isIdentifier_eq_false_of_grammarRefused hrefused

theorem nested_accepted_named :
    ∃ text v, compile Schema.nestedFile Schema.nestedSource { name := "Tree" } = .ok text ∧
      Validator.ofText text = .ok v ∧ v.name = "Tree" := by
  obtain ⟨text, _, hcompile, _, _⟩ := Schema.exists_validator_nested
  obtain ⟨v, hv, hname⟩ := (compiled_accepted_iff_name hcompile).1.mpr (by decide)
  exact ⟨text, v, hcompile, hv, hname⟩

def twoWordsText : String :=
  "/* Generated by hashgram. Do not edit. */\n%grammar My Grammar\n%start scalar.a\n\n%%\n\n" ++
    "scalar.a\n    : SCALAR\n    ;\n"

/-- A schema compiles under a name of two words, and its text is refused: the
second word stands where a directive should. -/
theorem two_words_refused :
    compile "a" "$a:" { name := "My Grammar" } = .ok twoWordsText ∧
      ∃ error, Validator.ofText twoWordsText = .error error ∧
        ∀ e, (outcomeOf e { here := [], files := [(["a"], Text.encode "$a:")] } none
          (.check { path := "a", name := some "My Grammar" } [])).1 = .grammarRefused error := by
  have hcompile : compile "a" "$a:" { name := "My Grammar" } = .ok twoWordsText := by decide +kernel
  have hrefused : Validator.ofText twoWordsText
      = .error (.malformed 3 (.expectedDirective (some (.identifier "Grammar")))) := by
    decide +kernel
  have hread : File.Workspace.readText { here := [], files := [(["a"], Text.encode "$a:")] } "a"
      = .ok "$a:" := by
    decide +kernel
  have hoptions : Config.options {} { path := "a", name := some "My Grammar" }
      = { name := "My Grammar" } := rfl
  refine ⟨hcompile, _, hrefused, fun e => ?_⟩
  simp only [outcomeOf, readConfig, perform, compileFile, hread, hoptions, hcompile, check,
    hrefused]

end Command

end TreeSchema
