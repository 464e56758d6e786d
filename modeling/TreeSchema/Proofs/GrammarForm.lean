import Mathlib.Data.List.Induction
import TreeSchema.Proofs.Reading
/-
  The form of grammar text

  The tokens of a grammar text, as a grammar of their own: directives in any
  order, the separator, and the rules; a rule is a name, a colon, one or more
  alternatives with bars between them, and a semicolon; an alternative is one
  or more items, and an item a primary symbol with at most one star. The
  relations below have one constructor for each way to form a part, and know
  nothing of the reader. The reader accepts exactly what they form, and no
  tokens are formed in two ways.
-/

namespace TreeSchema.Grammar

/-! ## Forms -/

/-- A symbol without a star. -/
inductive PrimaryForm : List Token → Symbol → Prop where
  | scalar : PrimaryForm [.identifier "SCALAR"] (.terminal .scalar)
  | anyKey : PrimaryForm [.identifier "KEY"] (.terminal (.key none))
  | key (name : String) :
    PrimaryForm [.identifier "KEY", .openParen, .string name, .closeParen]
      (.terminal (.key (some name)))
  | literal (value : String) : PrimaryForm [.string value] (.terminal (.literal value))
  | openSequence : PrimaryForm [.bracket .openSequence] (.terminal .openSequence)
  | closeSequence : PrimaryForm [.bracket .closeSequence] (.terminal .closeSequence)
  | openMapping : PrimaryForm [.bracket .openMapping] (.terminal .openMapping)
  | closeMapping : PrimaryForm [.bracket .closeMapping] (.terminal .closeMapping)
  /-- Any other identifier. -/
  | nonterminal (name : String) (hscalar : name ≠ "SCALAR") (hkey : name ≠ "KEY") :
    PrimaryForm [.identifier name] (.nonterminal name)

/-- A symbol with at most one star. -/
inductive ItemForm : List Token → Symbol → Prop where
  | plain {ts : List Token} {s : Symbol} (h : PrimaryForm ts s) : ItemForm ts s
  | starred {ts : List Token} {s : Symbol} (h : PrimaryForm ts s) :
    ItemForm (ts ++ [.star]) (.repeated s)

/-- One item or more. -/
inductive AlternativeForm : List Token → List Symbol → Prop where
  | last {ts : List Token} {s : Symbol} (h : ItemForm ts s) : AlternativeForm ts [s]
  | cons {ts us : List Token} {s : Symbol} {symbols : List Symbol} (h : ItemForm ts s)
    (hrest : AlternativeForm us symbols) : AlternativeForm (ts ++ us) (s :: symbols)

/-- Any number of alternatives, each after a bar. -/
inductive OthersForm : List Token → List (List Symbol) → Prop where
  | nil : OthersForm [] []
  | cons {ts us : List Token} {symbols : List Symbol} {others : List (List Symbol)}
    (h : AlternativeForm ts symbols) (hrest : OthersForm us others) :
    OthersForm (.bar :: (ts ++ us)) (symbols :: others)

/-- A name, a colon, alternatives and a semicolon. -/
inductive RuleForm : List Token → Rule → Prop where
  | mk {ts us : List Token} {first : List Symbol} {others : List (List Symbol)} (lhs : String)
    (hfirst : AlternativeForm ts first) (hothers : OthersForm us others) :
    RuleForm (.identifier lhs :: .colon :: (ts ++ us ++ [.semicolon])) ⟨lhs, first :: others⟩

inductive RulesForm : List Token → List Rule → Prop where
  | nil : RulesForm [] []
  | cons {ts us : List Token} {r : Rule} {rules : List Rule} (h : RuleForm ts r)
    (hrest : RulesForm us rules) : RulesForm (ts ++ us) (r :: rules)

inductive DirectivesForm : List Token → List Directive → Prop where
  | nil : DirectivesForm [] []
  | name {ts : List Token} {ds : List Directive} (value : String) (hrest : DirectivesForm ts ds) :
    DirectivesForm (.directive "grammar" :: .identifier value :: ts) (.name value :: ds)
  | start {ts : List Token} {ds : List Directive} (value : String)
    (hrest : DirectivesForm ts ds) :
    DirectivesForm (.directive "start" :: .identifier value :: ts) (.start value :: ds)

/-- The directives and rules of a grammar text, in the order of the text. -/
structure Outline where
  directives : List Directive
  rules : List Rule

/-- Directives, the separator, and rules up to the end. -/
inductive OutlineForm : List Token → Outline → Prop where
  | mk {ts us : List Token} {directives : List Directive} {rules : List Rule}
    (hdirectives : DirectivesForm ts directives) (hrules : RulesForm us rules) :
    OutlineForm (ts ++ .separator :: us) ⟨directives, rules⟩

/-- The name a directive gives to the grammar. -/
def Directive.name? : Directive → Option String
  | name value => some value
  | start _ => none

def Directive.start? : Directive → Option String
  | name _ => none
  | start value => some value

/-- The grammar of an outline, if it names a start symbol: the last name
given, empty if there is none, and the last start symbol given. -/
def Outline.grammar? (o : Outline) : Option Grammar :=
  (o.directives.filterMap Directive.start?).getLast?.map fun start =>
    { name := (o.directives.filterMap Directive.name?).getLast?.getD "", start, rules := o.rules }

/-! ## Forms and their tokens -/

theorem primaryForm_iff {ts : List Token} {s : Symbol} :
    PrimaryForm ts s ↔ s.IsPrimary ∧ ts = s.words := by
  constructor
  · intro h
    cases h with
    | nonterminal name hscalar hkey => exact ⟨⟨hscalar, hkey⟩, rfl⟩
    | _ => exact ⟨trivial, rfl⟩
  · rintro ⟨hs, rfl⟩
    cases s with
    | nonterminal name => exact .nonterminal name hs.1 hs.2
    | repeated inner => exact absurd hs id
    | terminal t =>
      cases t with
      | scalar => exact .scalar
      | literal value => exact .literal value
      | key name =>
        cases name with
        | none => exact .anyKey
        | some name => exact .key name
      | openSequence => exact .openSequence
      | closeSequence => exact .closeSequence
      | openMapping => exact .openMapping
      | closeMapping => exact .closeMapping

theorem itemForm_iff {ts : List Token} {s : Symbol} :
    ItemForm ts s ↔ s.IsItem ∧ ts = s.words := by
  constructor
  · intro h
    cases h with
    | plain h =>
      obtain ⟨hs, rfl⟩ := primaryForm_iff.mp h
      refine ⟨?_, rfl⟩
      cases s with
      | terminal t => exact hs
      | nonterminal name => exact hs
      | repeated inner => exact absurd hs id
    | starred h =>
      obtain ⟨hs, rfl⟩ := primaryForm_iff.mp h
      exact ⟨hs, rfl⟩
  · rintro ⟨hs, rfl⟩
    cases s with
    | terminal t => exact .plain (primaryForm_iff.mpr ⟨hs, rfl⟩)
    | nonterminal name => exact .plain (primaryForm_iff.mpr ⟨hs, rfl⟩)
    | repeated inner => exact .starred (primaryForm_iff.mpr ⟨hs, rfl⟩)

theorem alternativeForm_iff {ts : List Token} {symbols : List Symbol} :
    AlternativeForm ts symbols ↔ IsAlternative symbols ∧ ts = alternativeWords symbols := by
  constructor
  · intro h
    induction h with
    | last h =>
      obtain ⟨hs, rfl⟩ := itemForm_iff.mp h
      refine ⟨⟨by simp, by simpa using hs⟩, ?_⟩
      simp [alternativeWords]
    | cons h _ ih =>
      obtain ⟨hs, rfl⟩ := itemForm_iff.mp h
      obtain ⟨⟨_, hrest⟩, rfl⟩ := ih
      exact ⟨⟨by simp, List.forall_mem_cons.mpr ⟨hs, hrest⟩⟩, rfl⟩
  · rintro ⟨⟨hne, hitems⟩, rfl⟩
    induction symbols with
    | nil => exact absurd rfl hne
    | cons s rest ih =>
      obtain ⟨hs, hrest⟩ := List.forall_mem_cons.mp hitems
      have hitem := itemForm_iff.mpr ⟨hs, rfl⟩
      cases rest with
      | nil =>
        rw [alternativeWords_cons]
        simpa [alternativeWords] using AlternativeForm.last hitem
      | cons next more => exact .cons hitem (ih (by simp) hrest)

theorem othersForm_iff {ts : List Token} {others : List (List Symbol)} :
    OthersForm ts others ↔
      (∀ symbols ∈ others, IsAlternative symbols) ∧ ts = othersWords others := by
  constructor
  · intro h
    induction h with
    | nil => exact ⟨by simp, rfl⟩
    | cons h _ ih =>
      obtain ⟨hfirst, rfl⟩ := alternativeForm_iff.mp h
      obtain ⟨hrest, rfl⟩ := ih
      exact ⟨List.forall_mem_cons.mpr ⟨hfirst, hrest⟩, rfl⟩
  · rintro ⟨hothers, rfl⟩
    induction others with
    | nil => exact .nil
    | cons symbols rest ih =>
      obtain ⟨hfirst, hrest⟩ := List.forall_mem_cons.mp hothers
      exact .cons (alternativeForm_iff.mpr ⟨hfirst, rfl⟩) (ih hrest)

theorem ruleForm_iff {ts : List Token} {r : Rule} :
    RuleForm ts r ↔ r.IsReadable ∧ ts = r.words := by
  constructor
  · intro h
    cases h with
    | mk lhs hfirst hothers =>
      obtain ⟨halternative, rfl⟩ := alternativeForm_iff.mp hfirst
      obtain ⟨halternatives, rfl⟩ := othersForm_iff.mp hothers
      exact ⟨⟨by simp, List.forall_mem_cons.mpr ⟨halternative, halternatives⟩⟩, rfl⟩
  · rintro ⟨⟨hne, halternatives⟩, rfl⟩
    obtain ⟨lhs, alternatives⟩ := r
    cases alternatives with
    | nil => exact absurd rfl hne
    | cons first others =>
      obtain ⟨hfirst, hothers⟩ := List.forall_mem_cons.mp halternatives
      exact .mk lhs (alternativeForm_iff.mpr ⟨hfirst, rfl⟩) (othersForm_iff.mpr ⟨hothers, rfl⟩)

theorem rulesForm_iff {ts : List Token} {rules : List Rule} :
    RulesForm ts rules ↔ (∀ r ∈ rules, r.IsReadable) ∧ ts = rules.flatMap Rule.words := by
  constructor
  · intro h
    induction h with
    | nil => exact ⟨by simp, rfl⟩
    | cons h _ ih =>
      obtain ⟨hr, rfl⟩ := ruleForm_iff.mp h
      obtain ⟨hrest, rfl⟩ := ih
      exact ⟨List.forall_mem_cons.mpr ⟨hr, hrest⟩, rfl⟩
  · rintro ⟨hrules, rfl⟩
    induction rules with
    | nil => exact .nil
    | cons r rest ih =>
      obtain ⟨hr, hrest⟩ := List.forall_mem_cons.mp hrules
      exact .cons (ruleForm_iff.mpr ⟨hr, rfl⟩) (ih hrest)

theorem directivesForm_iff {ts : List Token} {ds : List Directive} :
    DirectivesForm ts ds ↔ ts = ds.flatMap Directive.words := by
  constructor
  · intro h
    induction h with
    | nil => rfl
    | name value _ ih =>
      rw [ih]
      rfl
    | start value _ ih =>
      rw [ih]
      rfl
  · rintro rfl
    induction ds with
    | nil => exact .nil
    | cons d rest ih =>
      cases d with
      | name value => exact .name value ih
      | start value => exact .start value ih

theorem outlineForm_iff {ts : List Token} {o : Outline} :
    OutlineForm ts o ↔ (∀ r ∈ o.rules, r.IsReadable) ∧
      ts = o.directives.flatMap Directive.words ++ .separator :: o.rules.flatMap Rule.words := by
  constructor
  · intro h
    cases h with
    | mk hdirectives hrules =>
      obtain ⟨hreadable, rfl⟩ := rulesForm_iff.mp hrules
      rw [directivesForm_iff] at hdirectives
      exact ⟨hreadable, by rw [hdirectives]⟩
  · rintro ⟨hreadable, rfl⟩
    obtain ⟨directives, rules⟩ := o
    exact .mk (directivesForm_iff.mpr rfl) (rulesForm_iff.mpr ⟨hreadable, rfl⟩)

/-! ## One form only -/

theorem Directive.words_append_inj {d e : Directive} {us vs : List Token}
    (h : d.words ++ us = e.words ++ vs) : d = e ∧ us = vs := by
  cases d <;> cases e <;> simp_all [Directive.words]

/-- Directives are told apart from one another and from the separator. -/
theorem directives_inj {ds es : List Directive} {us vs : List Token}
    (h : ds.flatMap Directive.words ++ .separator :: us
      = es.flatMap Directive.words ++ .separator :: vs) : ds = es ∧ us = vs := by
  induction ds generalizing es with
  | nil =>
    cases es with
    | nil => exact ⟨rfl, (List.cons.inj h).2⟩
    | cons e es => cases e <;> cases h
  | cons d ds ih =>
    cases es with
    | nil => cases d <;> cases h
    | cons e es =>
      rw [List.flatMap_cons, List.flatMap_cons, List.append_assoc, List.append_assoc] at h
      obtain ⟨rfl, hrest⟩ := Directive.words_append_inj h
      obtain ⟨rfl, hrules⟩ := ih hrest
      exact ⟨rfl, hrules⟩

/-- Rules are told apart because the reader, which takes them in one way,
takes all that are readable. -/
theorem rules_inj {rules others : List Rule} (hrules : ∀ r ∈ rules, r.IsReadable)
    (hothers : ∀ r ∈ others, r.IsReadable)
    (h : rules.flatMap Rule.words = others.flatMap Rule.words) : rules = others := by
  let rest : List LineToken := (rules.flatMap Rule.words).map fun token => { token, line := 0 }
  have hrest : Reader.wordsOf rest = rules.flatMap Rule.words := by
    rw [Reader.wordsOf, List.map_map]
    exact List.map_id _
  have htake := Reader.takeRules_of_wordsOf 0 hrules hrest
  rw [Reader.takeRules_of_wordsOf 0 hothers (hrest.trans h)] at htake
  exact (Except.ok.inj htake).symm

theorem OutlineForm.unique {ts : List Token} {o o' : Outline} (h : OutlineForm ts o)
    (h' : OutlineForm ts o') : o = o' := by
  obtain ⟨hreadable, rfl⟩ := outlineForm_iff.mp h
  obtain ⟨hreadable', hsame⟩ := outlineForm_iff.mp h'
  obtain ⟨hdirectives, hrules⟩ := directives_inj hsame
  obtain ⟨directives, rules⟩ := o
  obtain ⟨directives', rules'⟩ := o'
  cases hdirectives
  cases rules_inj hreadable hreadable' hrules
  rfl

/-! ## What the reader accepts -/

namespace Reader

theorem givenBy_append (ds : List Directive) (d : Directive) :
    givenBy (ds ++ [d]) = (givenBy ds).give d := by
  simp [givenBy]

/-- The last directive of each kind counts. -/
theorem givenBy_eq (ds : List Directive) :
    givenBy ds = { name := (ds.filterMap Directive.name?).getLast?,
                   start := (ds.filterMap Directive.start?).getLast? } := by
  induction ds using List.reverseRecOn with
  | nil => rfl
  | append_singleton ds d ih =>
    rw [givenBy_append, ih]
    cases d with
    | name value => simp [Names.give, Directive.name?, Directive.start?]
    | start value => simp [Names.give, Directive.name?, Directive.start?]

theorem grammar?_eq_some_iff {o : Outline} {g : Grammar} :
    o.grammar? = some g ↔ (givenBy o.directives).start = some g.start ∧
      (givenBy o.directives).name.getD "" = g.name ∧ o.rules = g.rules := by
  rw [givenBy_eq, Outline.grammar?, Option.map_eq_some_iff]
  constructor
  · rintro ⟨start, hstart, rfl⟩
    exact ⟨hstart, rfl, rfl⟩
  · rintro ⟨hstart, hname, hrules⟩
    refine ⟨g.start, hstart, ?_⟩
    rw [hname, hrules]

theorem ofTokens_eq_ok_iff {stream : TokenStream} {g : Grammar} :
    ofTokens stream = .ok g ↔
      ∃ o, OutlineForm (wordsOf stream.tokens) o ∧ o.grammar? = some g := by
  constructor
  · intro h
    obtain ⟨ds, hstart, hname, hreadable, hwords⟩ := wordsOf_of_ofTokens h
    refine ⟨⟨ds, g.rules⟩, outlineForm_iff.mpr ⟨hreadable, hwords⟩, ?_⟩
    exact grammar?_eq_some_iff.mpr ⟨hstart, hname, rfl⟩
  · rintro ⟨o, hform, hgrammar⟩
    obtain ⟨hreadable, hwords⟩ := outlineForm_iff.mp hform
    obtain ⟨hstart, hname, hrules⟩ := grammar?_eq_some_iff.mp hgrammar
    obtain ⟨left, htake, hleft⟩ :=
      takeDirectives_of_wordsOf stream.endLine { name := none, start := none } hwords
    have hgiven : o.directives.foldl Names.give { name := none, start := none }
        = givenBy o.directives := rfl
    rw [ofTokens, htake, ok_bind, hgiven]
    dsimp only
    rw [hstart]
    dsimp only
    rw [takeRules_of_wordsOf stream.endLine hreadable hleft, ok_bind, hname, hrules]
    rfl

end Reader

/-- The reader accepts a text just if the text can be scanned, its tokens are
of the form above and a start symbol is given, and returns the grammar of that
form. The form is the only one the tokens have. -/
theorem read_eq_ok_iff_form (text : String) (g : Grammar) :
    (read text = .ok g ↔
      ∃ stream o, tokens text = .ok stream ∧ OutlineForm (Reader.wordsOf stream.tokens) o ∧
        o.grammar? = some g) ∧
      ∀ ts o o', OutlineForm ts o → OutlineForm ts o' → o = o' := by
  refine ⟨?_, fun ts o o' h h' => h.unique h'⟩
  rw [read, bind_eq_ok_iff]
  constructor
  · rintro ⟨stream, hstream, h⟩
    obtain ⟨o, hform, hgrammar⟩ := Reader.ofTokens_eq_ok_iff.mp h
    exact ⟨stream, o, hstream, hform, hgrammar⟩
  · rintro ⟨stream, o, hstream, hform, hgrammar⟩
    exact ⟨stream, hstream, Reader.ofTokens_eq_ok_iff.mpr ⟨o, hform, hgrammar⟩⟩

end TreeSchema.Grammar
