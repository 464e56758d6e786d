import Mathlib.Data.Set.Card
import TreeSchema.Proofs.RoundTrip
import TreeSchema.Proofs.Soundness
/-
  Validation comes to an end

  A rule that calls itself before a token is taken would do so without end.
  In a grammar with no such rule every call that takes place before a token
  is taken goes down in rank, and every other has fewer tokens ahead, so that
  every run comes to an end (`finishes_rule`). No grammar of a schema has such
  a rule, because what an item can be begins with a token.
-/

namespace TreeSchema

/-! ## Left recursion -/

namespace Grammar

open Validation (nonterminalOf?)

/-- The symbol can stand for no tokens. -/
def Nullable (g : Grammar) (s : Symbol) : Prop := g.Derives [s] []

/-- Some alternative of `a` comes to `b`, or to a repetition of it, after
nothing but symbols that can stand for no tokens. -/
def LeftReaches (g : Grammar) (a b : String) : Prop :=
  ∃ r ∈ g.rules, r.lhs = a ∧ ∃ before s after, before ++ s :: after ∈ r.alternatives ∧
    (∀ x ∈ before, g.Nullable x) ∧ nonterminalOf? s = some b

def LeftRecursive (g : Grammar) : Prop := ∃ a, Relation.TransGen g.LeftReaches a a

/-- The number of rules that can be called, one by another, before a token is
taken. -/
noncomputable def rank (g : Grammar) (a : String) : Nat :=
  Set.ncard {b | b ∈ g.rules.map Rule.lhs ∧ Relation.ReflTransGen g.LeftReaches a b}

variable {g : Grammar}

theorem rank_lt {a b : String} (h : ¬ g.LeftRecursive) (hab : g.LeftReaches a b) :
    g.rank b < g.rank a := by
  have hfinite : {c | c ∈ g.rules.map Rule.lhs ∧
      Relation.ReflTransGen g.LeftReaches a c}.Finite :=
    (List.finite_toSet (g.rules.map Rule.lhs)).subset fun c hc => hc.1
  refine Set.ncard_lt_ncard ⟨fun c hc => ⟨hc.1, .head hab hc.2⟩, ?_⟩ hfinite
  intro hsub
  -- The rule itself can be called from `a` and not from `b`.
  obtain ⟨r, hr, hlhs, _⟩ := id hab
  have hmem : a ∈ g.rules.map Rule.lhs := hlhs ▸ List.mem_map_of_mem hr
  have hback := (hsub ⟨hmem, .refl⟩).2
  exact h ⟨a, .head' hab hback⟩

/-- If no rule that is called before a token is taken calls another, then
none can come back to itself. -/
theorem not_leftRecursive_of_shallow
    (h : ∀ a b, g.LeftReaches a b → ∀ c, ¬ g.LeftReaches b c) : ¬ g.LeftRecursive := by
  rintro ⟨a, hcycle⟩
  obtain ⟨b, hab, hba⟩ := Relation.TransGen.head'_iff.mp hcycle
  rcases hba.cases_head with rfl | ⟨c, hbc, _⟩
  · exact h _ _ hab _ hab
  · exact h a b hab c hbc

theorem not_nullable_terminal (t : Terminal) : ¬ g.Nullable (.terminal t) := by
  intro h
  cases h

/-- What begins with a token comes to no other rule before it. -/
theorem ne_terminal_cons_of_nullable {before after more : List Symbol} {s : Symbol}
    {name : String} (hbefore : ∀ x ∈ before, g.Nullable x) (hs : nonterminalOf? s = some name)
    (t : Terminal) : before ++ s :: after ≠ .terminal t :: more := by
  intro h
  cases before with
  | nil =>
    cases (List.cons.inj h).1
    cases hs
  | cons x before =>
    cases (List.cons.inj h).1
    exact not_nullable_terminal t (hbefore _ List.mem_cons_self)

end Grammar

/-! ## Runs that come to an end -/

namespace Validation

def Validator.Finishes (v : Validator) (task : Task) (rest : List PlacedToken) : Prop :=
  ∃ o, Runs v task rest o

namespace Validator
variable {v : Validator} {rule : String} {rest : List PlacedToken}

/-- Each turn of a repetition that does not end it has fewer tokens ahead. -/
theorem finishes_repeated {inner : Symbol}
    (hinner : ∀ tail, tail <:+ rest → v.Finishes (.symbol rule inner) tail) :
    v.Finishes (.symbol rule (.repeated inner)) rest := by
  induction hlength : rest.length using Nat.strong_induction_on generalizing rest with
  | _ n ih =>
    have hlater : ∀ tail, tail <:+ rest → tail ≠ rest →
        v.Finishes (.symbol rule (.repeated inner)) tail := by
      intro tail hsuffix hne
      have hlt := length_lt_of_suffix hsuffix hne
      exact ih tail.length (hlength ▸ hlt) (fun _ h => hinner _ (h.trans hsuffix)) rfl
    cases rest with
    | nil => exact ⟨_, .atEnd⟩
    | cons t rest =>
      by_cases hclose : t.token.isClose = true
      · exact ⟨_, .atClose hclose⟩
      rw [Bool.not_eq_true] at hclose
      have hskip := skipElement_suffix t rest
      obtain ⟨o, hothers⟩ := hlater _ (hskip.trans (List.suffix_cons t rest))
        (fun heq => by simpa [heq] using hskip.length_le)
      by_cases hexpected : Expects (v.firstOfSymbol inner) t
      · obtain ⟨found, hfirst⟩ := hinner _ (List.suffix_refl _)
        cases found with
        | exhausted => exact absurd rfl hfirst.ne_exhausted
        | mismatch => exact ⟨_, .misfit hclose hexpected hfirst hothers⟩
        | parsed left recorded =>
          by_cases hleft : left = t :: rest
          · subst hleft
            exact ⟨_, .idle hclose hexpected hfirst⟩
          · obtain ⟨o', hothers'⟩ := hlater left (hfirst.suffix trivial) hleft
            exact ⟨_, .again hclose hexpected hfirst hleft hothers'⟩
      · exact ⟨_, .unexpected hclose hexpected hothers⟩

theorem finishes_symbol (s : Symbol)
    (hcalls : ∀ name, nonterminalOf? s = some name →
      ∀ tail, tail <:+ rest → v.Finishes (.rule name) tail) :
    v.Finishes (.symbol rule s) rest := by
  induction s generalizing rest with
  | terminal t => exact ⟨_, .terminal⟩
  | nonterminal name =>
    obtain ⟨o, hcall⟩ := hcalls name rfl rest (List.suffix_refl _)
    exact ⟨o, .nonterminal hcall⟩
  | repeated inner ih =>
    refine finishes_repeated fun tail hsuffix => ih fun name hname tail' hsuffix' => ?_
    exact hcalls name hname tail' (hsuffix'.trans hsuffix)

/-- Up to the first token that is taken, only symbols that can stand for no
tokens have been parsed; from then on there are fewer tokens ahead. -/
theorem finishes_symbols (symbols : List Symbol)
    (hfirst : ∀ before s after, symbols = before ++ s :: after →
      (∀ x ∈ before, v.grammar.Nullable x) → ∀ name, nonterminalOf? s = some name →
      v.Finishes (.rule name) rest)
    (hlater : ∀ tail, tail <:+ rest → tail ≠ rest → ∀ name, v.Finishes (.rule name) tail) :
    v.Finishes (.symbols rule symbols) rest := by
  induction symbols generalizing rest with
  | nil => exact ⟨_, .done⟩
  | cons s others ih =>
    have hcalls : ∀ name, nonterminalOf? s = some name →
        ∀ tail, tail <:+ rest → v.Finishes (.rule name) tail := by
      intro name hname tail hsuffix
      by_cases heq : tail = rest
      · subst heq
        exact hfirst [] s others rfl (fun x hx => absurd hx List.not_mem_nil) name hname
      · exact hlater tail hsuffix heq name
    obtain ⟨o, hrun⟩ := finishes_symbol s hcalls
    cases o with
    | exhausted => exact absurd rfl hrun.ne_exhausted
    | mismatch => exact ⟨_, .stuck hrun⟩
    | parsed left recorded =>
      obtain ⟨taken, hconsumed, hderives⟩ := hrun.reads trivial rfl
      have hothers : v.Finishes (.symbols rule others) left := by
        by_cases heq : left = rest
        · -- Nothing has been taken, so that the symbol can stand for no tokens.
          subst heq
          rw [hconsumed.taken_eq_nil] at hderives
          refine ih (fun before x after hsplit hbefore => ?_) hlater
          refine hfirst (s :: before) x after (by rw [hsplit, List.cons_append]) ?_
          exact List.forall_mem_cons.mpr ⟨hderives, hbefore⟩
        · refine ih (fun _ _ _ _ _ name _ => hlater left hconsumed.suffix heq name) ?_
          intro tail hsuffix hne
          refine hlater tail (hsuffix.trans hconsumed.suffix) ?_
          rintro rfl
          exact hne (hsuffix.eq_of_length_le hconsumed.suffix.length_le)
      obtain ⟨o, hrest⟩ := hothers
      exact ⟨_, .next hrun hrest⟩

theorem finishes_choice {best : Option (List PlacedToken × List Violation)}
    {candidates : List Branch}
    (h : ∀ b ∈ candidates, v.Finishes (.symbols rule b.symbols) rest) :
    v.Finishes (.choice rule best candidates) rest := by
  induction candidates generalizing best with
  | nil =>
    cases best with
    | none => exact ⟨_, .allFailed⟩
    | some found => exact ⟨_, .settled⟩
  | cons b others ih =>
    obtain ⟨hb, hothers⟩ := List.forall_mem_cons.mp h
    obtain ⟨o, hfirst⟩ := hb
    cases o with
    | exhausted => exact absurd rfl hfirst.ne_exhausted
    | mismatch =>
      obtain ⟨o, hnext⟩ := ih hothers
      exact ⟨o, .failed hfirst hnext⟩
    | parsed left recorded =>
      cases recorded with
      | nil => exact ⟨_, .clean hfirst⟩
      | cons violation more =>
        obtain ⟨o, hnext⟩ := ih hothers
        exact ⟨o, .compared hfirst (List.cons_ne_nil _ _) hnext⟩

/-- The outer induction is on the tokens ahead, the inner one on the rank of
the rule. -/
theorem finishes_rule (h : ¬ v.grammar.LeftRecursive) (name : String)
    (rest : List PlacedToken) : v.Finishes (.rule name) rest := by
  induction hlength : rest.length using Nat.strong_induction_on generalizing rest name with
  | _ n ihtokens =>
    induction hrank : v.grammar.rank name using Nat.strong_induction_on generalizing name with
    | _ k ihrank =>
      have hlater : ∀ tail, tail <:+ rest → tail ≠ rest →
          ∀ called, v.Finishes (.rule called) tail := by
        intro tail hsuffix hne called
        have hlt := length_lt_of_suffix hsuffix hne
        exact ihtokens tail.length (hlength ▸ hlt) called tail rfl
      have hbranches : ∀ b ∈ v.candidates name rest, v.Finishes (.symbols name b.symbols) rest := by
        intro b hb
        obtain ⟨r, hr, hlhs, hmem⟩ :=
          exists_rule_of_mem_branchesOf (mem_branchesOf_of_mem_candidates hb)
        refine finishes_symbols b.symbols (fun before s after hsplit hbefore called hs => ?_) hlater
        have hreaches : v.grammar.LeftReaches name called :=
          ⟨r, hr, hlhs, before, s, after, hsplit ▸ hmem, hbefore, hs⟩
        exact ihrank _ (hrank ▸ Grammar.rank_lt h hreaches) called rfl
      obtain ⟨o, hchoice⟩ := finishes_choice hbranches
      exact ⟨o, .rule hchoice⟩

theorem exists_validates (h : ¬ v.grammar.LeftRecursive) (document : Node) :
    ∃ found, v.Validates document found := by
  obtain ⟨o, hruns⟩ := finishes_rule h v.start document.tokens
  exact ⟨_, o, hruns, rfl⟩

end Validator

end Validation

/-! ## Grammars of schemas -/

namespace Schema

open Validation

theorem head_of_mem_patternRules {ι : Type} {label : ι → String} {lhs : String} {p : Pattern ι}
    {r : Rule} (hr : r ∈ patternRules label lhs p) {symbols : List Symbol}
    (hsymbols : symbols ∈ r.alternatives) :
    (∃ t more, symbols = .terminal t :: more) ∨
      ∃ m ∈ p.members, symbols = [.nonterminal (label m)] := by
  cases p with
  | anyScalar =>
    rw [List.mem_singleton.mp hr] at hsymbols
    exact Or.inl ⟨_, _, List.mem_singleton.mp hsymbols⟩
  | oneOf values =>
    rw [List.mem_singleton.mp hr] at hsymbols
    obtain ⟨value, _, rfl⟩ := List.mem_map.mp hsymbols
    exact Or.inl ⟨_, _, rfl⟩
  | array members =>
    rcases List.mem_cons.mp hr with rfl | hr
    · exact Or.inl ⟨_, _, List.mem_singleton.mp hsymbols⟩
    · split at hr
      · cases hr
      · rw [List.mem_singleton.mp hr] at hsymbols
        obtain ⟨m, hm, rfl⟩ := List.mem_map.mp hsymbols
        exact Or.inr ⟨m, hm, rfl⟩
  | mapping members =>
    rcases List.mem_cons.mp hr with rfl | hr
    · exact Or.inl ⟨_, _, List.mem_singleton.mp hsymbols⟩
    · rw [List.mem_singleton.mp hr] at hsymbols
      dsimp only [entryAlternatives] at hsymbols
      split at hsymbols
      · exact Or.inl ⟨_, _, List.mem_singleton.mp hsymbols⟩
      · obtain ⟨m, _, rfl⟩ := List.mem_map.mp hsymbols
        exact Or.inl ⟨_, _, rfl⟩

namespace Describes
variable {ι : Type} {g : Grammar} {meaning : ι → Pattern ι} {label : ι → String}
  {present : ι → Prop}

theorem exists_label_of_leftReaches (h : Describes g meaning label present) {a b : String}
    (hab : g.LeftReaches a b) : ∃ i, present i ∧ b = label i := by
  obtain ⟨r, hr, _, before, s, after, hmem, hbefore, hs⟩ := hab
  obtain ⟨i, hi, hr⟩ := (h.rules r).mp hr
  rcases head_of_mem_patternRules hr hmem with ⟨t, more, heq⟩ | ⟨m, hm, heq⟩
  · exact absurd heq (Grammar.ne_terminal_cons_of_nullable hbefore hs t)
  · have hs' : s ∈ [Symbol.nonterminal (label m)] :=
      heq ▸ List.mem_append_right _ List.mem_cons_self
    rw [List.mem_singleton.mp hs'] at hs
    exact ⟨m, h.closed i hi m hm, (Option.some.inj hs).symm⟩

theorem not_leftReaches_label (h : Describes g meaning label present) {i : ι} (hi : present i)
    (b : String) : ¬ g.LeftReaches (label i) b := by
  rintro ⟨r, hr, hlhs, before, s, after, hmem, hbefore, hs⟩
  obtain ⟨q, hq, hqlhs, hheads⟩ := exists_headed_rule label (label i) (meaning i)
  rw [h.rule_unique hi rfl hq hr (hlhs.trans hqlhs.symm)] at hmem
  obtain ⟨t, _, more, heq⟩ := exists_right_of_forall₂ hheads hmem
  exact Grammar.ne_terminal_cons_of_nullable hbefore hs t heq

/-- Only the rules for items come to other rules before a token is taken, and
these come to none. -/
theorem not_leftRecursive (h : Describes g meaning label present) : ¬ g.LeftRecursive := by
  refine Grammar.not_leftRecursive_of_shallow fun a b hab => ?_
  obtain ⟨i, hi, rfl⟩ := h.exists_label_of_leftReaches hab
  exact h.not_leftReaches_label hi

end Describes

theorem not_leftRecursive_of_compileGrammar {file source : String} {options : Options} {g : Grammar}
    (h : compileGrammar file source options = .ok g) :
    ¬ g.LeftRecursive ∧ ∃ v, Validator.ofGrammar g = .ok v := by
  obtain ⟨s, hs, rfl⟩ := compileGrammar_eq_ok_iff.mp h
  obtain ⟨_, _, _, _, hcloses, hproper⟩ := resolveSource_eq_ok hs
  have hdesc := Resolved.describes_grammar hcloses hproper options.name
  obtain ⟨v, hv, _⟩ := exists_validator hdesc hcloses.present_root rfl
  exact ⟨hdesc.not_leftRecursive, v, hv⟩

end Schema

/-! ## Every document has a verdict -/

namespace Validation

open Schema (Options compileGrammar)

/-- In a grammar without left recursion every rule comes to an end on all
tokens, with no bound on nested rules, and so every document has a verdict,
which is the one found within the allowance. The grammar of every schema is
such a grammar. -/
theorem every_document_validates :
    (∀ (g : Grammar) (v : Validator), Validator.ofGrammar g = .ok v → ¬ g.LeftRecursive →
      (∀ name rest, ∃ o, Runs v (.rule name) rest o) ∧
        ∀ document, ∃ found, v.Validates document found ∧ v.violations? document = some found) ∧
    ∀ (file source : String) (options : Options) (g : Grammar),
      compileGrammar file source options = .ok g →
      ¬ g.LeftRecursive ∧ ∃ v, Validator.ofGrammar g = .ok v ∧
        ∀ document, ∃ found, v.Validates document found ∧ v.violations? document = some found := by
  have hverdict : ∀ (g : Grammar) (v : Validator), Validator.ofGrammar g = .ok v →
      ¬ g.LeftRecursive →
      ∀ document, ∃ found, v.Validates document found ∧ v.violations? document = some found := by
    intro g v hv hleft document
    rw [← Validator.grammar_of_ofGrammar hv] at hleft
    obtain ⟨found, hfound⟩ := Validator.exists_validates hleft document
    exact ⟨found, hfound, Validator.validates_iff.mp hfound⟩
  refine ⟨fun g v hv hleft => ⟨?_, hverdict g v hv hleft⟩, ?_⟩
  · rw [← Validator.grammar_of_ofGrammar hv] at hleft
    exact Validator.finishes_rule hleft
  · intro file source options g hg
    obtain ⟨hleft, v, hv⟩ := Schema.not_leftRecursive_of_compileGrammar hg
    exact ⟨hleft, v, hv, hverdict g v hv hleft⟩

/-- Scalars before a list of the same again, where a rule calls two others
before a token is taken and a repetition repeats what can stand for nothing. -/
def optionalGrammar : Grammar :=
  { name := "Optional"
    start := "block"
    rules :=
      [⟨"block", [[.repeated (.nonterminal "note"), .nonterminal "note", .nonterminal "list"]]⟩,
       ⟨"note", [[], [.terminal .scalar]]⟩,
       ⟨"list", [[.terminal .openSequence, .repeated (.nonterminal "block"),
          .terminal .closeSequence]]⟩] }

theorem eq_block_of_leftReaches {a b : String} (h : optionalGrammar.LeftReaches a b) :
    a = "block" ∧ b ≠ "block" := by
  obtain ⟨r, hr, rfl, before, s, after, hmem, hbefore, hs⟩ := h
  simp only [optionalGrammar, List.mem_cons, List.not_mem_nil, or_false] at hr
  rcases hr with rfl | rfl | rfl
  · rw [List.mem_singleton] at hmem
    have hs' : s ∈ [Symbol.repeated (.nonterminal "note"), .nonterminal "note",
        .nonterminal "list"] := hmem ▸ List.mem_append_right _ List.mem_cons_self
    simp only [List.mem_cons, List.not_mem_nil, or_false] at hs'
    refine ⟨rfl, ?_⟩
    rcases hs' with rfl | rfl | rfl <;> cases hs <;> decide
  · rcases List.mem_pair.mp hmem with hmem | hmem
    · cases before <;> cases hmem
    · exact absurd hmem (Grammar.ne_terminal_cons_of_nullable hbefore hs _)
  · exact absurd (List.mem_singleton.mp hmem) (Grammar.ne_terminal_cons_of_nullable hbefore hs _)

/-- A block in a list in a block, and whatever a schema of trees accepts. -/
theorem optional_document_validates :
    (∃ v, Validator.ofGrammar optionalGrammar = .ok v ∧ ¬ optionalGrammar.LeftRecursive ∧
      ∃ found, v.Validates (.sequence [.scalar "a", .scalar "b", .sequence []]) found) ∧
    ∃ g v, compileGrammar Schema.nestedFile Schema.nestedSource { name := "Tree" } = .ok g ∧
      Validator.ofGrammar g = .ok v ∧
      ∃ found, v.Validates (.mapping [("below", .sequence [.scalar "z"])]) found := by
  have hleft : ¬ optionalGrammar.LeftRecursive :=
    Grammar.not_leftRecursive_of_shallow fun _ _ hab _ hbc =>
      (eq_block_of_leftReaches hab).2 (eq_block_of_leftReaches hbc).1
  have hv : Validator.ofGrammar optionalGrammar = .ok (Validator.prepared optionalGrammar) := by
    decide +kernel
  obtain ⟨_, hoptional⟩ := every_document_validates.1 _ _ hv hleft
  have hg : compileGrammar Schema.nestedFile Schema.nestedSource { name := "Tree" }
      = .ok (Schema.nested.grammar "Tree") :=
    Schema.compileGrammar_eq_ok_iff.mpr ⟨_, Schema.resolveSource_nested, rfl⟩
  obtain ⟨_, v, hv', hnested⟩ := every_document_validates.2 _ _ _ _ hg
  obtain ⟨found, hfound, _⟩ := hoptional (.sequence [.scalar "a", .scalar "b", .sequence []])
  obtain ⟨found', hfound', _⟩ := hnested (.mapping [("below", .sequence [.scalar "z"])])
  exact ⟨⟨_, hv, hleft, found, hfound⟩, _, v, hg, hv', found', hfound'⟩

end Validation

end TreeSchema
