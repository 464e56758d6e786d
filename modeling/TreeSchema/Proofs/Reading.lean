import TreeSchema.Grammar.Reader
import TreeSchema.Proofs.Scanning
/-
  Reading tokens

  The tokens that stand for each part of a grammar, and the two directions of
  reading: whatever a step of the reader takes is the tokens of what it
  returns, and the tokens of something readable are taken as that. Lines play
  no part in either, only in errors.
-/

namespace TreeSchema

open Grammar (Token)

/-! ## The tokens of a grammar -/

def Terminal.words : Terminal → List Token
  | scalar => [.identifier "SCALAR"]
  | literal value => [.string value]
  | key none => [.identifier "KEY"]
  | key (some name) => [.identifier "KEY", .openParen, .string name, .closeParen]
  | openSequence => [.bracket .openSequence]
  | closeSequence => [.bracket .closeSequence]
  | openMapping => [.bracket .openMapping]
  | closeMapping => [.bracket .closeMapping]

def Symbol.words : Symbol → List Token
  | terminal t => t.words
  | nonterminal name => [.identifier name]
  | repeated inner => inner.words ++ [.star]

def alternativeWords (symbols : List Symbol) : List Token := symbols.flatMap Symbol.words

@[simp] theorem alternativeWords_cons (s : Symbol) (rest : List Symbol) :
    alternativeWords (s :: rest) = s.words ++ alternativeWords rest := rfl

def othersWords (others : List (List Symbol)) : List Token :=
  others.flatMap fun symbols => .bar :: alternativeWords symbols

@[simp] theorem othersWords_cons (symbols : List Symbol) (rest : List (List Symbol)) :
    othersWords (symbols :: rest) = .bar :: (alternativeWords symbols ++ othersWords rest) := rfl

def Rule.words (r : Rule) : List Token :=
  match r.alternatives with
  | [] => [.identifier r.lhs, .semicolon]
  | first :: others =>
    .identifier r.lhs :: .colon :: (alternativeWords first ++ othersWords others ++ [.semicolon])

namespace Grammar

/-- What can stand before the separator. -/
inductive Directive where
  | name (value : String)
  | start (value : String)
  deriving DecidableEq, Repr

def Directive.words : Directive → List Token
  | name value => [.directive "grammar", .identifier value]
  | start value => [.directive "start", .identifier value]

/-- The tokens of a grammar, its name before its start symbol. -/
def words (g : Grammar) : List Token :=
  [Directive.name g.name, Directive.start g.start].flatMap Directive.words
    ++ .separator :: g.rules.flatMap Rule.words

end Grammar

/-! ## What can be read -/

/-- A symbol without repetition whose name is not that of a terminal. -/
def Symbol.IsPrimary : Symbol → Prop
  | terminal _ => True
  | nonterminal name => name ≠ "SCALAR" ∧ name ≠ "KEY"
  | repeated _ => False

/-- A symbol with at most one repetition. -/
def Symbol.IsItem : Symbol → Prop
  | repeated inner => inner.IsPrimary
  | s => s.IsPrimary

/-- One symbol or more. -/
def IsAlternative (symbols : List Symbol) : Prop := symbols ≠ [] ∧ ∀ s ∈ symbols, s.IsItem

/-- One alternative or more. -/
def Rule.IsReadable (r : Rule) : Prop :=
  r.alternatives ≠ [] ∧ ∀ symbols ∈ r.alternatives, IsAlternative symbols

namespace Grammar.Reader

/-- The tokens ahead, without their lines. -/
def wordsOf (rest : List LineToken) : List Token := rest.map LineToken.token

variable {endLine : UInt32} {rest after : List LineToken} {ws : List Token} {t : Token}

theorem peek_eq (rest : List LineToken) : peek rest = (wordsOf rest).head? := by
  rw [peek, wordsOf, List.head?_map]

theorem wordsOf_tail (rest : List LineToken) : wordsOf rest.tail = (wordsOf rest).tail := by
  rw [wordsOf, wordsOf, List.map_tail]

theorem wordsOf_of_peek (h : peek rest = some t) : wordsOf rest = t :: wordsOf rest.tail := by
  cases rest with
  | nil => cases h
  | cons first more =>
    cases h
    rfl

theorem peek_of_wordsOf (h : wordsOf rest = t :: ws) : peek rest = some t := by
  rw [peek_eq, h, List.head?_cons]

theorem wordsOf_tail_of_eq (h : wordsOf rest = t :: ws) : wordsOf rest.tail = ws := by
  rw [wordsOf_tail, h, List.tail_cons]

/-! ## Marks and names -/

theorem wordsOf_of_expect {mark : Char} (h : expect endLine t mark rest = .ok after) :
    wordsOf rest = t :: wordsOf after := by
  unfold expect at h
  split at h
  · next hpeek =>
    cases h
    exact wordsOf_of_peek hpeek
  · cases h

theorem expect_of_wordsOf {mark : Char} (h : wordsOf rest = t :: ws) :
    expect endLine t mark rest = .ok rest.tail := by
  rw [expect, if_pos (peek_of_wordsOf h)]

theorem wordsOf_of_takeIdentifier {name : String}
    (h : takeIdentifier endLine rest = .ok (name, after)) :
    wordsOf rest = .identifier name :: wordsOf after := by
  unfold takeIdentifier at h
  split at h
  · next hpeek =>
    cases h
    exact wordsOf_of_peek hpeek
  · cases h

theorem takeIdentifier_of_wordsOf {name : String} (h : wordsOf rest = .identifier name :: ws) :
    takeIdentifier endLine rest = .ok (name, rest.tail) := by
  rw [takeIdentifier, peek_of_wordsOf h]

/-! ## Symbols -/

theorem words_bracketTerminal (b : Bracket) : (bracketTerminal b).words = [.bracket b] := by
  cases b <;> rfl

theorem wordsOf_of_takeKey {s : Symbol} (h : takeKey endLine rest = .ok (s, after)) :
    ∃ name, s = .terminal (.key (some name)) ∧
      wordsOf rest = .string name :: .closeParen :: wordsOf after := by
  unfold takeKey at h
  split at h
  · next name hpeek =>
    obtain ⟨left, hleft, h⟩ := bind_eq_ok_iff.mp h
    cases h
    refine ⟨name, rfl, ?_⟩
    rw [wordsOf_of_peek hpeek, wordsOf_of_expect hleft]
  · cases h

theorem wordsOf_of_takePrimary {s : Symbol} (h : takePrimary endLine rest = .ok (s, after)) :
    s.IsPrimary ∧ wordsOf rest = s.words ++ wordsOf after := by
  unfold takePrimary at h
  split at h
  · next name hpeek =>
    have hrest := wordsOf_of_peek hpeek
    split at h
    · next hscalar =>
      cases h
      rw [hscalar] at hrest
      exact ⟨trivial, hrest⟩
    · next hscalar =>
      split at h
      · next hkey =>
        rw [hkey] at hrest
        split at h
        · next hparen =>
          obtain ⟨key, rfl, hrest'⟩ := wordsOf_of_takeKey h
          refine ⟨trivial, ?_⟩
          rw [hrest, wordsOf_of_peek hparen, hrest']
          rfl
        · cases h
          exact ⟨trivial, hrest⟩
      · next hkey =>
        cases h
        exact ⟨⟨hscalar, hkey⟩, hrest⟩
  · next value hpeek =>
    cases h
    exact ⟨trivial, wordsOf_of_peek hpeek⟩
  · next b hpeek =>
    cases h
    refine ⟨trivial, ?_⟩
    rw [wordsOf_of_peek hpeek, Symbol.words, words_bracketTerminal]
    rfl
  · cases h

theorem takePrimary_bracket {b : Bracket} (h : wordsOf rest = .bracket b :: ws) :
    takePrimary endLine rest = .ok (.terminal (bracketTerminal b), rest.tail) := by
  rw [takePrimary, peek_of_wordsOf h]

/-- The tokens of a primary symbol are taken as that symbol, if no
parenthesis follows a key that has none. -/
theorem takePrimary_of_wordsOf (endLine : UInt32) {s : Symbol} (hs : s.IsPrimary)
    (h : wordsOf rest = s.words ++ ws) (hnext : ws.head? ≠ some .openParen) :
    ∃ after, takePrimary endLine rest = .ok (s, after) ∧ wordsOf after = ws := by
  cases s with
  | nonterminal name =>
    refine ⟨rest.tail, ?_, wordsOf_tail_of_eq h⟩
    rw [takePrimary, peek_of_wordsOf h]
    dsimp only
    rw [if_neg hs.1, if_neg hs.2]
  | repeated inner => exact absurd hs id
  | terminal t =>
    cases t with
    | scalar =>
      refine ⟨rest.tail, ?_, wordsOf_tail_of_eq h⟩
      rw [takePrimary, peek_of_wordsOf h]
      rfl
    | literal value =>
      refine ⟨rest.tail, ?_, wordsOf_tail_of_eq h⟩
      rw [takePrimary, peek_of_wordsOf h]
    | openSequence => exact ⟨rest.tail, takePrimary_bracket h, wordsOf_tail_of_eq h⟩
    | closeSequence => exact ⟨rest.tail, takePrimary_bracket h, wordsOf_tail_of_eq h⟩
    | openMapping => exact ⟨rest.tail, takePrimary_bracket h, wordsOf_tail_of_eq h⟩
    | closeMapping => exact ⟨rest.tail, takePrimary_bracket h, wordsOf_tail_of_eq h⟩
    | key name =>
      cases name with
      | none =>
        have htail := wordsOf_tail_of_eq h
        refine ⟨rest.tail, ?_, htail⟩
        rw [takePrimary, peek_of_wordsOf h]
        dsimp only
        rw [if_neg (by decide), if_pos rfl, if_neg (by rw [peek_eq, htail]; exact hnext)]
      | some key =>
        have hparen := wordsOf_tail_of_eq h
        have hstring := wordsOf_tail_of_eq hparen
        have hclose := wordsOf_tail_of_eq hstring
        refine ⟨rest.tail.tail.tail.tail, ?_, wordsOf_tail_of_eq hclose⟩
        rw [takePrimary, peek_of_wordsOf h]
        dsimp only
        rw [if_neg (by decide), if_pos rfl, if_pos (peek_of_wordsOf hparen), takeKey,
          peek_of_wordsOf hstring]
        dsimp only
        rw [expect_of_wordsOf hclose]
        rfl

theorem wordsOf_of_takeSymbol {s : Symbol} (h : takeSymbol endLine rest = .ok (s, after)) :
    s.IsItem ∧ wordsOf rest = s.words ++ wordsOf after := by
  obtain ⟨⟨primary, left⟩, hprimary, h⟩ := bind_eq_ok_iff.mp h
  obtain ⟨hs, hrest⟩ := wordsOf_of_takePrimary hprimary
  dsimp only at h
  split at h
  · next hstar =>
    cases h
    refine ⟨hs, ?_⟩
    rw [hrest, wordsOf_of_peek hstar, Symbol.words, List.append_assoc, List.singleton_append]
  · cases h
    refine ⟨?_, hrest⟩
    cases s with
    | terminal t => exact hs
    | nonterminal name => exact hs
    | repeated inner => exact absurd hs id

theorem takeSymbol_of_wordsOf (endLine : UInt32) {s : Symbol} (hs : s.IsItem)
    (h : wordsOf rest = s.words ++ ws) (hparen : ws.head? ≠ some .openParen)
    (hstar : ws.head? ≠ some .star) :
    ∃ after, takeSymbol endLine rest = .ok (s, after) ∧ wordsOf after = ws := by
  have hplain : s.IsPrimary →
      ∃ after, takeSymbol endLine rest = .ok (s, after) ∧ wordsOf after = ws := by
    intro hprimary
    obtain ⟨left, htake, hleft⟩ := takePrimary_of_wordsOf endLine hprimary h hparen
    refine ⟨left, ?_, hleft⟩
    rw [takeSymbol, htake, ok_bind]
    dsimp only
    rw [if_neg (by rw [peek_eq, hleft]; exact hstar)]
    rfl
  cases s with
  | terminal t => exact hplain hs
  | nonterminal name => exact hplain hs
  | repeated inner =>
    rw [Symbol.words, List.append_assoc, List.singleton_append] at h
    obtain ⟨left, htake, hleft⟩ :=
      takePrimary_of_wordsOf endLine (s := inner) hs h (by simp)
    refine ⟨left.tail, ?_, wordsOf_tail_of_eq hleft⟩
    rw [takeSymbol, htake, ok_bind]
    dsimp only
    rw [if_pos (peek_of_wordsOf hleft)]
    rfl

/-- A symbol begins with a token that continues an alternative and belongs to
nothing before it. -/
theorem head_words {s : Symbol} (hs : s.IsItem) :
    ∃ first more, s.words = first :: more ∧ endsAlternative (some first) = false ∧
      first ≠ .openParen ∧ first ≠ .star := by
  have hterminal : ∀ u : Terminal, ∃ first more, u.words = first :: more ∧
      endsAlternative (some first) = false ∧ first ≠ .openParen ∧ first ≠ .star := by
    intro u
    cases u with
    | key name => cases name <;> exact ⟨_, _, rfl, rfl, by simp, by simp⟩
    | _ => exact ⟨_, _, rfl, rfl, by simp, by simp⟩
  cases s with
  | terminal u => exact hterminal u
  | nonterminal name => exact ⟨_, _, rfl, rfl, by simp, by simp⟩
  | repeated inner =>
    cases inner with
    | terminal u =>
      obtain ⟨first, more, hwords, hfirst⟩ := hterminal u
      refine ⟨first, more ++ [.star], ?_, hfirst⟩
      rw [Symbol.words, Symbol.words, hwords, List.cons_append]
    | nonterminal name => exact ⟨_, _, rfl, rfl, by simp, by simp⟩
    | repeated s => exact absurd hs id

/-! ## Alternatives -/

theorem wordsOf_of_takeSymbols {symbols : List Symbol}
    (h : takeSymbols endLine rest = .ok (symbols, after)) :
    (∀ s ∈ symbols, s.IsItem) ∧ wordsOf rest = alternativeWords symbols ++ wordsOf after := by
  fun_induction takeSymbols endLine rest generalizing symbols after with
  | case1 =>
    cases h
    exact ⟨fun s hs => absurd hs List.not_mem_nil, rfl⟩
  | case2 => cases h
  | case3 rest _ s left hs ih =>
    obtain ⟨⟨others, last⟩, hothers, h⟩ := bind_eq_ok_iff.mp h
    cases h
    obtain ⟨hitem, hrest⟩ := wordsOf_of_takeSymbol hs
    obtain ⟨hitems, hleft⟩ := ih hothers
    refine ⟨List.forall_mem_cons.mpr ⟨hitem, hitems⟩, ?_⟩
    rw [hrest, hleft, alternativeWords_cons, List.append_assoc]

theorem takeSymbols_of_wordsOf (endLine : UInt32) {symbols : List Symbol}
    (hs : ∀ s ∈ symbols, s.IsItem) (h : wordsOf rest = alternativeWords symbols ++ ws)
    (hend : endsAlternative ws.head? = true) :
    ∃ after, takeSymbols endLine rest = .ok (symbols, after) ∧ wordsOf after = ws := by
  induction symbols generalizing rest with
  | nil =>
    refine ⟨rest, ?_, h⟩
    have hws : wordsOf rest = ws := h
    rw [takeSymbols, if_pos (by rw [peek_eq, hws]; exact hend)]
  | cons s others ih =>
    obtain ⟨hitem, hitems⟩ := List.forall_mem_cons.mp hs
    rw [alternativeWords_cons, List.append_assoc] at h
    -- What follows the symbol is another symbol or the end of the alternative.
    have hfollows : (alternativeWords others ++ ws).head? ≠ some .openParen ∧
        (alternativeWords others ++ ws).head? ≠ some .star := by
      cases others with
      | nil =>
        show ws.head? ≠ some .openParen ∧ ws.head? ≠ some .star
        constructor <;> intro hhead <;> rw [hhead] at hend <;> cases hend
      | cons next more =>
        obtain ⟨first, tail, hwords, _, hparen, hstar⟩ :=
          head_words (hitems next List.mem_cons_self)
        rw [alternativeWords_cons, hwords, List.cons_append, List.cons_append, List.head?_cons]
        exact ⟨fun heq => hparen (Option.some.inj heq), fun heq => hstar (Option.some.inj heq)⟩
    obtain ⟨left, htake, hleft⟩ :=
      takeSymbol_of_wordsOf endLine hitem h hfollows.1 hfollows.2
    obtain ⟨last, htakes, hlast⟩ := ih hitems hleft
    refine ⟨last, ?_, hlast⟩
    obtain ⟨first, tail, hwords, hcontinues, _⟩ := head_words hitem
    have hpeek : endsAlternative (peek rest) = false := by
      rw [peek_eq, h, hwords]
      exact hcontinues
    rw [takeSymbols, if_neg (by rw [hpeek]; exact Bool.false_ne_true)]
    -- The recursion keeps the result of its first step, so that it is split and not rewritten.
    split
    · next htake' => cases htake.symm.trans htake'
    · next htake' =>
      cases htake.symm.trans htake'
      rw [htakes]
      rfl

theorem wordsOf_of_takeAlternative {symbols : List Symbol}
    (h : takeAlternative endLine rest = .ok (symbols, after)) :
    IsAlternative symbols ∧ wordsOf rest = alternativeWords symbols ++ wordsOf after := by
  obtain ⟨⟨taken, left⟩, htaken, h⟩ := bind_eq_ok_iff.mp h
  obtain ⟨hitems, hrest⟩ := wordsOf_of_takeSymbols htaken
  dsimp only at h
  split at h
  · cases h
  · next hne =>
    cases h
    exact ⟨⟨by simpa using hne, hitems⟩, hrest⟩

theorem takeAlternative_of_wordsOf (endLine : UInt32) {symbols : List Symbol}
    (hs : IsAlternative symbols) (h : wordsOf rest = alternativeWords symbols ++ ws)
    (hend : endsAlternative ws.head? = true) :
    ∃ after, takeAlternative endLine rest = .ok (symbols, after) ∧ wordsOf after = ws := by
  obtain ⟨left, htake, hleft⟩ := takeSymbols_of_wordsOf endLine hs.2 h hend
  refine ⟨left, ?_, hleft⟩
  rw [takeAlternative, htake, ok_bind]
  dsimp only
  rw [if_neg (by simpa using hs.1)]
  rfl

theorem wordsOf_of_takeOthers {others : List (List Symbol)}
    (h : takeOthers endLine rest = .ok (others, after)) :
    (∀ symbols ∈ others, IsAlternative symbols) ∧
      wordsOf rest = othersWords others ++ wordsOf after := by
  fun_induction takeOthers endLine rest generalizing others after with
  | case1 => cases h
  | case2 rest hbar symbols left hsymbols ih =>
    obtain ⟨⟨more, last⟩, hmore, h⟩ := bind_eq_ok_iff.mp h
    cases h
    obtain ⟨halternative, htail⟩ := wordsOf_of_takeAlternative hsymbols
    obtain ⟨hothers, hleft⟩ := ih hmore
    refine ⟨List.forall_mem_cons.mpr ⟨halternative, hothers⟩, ?_⟩
    rw [wordsOf_of_peek hbar, htail, hleft, othersWords_cons, List.cons_append,
      List.append_assoc]
  | case3 =>
    cases h
    exact ⟨fun symbols hsymbols => absurd hsymbols List.not_mem_nil, rfl⟩

theorem endsAlternative_othersWords (others : List (List Symbol)) :
    endsAlternative (othersWords others ++ .semicolon :: ws).head? = true := by
  cases others <;> rfl

theorem takeOthers_of_wordsOf (endLine : UInt32) {others : List (List Symbol)}
    (hothers : ∀ symbols ∈ others, IsAlternative symbols)
    (h : wordsOf rest = othersWords others ++ .semicolon :: ws) :
    ∃ after, takeOthers endLine rest = .ok (others, after) ∧
      wordsOf after = .semicolon :: ws := by
  induction others generalizing rest with
  | nil =>
    refine ⟨rest, ?_, h⟩
    rw [takeOthers, dif_neg (by rw [peek_of_wordsOf h]; simp)]
  | cons symbols more ih =>
    obtain ⟨hsymbols, hmore⟩ := List.forall_mem_cons.mp hothers
    rw [othersWords_cons, List.cons_append, List.append_assoc] at h
    obtain ⟨left, htake, hleft⟩ := takeAlternative_of_wordsOf endLine hsymbols
      (wordsOf_tail_of_eq h) (endsAlternative_othersWords more)
    obtain ⟨last, htakes, hlast⟩ := ih hmore hleft
    refine ⟨last, ?_, hlast⟩
    rw [takeOthers, dif_pos (peek_of_wordsOf h)]
    split
    · next htake' => cases htake.symm.trans htake'
    · next htake' =>
      cases htake.symm.trans htake'
      rw [htakes]
      rfl

/-! ## Rules -/

theorem wordsOf_of_takeRule {r : Rule} (h : takeRule endLine rest = .ok (r, after)) :
    r.IsReadable ∧ wordsOf rest = r.words ++ wordsOf after := by
  obtain ⟨⟨lhs, afterName⟩, hname, h⟩ := bind_eq_ok_iff.mp h
  obtain ⟨afterColon, hcolon, h⟩ := bind_eq_ok_iff.mp h
  obtain ⟨⟨first, afterFirst⟩, hfirst, h⟩ := bind_eq_ok_iff.mp h
  obtain ⟨⟨others, afterOthers⟩, hothers, h⟩ := bind_eq_ok_iff.mp h
  obtain ⟨afterMark, hmark, h⟩ := bind_eq_ok_iff.mp h
  cases h
  obtain ⟨hfirstOk, hwordsFirst⟩ := wordsOf_of_takeAlternative hfirst
  obtain ⟨hothersOk, hwordsOthers⟩ := wordsOf_of_takeOthers hothers
  refine ⟨⟨List.cons_ne_nil _ _, List.forall_mem_cons.mpr ⟨hfirstOk, hothersOk⟩⟩, ?_⟩
  rw [wordsOf_of_takeIdentifier hname, wordsOf_of_expect hcolon, hwordsFirst, hwordsOthers,
    wordsOf_of_expect hmark]
  simp [Rule.words]

theorem takeRule_of_wordsOf (endLine : UInt32) {r : Rule} (hr : r.IsReadable)
    (h : wordsOf rest = r.words ++ ws) :
    ∃ after, takeRule endLine rest = .ok (r, after) ∧ wordsOf after = ws := by
  obtain ⟨lhs, alternatives⟩ := r
  cases alternatives with
  | nil => exact absurd rfl hr.1
  | cons first others =>
    obtain ⟨hfirst, hothers⟩ := List.forall_mem_cons.mp hr.2
    have hwords : wordsOf rest = .identifier lhs :: .colon ::
        (alternativeWords first ++ (othersWords others ++ .semicolon :: ws)) := by
      rw [h]
      simp [Rule.words]
    have hcolon := wordsOf_tail_of_eq hwords
    obtain ⟨left, htakeFirst, hleft⟩ := takeAlternative_of_wordsOf endLine hfirst
      (wordsOf_tail_of_eq hcolon) (endsAlternative_othersWords others)
    obtain ⟨last, htakeOthers, hlast⟩ := takeOthers_of_wordsOf endLine hothers hleft
    refine ⟨last.tail, ?_, wordsOf_tail_of_eq hlast⟩
    rw [takeRule, takeIdentifier_of_wordsOf hwords, ok_bind]
    dsimp only
    rw [expect_of_wordsOf hcolon, ok_bind, htakeFirst, ok_bind]
    dsimp only
    rw [htakeOthers, ok_bind]
    dsimp only
    rw [expect_of_wordsOf hlast]
    rfl

theorem wordsOf_of_takeRules {rules : List Rule} (h : takeRules endLine rest = .ok rules) :
    (∀ r ∈ rules, r.IsReadable) ∧ wordsOf rest = rules.flatMap Rule.words := by
  fun_induction takeRules endLine rest generalizing rules with
  | case1 rest hempty =>
    cases h
    rw [List.isEmpty_iff.mp hempty]
    exact ⟨fun r hr => absurd hr List.not_mem_nil, rfl⟩
  | case2 => cases h
  | case3 rest _ r left hr ih =>
    obtain ⟨others, hothers, h⟩ := bind_eq_ok_iff.mp h
    cases h
    obtain ⟨hreadable, hrest⟩ := wordsOf_of_takeRule hr
    obtain ⟨hall, hleft⟩ := ih hothers
    refine ⟨List.forall_mem_cons.mpr ⟨hreadable, hall⟩, ?_⟩
    rw [hrest, hleft, List.flatMap_cons]

theorem takeRules_of_wordsOf (endLine : UInt32) {rules : List Rule}
    (hrules : ∀ r ∈ rules, r.IsReadable) (h : wordsOf rest = rules.flatMap Rule.words) :
    takeRules endLine rest = .ok rules := by
  induction rules generalizing rest with
  | nil =>
    have hnil : rest = [] := List.map_eq_nil_iff.mp h
    rw [hnil, takeRules]
    rfl
  | cons r others ih =>
    obtain ⟨hr, hothers⟩ := List.forall_mem_cons.mp hrules
    rw [List.flatMap_cons] at h
    obtain ⟨left, htake, hleft⟩ := takeRule_of_wordsOf endLine hr h
    have hne : rest.isEmpty = false := by
      cases rest with
      | nil => cases htake
      | cons first more => rfl
    rw [takeRules, hne, if_neg Bool.false_ne_true]
    split
    · next htake' => cases htake.symm.trans htake'
    · next htake' =>
      cases htake.symm.trans htake'
      rw [ih hothers hleft]
      rfl

/-! ## Directives -/

def Names.give (names : Names) : Directive → Names
  | .name value => { names with name := some value }
  | .start value => { names with start := some value }

theorem wordsOf_of_takeDirectives {names given : Names}
    (h : takeDirectives endLine names rest = .ok (given, after)) :
    ∃ ds : List Directive, given = ds.foldl Names.give names ∧
      wordsOf rest = ds.flatMap Directive.words ++ .separator :: wordsOf after := by
  fun_induction takeDirectives endLine names rest with
  | case1 => cases h
  | case2 =>
    cases h
    exact ⟨[], rfl, rfl⟩
  | case3 => cases h
  | case4 names line rest name left hname ih =>
    obtain ⟨ds, hgiven, hleft⟩ := ih h
    refine ⟨.name name :: ds, hgiven, ?_⟩
    rw [List.flatMap_cons, List.append_assoc, ← hleft]
    exact congrArg (Token.directive "grammar" :: ·) (wordsOf_of_takeIdentifier hname)
  | case5 => cases h
  | case6 names line rest name left hname _ ih =>
    obtain ⟨ds, hgiven, hleft⟩ := ih h
    refine ⟨.start name :: ds, hgiven, ?_⟩
    rw [List.flatMap_cons, List.append_assoc, ← hleft]
    exact congrArg (Token.directive "start" :: ·) (wordsOf_of_takeIdentifier hname)
  | case7 => cases h
  | case8 => cases h

theorem takeDirectives_of_wordsOf (endLine : UInt32) {ds : List Directive} (names : Names)
    (h : wordsOf rest = ds.flatMap Directive.words ++ .separator :: ws) :
    ∃ after, takeDirectives endLine names rest = .ok (ds.foldl Names.give names, after) ∧
      wordsOf after = ws := by
  induction ds generalizing rest names with
  | nil =>
    cases rest with
    | nil => cases h
    | cons first more =>
      obtain ⟨token, line⟩ := first
      cases h
      exact ⟨more, by rw [takeDirectives]; rfl, rfl⟩
  | cons d others ih =>
    rw [List.flatMap_cons, List.append_assoc] at h
    cases rest with
    | nil => cases d <;> cases h
    | cons first more =>
      obtain ⟨token, line⟩ := first
      cases d with
      | name value =>
        obtain ⟨rfl, hmore⟩ := List.cons.inj h
        obtain ⟨left, htake, hleft⟩ := ih (names.give (.name value)) (wordsOf_tail_of_eq hmore)
        refine ⟨left, ?_, hleft⟩
        rw [takeDirectives, if_pos rfl]
        split
        · next htake' => cases (takeIdentifier_of_wordsOf hmore).symm.trans htake'
        · next htake' =>
          cases (takeIdentifier_of_wordsOf hmore).symm.trans htake'
          exact htake
      | start value =>
        obtain ⟨rfl, hmore⟩ := List.cons.inj h
        obtain ⟨left, htake, hleft⟩ := ih (names.give (.start value)) (wordsOf_tail_of_eq hmore)
        refine ⟨left, ?_, hleft⟩
        rw [takeDirectives, if_neg (by decide), if_pos rfl]
        split
        · next htake' => cases (takeIdentifier_of_wordsOf hmore).symm.trans htake'
        · next htake' =>
          cases (takeIdentifier_of_wordsOf hmore).symm.trans htake'
          exact htake

/-- The names that directives give, the last of each kind. -/
def givenBy (ds : List Directive) : Names := ds.foldl Names.give { name := none, start := none }

/-- A grammar that has been read is made of the tokens: its directives, a
separator and its rules. -/
theorem wordsOf_of_ofTokens {stream : TokenStream} {g : Grammar} (h : ofTokens stream = .ok g) :
    ∃ ds : List Directive, (givenBy ds).start = some g.start ∧
      (givenBy ds).name.getD "" = g.name ∧ (∀ r ∈ g.rules, r.IsReadable) ∧
      wordsOf stream.tokens
        = ds.flatMap Directive.words ++ .separator :: g.rules.flatMap Rule.words := by
  obtain ⟨⟨given, left⟩, hgiven, h⟩ := bind_eq_ok_iff.mp h
  obtain ⟨ds, rfl, hstream⟩ := wordsOf_of_takeDirectives hgiven
  dsimp only at h
  split at h
  · cases h
  · next start hstart =>
    obtain ⟨rules, hrules, h⟩ := bind_eq_ok_iff.mp h
    cases h
    obtain ⟨hreadable, hleft⟩ := wordsOf_of_takeRules hrules
    refine ⟨ds, hstart, rfl, hreadable, ?_⟩
    rw [hstream, hleft]

theorem ofTokens_of_wordsOf {stream : TokenStream} {g : Grammar}
    (hrules : ∀ r ∈ g.rules, r.IsReadable) (h : wordsOf stream.tokens = g.words) :
    ofTokens stream = .ok g := by
  obtain ⟨left, htake, hleft⟩ :=
    takeDirectives_of_wordsOf stream.endLine { name := none, start := none } h
  rw [ofTokens, htake, ok_bind]
  dsimp only [List.foldl, Names.give]
  rw [takeRules_of_wordsOf stream.endLine hrules hleft]
  rfl

end Grammar.Reader

end TreeSchema
