import TreeSchema.Grammar.Printer
import TreeSchema.Proofs.Emission
import TreeSchema.Proofs.Reading
/-
  Writing and reading grammars

  Which grammars survive being written and read back. Their names must be
  identifiers and not those of terminals, nothing may be empty, and nothing
  is repeated twice over; the strings of literals and keys may be anything.
  These grammars are read back as they were, and no others are. What a
  schema compiles to is among them.
-/

namespace TreeSchema

open Grammar (Token isIdentifier Spells Boundary)

/-! ## Well-formed grammars -/

namespace Symbol

def isRepeated : Symbol → Bool
  | repeated _ => true
  | _ => false

/-- Nonterminals are identifiers and do not go by the name of a terminal, and
no repetition is repeated. -/
def WellFormed : Symbol → Prop
  | terminal _ => True
  | nonterminal name => isIdentifier name = true ∧ name ≠ "SCALAR" ∧ name ≠ "KEY"
  | repeated inner => inner.isRepeated = false ∧ inner.WellFormed

instance decidableWellFormed : DecidablePred WellFormed
  | terminal _ => .isTrue trivial
  | nonterminal name =>
    inferInstanceAs (Decidable (isIdentifier name = true ∧ name ≠ "SCALAR" ∧ name ≠ "KEY"))
  | repeated inner =>
    have := decidableWellFormed inner
    inferInstanceAs (Decidable (inner.isRepeated = false ∧ inner.WellFormed))

end Symbol

/-- A rule has an identifier and at least one alternative, and each of these
at least one symbol. -/
def Rule.WellFormed (r : Rule) : Prop :=
  isIdentifier r.lhs = true ∧ r.alternatives ≠ [] ∧
    ∀ symbols ∈ r.alternatives, symbols ≠ [] ∧ ∀ s ∈ symbols, s.WellFormed

instance : DecidablePred Rule.WellFormed := fun r =>
  inferInstanceAs (Decidable (isIdentifier r.lhs = true ∧ r.alternatives ≠ [] ∧
    ∀ symbols ∈ r.alternatives, symbols ≠ [] ∧ ∀ s ∈ symbols, s.WellFormed))

/-- A grammar whose name, start symbol and rules can be written and read
back. -/
def Grammar.WellFormed (g : Grammar) : Prop :=
  isIdentifier g.name = true ∧ isIdentifier g.start = true ∧ ∀ r ∈ g.rules, r.WellFormed

instance : DecidablePred Grammar.WellFormed := fun g =>
  inferInstanceAs (Decidable
    (isIdentifier g.name = true ∧ isIdentifier g.start = true ∧ ∀ r ∈ g.rules, r.WellFormed))

/-- The names among the tokens are identifiers. -/
def Identifies (ts : List Token) : Prop :=
  ∀ name, Token.identifier name ∈ ts → isIdentifier name = true

theorem identifies_append {ts us : List Token} :
    Identifies (ts ++ us) ↔ Identifies ts ∧ Identifies us := by
  constructor
  · intro h
    exact ⟨fun name hmem => h name (List.mem_append_left _ hmem),
      fun name hmem => h name (List.mem_append_right _ hmem)⟩
  · intro h name hmem
    rcases List.mem_append.mp hmem with hmem | hmem
    · exact h.1 name hmem
    · exact h.2 name hmem

theorem identifies_nil : Identifies [] := fun _ hmem => absurd hmem List.not_mem_nil

theorem identifies_identifier {name : String} {ts : List Token} :
    Identifies (.identifier name :: ts) ↔ isIdentifier name = true ∧ Identifies ts := by
  simp only [Identifies, List.mem_cons, Token.identifier.injEq, forall_eq_or_imp]

theorem identifies_mark {t : Token} (h : ∀ name, t ≠ .identifier name) {ts : List Token} :
    Identifies (t :: ts) ↔ Identifies ts := by
  have hname : ∀ name, Token.identifier name ∈ t :: ts ↔ Token.identifier name ∈ ts := by
    intro name
    rw [List.mem_cons, or_iff_right (fun heq => h name heq.symm)]
  simp only [Identifies, hname]

theorem identifies_flatMap {α : Type} {words : α → List Token} {parts : List α} :
    Identifies (parts.flatMap words) ↔ ∀ a ∈ parts, Identifies (words a) := by
  constructor
  · intro h a ha name hmem
    exact h name (List.mem_flatMap.mpr ⟨a, ha, hmem⟩)
  · intro h name hmem
    obtain ⟨a, ha, hmem⟩ := List.mem_flatMap.mp hmem
    exact h a ha name hmem

theorem identifies_terminal (t : Terminal) : Identifies t.words := by
  intro name hmem
  cases t with
  | scalar => rw [Token.identifier.inj (List.mem_singleton.mp hmem)]; decide
  | key key =>
    cases key with
    | none => rw [Token.identifier.inj (List.mem_singleton.mp hmem)]; decide
    | some key =>
      simp only [Terminal.words, List.mem_cons, Token.identifier.injEq, reduceCtorEq,
        List.not_mem_nil, or_false] at hmem
      rw [hmem]
      decide
  | literal value => simp [Terminal.words] at hmem
  | openSequence => simp [Terminal.words] at hmem
  | closeSequence => simp [Terminal.words] at hmem
  | openMapping => simp [Terminal.words] at hmem
  | closeMapping => simp [Terminal.words] at hmem

/-- A well-formed symbol is one that can be read and names identifiers only. -/
theorem Symbol.wellFormed_iff {s : Symbol} : s.WellFormed ↔ s.IsItem ∧ Identifies s.words := by
  induction s with
  | terminal t =>
    constructor
    · intro _
      exact ⟨trivial, identifies_terminal t⟩
    · intro _
      exact trivial
  | nonterminal name =>
    rw [show (Symbol.nonterminal name).words = [.identifier name] from rfl, identifies_identifier,
      and_iff_left identifies_nil]
    exact and_comm
  | repeated inner ih =>
    have hstar : Identifies [Token.star] := (identifies_mark (by simp)).mpr identifies_nil
    rw [show (Symbol.repeated inner).words = inner.words ++ [.star] from rfl, identifies_append,
      and_iff_left hstar, show (Symbol.repeated inner).WellFormed
        ↔ inner.isRepeated = false ∧ inner.WellFormed from Iff.rfl, ih, ← and_assoc]
    apply and_congr_left
    intro _
    cases inner with
    | terminal t => simp [isRepeated, IsItem]
    | nonterminal name => simp [isRepeated, IsItem]
    | repeated s => simp [isRepeated, IsItem, IsPrimary]

theorem identifies_alternativeWords {symbols : List Symbol} :
    Identifies (alternativeWords symbols) ↔ ∀ s ∈ symbols, Identifies s.words :=
  identifies_flatMap

theorem Rule.wellFormed_iff {r : Rule} : r.WellFormed ↔ r.IsReadable ∧ Identifies r.words := by
  obtain ⟨lhs, alternatives⟩ := r
  cases alternatives with
  | nil =>
    constructor
    · intro h
      exact absurd rfl h.2.1
    · intro h
      exact absurd rfl h.1.1
  | cons first others =>
    have hsemicolon : Identifies [Token.semicolon] :=
      (identifies_mark (by simp)).mpr identifies_nil
    have hwords : Identifies (Rule.words ⟨lhs, first :: others⟩) ↔
        isIdentifier lhs = true ∧ ∀ symbols ∈ first :: others, ∀ s ∈ symbols,
          Identifies s.words := by
      rw [Rule.words, identifies_identifier, identifies_mark (by simp), identifies_append,
        and_iff_left hsemicolon, identifies_append, othersWords, identifies_flatMap,
        List.forall_mem_cons, identifies_alternativeWords]
      simp only [identifies_mark (t := Token.bar) (by simp), identifies_alternativeWords]
    rw [hwords]
    simp only [Rule.WellFormed, Rule.IsReadable, IsAlternative, Symbol.wellFormed_iff]
    constructor
    · intro h
      refine ⟨⟨h.2.1, fun symbols hs => ?_⟩, h.1, fun symbols hs s hmem => ?_⟩
      · exact ⟨(h.2.2 symbols hs).1, fun s hmem => ((h.2.2 symbols hs).2 s hmem).1⟩
      · exact ((h.2.2 symbols hs).2 s hmem).2
    · intro h
      refine ⟨h.2.1, h.1.1, fun symbols hs => ⟨(h.1.2 symbols hs).1, fun s hmem => ?_⟩⟩
      exact ⟨(h.1.2 symbols hs).2 s hmem, h.2.2 symbols hs s hmem⟩

/-! ## Writing -/

theorem boundary_blank {c : Char} (hc : c = ' ' ∨ c = '\n') (text : List Char) :
    Boundary (c :: text) := by
  rcases hc with rfl | rfl
  · exact Grammar.boundary_cons (by decide) (by decide)
  · exact Grammar.boundary_cons (by decide) (by decide)

theorem spells_terminal (t : Terminal) : Spells t.chars t.words := by
  cases t with
  | scalar => exact Spells.token (t := .identifier "SCALAR") (by decide)
  | literal value => exact Spells.token (t := .string value) trivial
  | key name =>
    cases name with
    | none => exact Spells.token (t := .identifier "KEY") (by decide)
    | some name =>
      have hclose : Spells [')'] [.closeParen] := Spells.token (t := .closeParen) trivial
      have hname := Spells.cons (t := .string name) trivial hclose
        (Grammar.boundary_cons (by decide) (by decide))
      have hopen := Spells.cons (t := .openParen) trivial hname
        (Grammar.boundary_cons (by decide) (by decide))
      have hkey := Spells.cons (t := .identifier "KEY") (by decide) hopen
        (Grammar.boundary_cons (by decide) (by decide))
      exact hkey
  | openSequence => exact Spells.token (t := .bracket .openSequence) trivial
  | closeSequence => exact Spells.token (t := .bracket .closeSequence) trivial
  | openMapping => exact Spells.token (t := .bracket .openMapping) trivial
  | closeMapping => exact Spells.token (t := .bracket .closeMapping) trivial

theorem spells_symbol {s : Symbol} (h : Identifies s.words) : Spells s.chars s.words := by
  induction s with
  | terminal t => exact spells_terminal t
  | nonterminal name =>
    exact Spells.token (t := .identifier name) (h name List.mem_cons_self)
  | repeated inner ih =>
    have hstar : Spells ['*'] [.star] := Spells.token (t := .star) trivial
    exact (ih (identifies_append.mp h).1).append hstar
      (Grammar.boundary_cons (by decide) (by decide))

theorem spells_alternative {symbols : List Symbol} (h : ∀ s ∈ symbols, Identifies s.words) :
    Spells (alternativeChars symbols) (alternativeWords symbols) ∧
      Boundary (alternativeChars symbols) := by
  have hsymbols : ∀ s ∈ symbols, Spells (' ' :: s.chars) s.words ∧ Boundary (' ' :: s.chars) :=
    fun s hs => ⟨.blank (by decide) (spells_symbol (h s hs)), boundary_blank (Or.inl rfl) _⟩
  obtain ⟨hspells, hbound⟩ := Spells.flatMap hsymbols
  have hend : Spells ['\n'] [] := .blank (by decide) .nil
  have hfeed : Boundary ['\n'] := boundary_blank (Or.inr rfl) []
  refine ⟨?_, Grammar.boundary_append hbound hfeed⟩
  have happend := hspells.append hend hfeed
  rwa [List.append_nil] at happend

/-- Four blanks before a text change nothing. -/
theorem spells_indented {text : List Char} {ts : List Token} (h : Spells text ts) :
    Spells ("    ".toList ++ text) ts :=
  .blank (by decide) (.blank (by decide) (.blank (by decide) (.blank (by decide) h)))

theorem spells_others {others : List (List Symbol)}
    (h : ∀ symbols ∈ others, ∀ s ∈ symbols, Identifies s.words) :
    Spells (others.flatMap fun symbols => "    |".toList ++ alternativeChars symbols)
        (othersWords others) ∧
      Boundary (others.flatMap fun symbols => "    |".toList ++ alternativeChars symbols) := by
  refine Spells.flatMap (fun symbols hs => ⟨?_, boundary_blank (Or.inl rfl) _⟩)
  obtain ⟨hspells, hbound⟩ := spells_alternative (h symbols hs)
  exact spells_indented (Spells.cons (t := .bar) trivial hspells hbound)

theorem alternativesChars_cons (first : List Symbol) (others : List (List Symbol)) :
    alternativesChars (first :: others)
      = "    :".toList ++ alternativeChars first
        ++ others.flatMap fun symbols => "    |".toList ++ alternativeChars symbols := rfl

theorem spells_rule {r : Rule} (h : r.WellFormed) :
    Spells r.chars r.words ∧ Boundary r.chars := by
  refine ⟨?_, boundary_blank (Or.inr rfl) _⟩
  obtain ⟨lhs, alternatives⟩ := r
  cases alternatives with
  | nil => exact absurd rfl h.2.1
  | cons first others =>
    obtain ⟨hlhs, _, hall⟩ := h
    have hidentifies : ∀ symbols ∈ first :: others, ∀ s ∈ symbols, Identifies s.words :=
      fun symbols hs s hmem => (Symbol.wellFormed_iff.mp ((hall symbols hs).2 s hmem)).2
    obtain ⟨hfirst, hboundFirst⟩ := spells_alternative (hidentifies first List.mem_cons_self)
    obtain ⟨hothers, hboundOthers⟩ :=
      spells_others (fun symbols hs => hidentifies symbols (List.mem_cons_of_mem first hs))
    have hend : Spells "    ;\n".toList [.semicolon] :=
      spells_indented (Spells.cons (t := .semicolon) trivial (.blank (by decide) .nil)
        (boundary_blank (Or.inr rfl) []))
    have hboundEnd : Boundary "    ;\n".toList := boundary_blank (Or.inl rfl) _
    have hbody := (hfirst.append hothers hboundOthers).append hend hboundEnd
    have hcolon := spells_indented (Spells.cons (t := .colon) trivial hbody
      (Grammar.boundary_append (Grammar.boundary_append hboundFirst hboundOthers) hboundEnd))
    have hname := Spells.cons (t := .identifier lhs) hlhs (.blank (c := '\n') (by decide) hcolon)
      (boundary_blank (Or.inr rfl) _)
    have hrule := Spells.blank (c := '\n') (by decide) hname
    have hchars : Rule.chars ⟨lhs, first :: others⟩
        = '\n' :: ((Token.identifier lhs).chars ++ '\n' :: ("    ".toList ++ (Token.colon.chars ++
          (alternativeChars first
            ++ (others.flatMap fun symbols => "    |".toList ++ alternativeChars symbols)
            ++ "    ;\n".toList)))) := by
      simp only [Rule.chars, alternativesChars_cons, List.append_assoc, List.cons_append]
      rfl
    rw [hchars]
    exact hrule

/-! ## Reading back -/

namespace Grammar

theorem spells_banner {text : List Char} {ts : List Token} (h : Spells text ts) :
    Spells (banner.toList ++ text) ts := by
  intro line rest hrest
  obtain ⟨scanned, next, hts, hscan⟩ := h line rest hrest
  refine ⟨scanned, next, hts, ?_⟩
  have hskip : skipComment (" Generated by hashgram. Do not edit. */".toList ++ (text ++ rest))
      = some (0, text ++ rest) := rfl
  have hcomment := scan_comment hskip line
  rw [show line + UInt32.ofNat 0 = line from UInt32.add_zero line] at hcomment
  rw [← hscan, List.append_assoc]
  exact hcomment

/-- What stands before the rules, up to the separator. -/
theorem spells_header {g : Grammar} (hname : isIdentifier g.name = true)
    (hstart : isIdentifier g.start = true) :
    Spells g.headerChars
      ([Directive.name g.name, Directive.start g.start].flatMap Directive.words
        ++ [.separator]) := by
  have hfeed : ∀ text, Boundary ('\n' :: text) := boundary_blank (Or.inr rfl)
  have hspace : ∀ text, Boundary (' ' :: text) := boundary_blank (Or.inl rfl)
  have hseparator : Spells "\n\n%%\n".toList [.separator] :=
    .blank (by decide) (.blank (by decide)
      (Spells.cons (t := .separator) trivial (.blank (by decide) .nil) (hfeed [])))
  have hstarts := Spells.cons (t := .identifier g.start) hstart hseparator (hfeed _)
  have hstartDirective := Spells.blank (c := '\n') (by decide)
    (Spells.cons (t := .directive "start") (by decide) (.blank (c := ' ') (by decide) hstarts)
      (hspace _))
  have hnames := Spells.cons (t := .identifier g.name) hname hstartDirective (hfeed _)
  have hnameDirective := Spells.blank (c := '\n') (by decide)
    (Spells.cons (t := .directive "grammar") (by decide) (.blank (c := ' ') (by decide) hnames)
      (hspace _))
  have hchars : g.headerChars = banner.toList ++ '\n' ::
      ((Token.directive "grammar").chars ++ ' ' :: ((Token.identifier g.name).chars ++ '\n' ::
        ((Token.directive "start").chars ++ ' ' ::
          ((Token.identifier g.start).chars ++ "\n\n%%\n".toList)))) := by
    simp only [headerChars, List.append_assoc]
    rfl
  rw [hchars]
  exact spells_banner hnameDirective

theorem spells_text {g : Grammar} (h : g.WellFormed) : Spells g.chars g.words := by
  obtain ⟨hname, hstart, hrules⟩ := h
  obtain ⟨hspells, hbound⟩ := Spells.flatMap (fun r hr => spells_rule (hrules r hr))
  have happend := (spells_header hname hstart).append hspells hbound
  rwa [List.append_assoc, List.singleton_append] at happend

/-- A well-formed grammar is read back from its text. -/
theorem read_text {g : Grammar} (h : g.WellFormed) : read g.text = .ok g := by
  obtain ⟨scanned, next, hwords, hscan⟩ := spells_text h 1 [] (fun c hc => by cases hc)
  rw [List.append_nil] at hscan
  have hstream : tokens g.text = .ok { tokens := scanned, endLine := next } := by
    rw [tokens, text, String.toList_ofList, hscan, scan]
    simp [Except.map, TokenStream.prepend]
  rw [read, hstream, ok_bind]
  exact Reader.ofTokens_of_wordsOf (fun r hr => (Rule.wellFormed_iff.mp (h.2.2 r hr)).1) hwords

theorem mem_of_givenBy {ds : List Directive} {names : Reader.Names} {value : String} :
    ((ds.foldl Reader.Names.give names).name = some value →
        names.name = some value ∨ .name value ∈ ds) ∧
      ((ds.foldl Reader.Names.give names).start = some value →
        names.start = some value ∨ .start value ∈ ds) := by
  induction ds generalizing names with
  | nil => exact ⟨Or.inl, Or.inl⟩
  | cons d others ih =>
    constructor
    · intro h
      rcases ih.1 h with hgiven | hmem
      · cases d with
        | name v =>
          cases hgiven
          exact Or.inr List.mem_cons_self
        | start v => exact Or.inl hgiven
      · exact Or.inr (List.mem_cons_of_mem d hmem)
    · intro h
      rcases ih.2 h with hgiven | hmem
      · cases d with
        | name v => exact Or.inl hgiven
        | start v =>
          cases hgiven
          exact Or.inr List.mem_cons_self
      · exact Or.inr (List.mem_cons_of_mem d hmem)

/-- Whatever is read is well-formed, except that the name may be missing. -/
theorem wellFormed_of_read {text : String} {g : Grammar} (h : read text = .ok g)
    (hname : g.name ≠ "") : g.WellFormed := by
  obtain ⟨stream, hstream, h⟩ := bind_eq_ok_iff.mp h
  obtain ⟨ds, hstarts, hnames, hreadable, hwords⟩ := Reader.wordsOf_of_ofTokens h
  have hidentifies : Identifies (Reader.wordsOf stream.tokens) :=
    fun name hmem => isIdentifier_of_scan hstream hmem
  rw [hwords, identifies_append, identifies_mark (by simp), identifies_flatMap,
    identifies_flatMap] at hidentifies
  obtain ⟨hdirectives, hrules⟩ := hidentifies
  refine ⟨?_, ?_, fun r hr => Rule.wellFormed_iff.mpr ⟨hreadable r hr, hrules r hr⟩⟩
  · cases hgiven : (Reader.givenBy ds).name with
    | none =>
      rw [hgiven] at hnames
      exact absurd hnames.symm hname
    | some value =>
      rw [hgiven, Option.getD_some] at hnames
      rcases mem_of_givenBy.1 hgiven with hnone | hmem
      · cases hnone
      · exact hnames ▸ hdirectives _ hmem value (by simp [Directive.words])
  · rcases mem_of_givenBy.2 hstarts with hnone | hmem
    · cases hnone
    · exact hdirectives _ hmem g.start (by simp [Directive.words])

/-- The text of a grammar without a name cannot be read: the name is missing
where the directive calls for it. -/
theorem name_ne_empty_of_read_text {g g' : Grammar} (h : read g.text = .ok g') : g.name ≠ "" := by
  intro hempty
  obtain ⟨stream, hstream, h⟩ := bind_eq_ok_iff.mp h
  obtain ⟨ds, _, _, _, hwords⟩ := Reader.wordsOf_of_ofTokens h
  have hstart : Spells (Token.directive "start").chars [.directive "start"] :=
    Spells.token (by decide)
  have hdirectives := spells_banner (.blank (c := '\n') (by decide)
    (Spells.cons (t := .directive "grammar") (by decide)
      (.blank (c := ' ') (by decide) (.blank (c := '\n') (by decide) hstart))
      (boundary_blank (Or.inl rfl) _)))
  have hchars : g.chars = (banner.toList ++ '\n' :: ((Token.directive "grammar").chars ++ ' ' ::
      '\n' :: (Token.directive "start").chars)) ++ ' ' ::
        (g.start.toList ++ ("\n\n%%\n".toList ++ g.rules.flatMap Rule.chars)) := by
    simp only [chars, headerChars, hempty, List.append_assoc]
    rfl
  obtain ⟨scanned, next, hscanned, hscan⟩ := hdirectives 1
    (' ' :: (g.start.toList ++ ("\n\n%%\n".toList ++ g.rules.flatMap Rule.chars)))
    (boundary_blank (Or.inl rfl) _)
  rw [tokens, text, String.toList_ofList, hchars, hscan] at hstream
  obtain ⟨later, _, rfl⟩ := map_eq_ok_iff.mp hstream
  rw [TokenStream.prepend, Reader.wordsOf, List.map_append, hscanned] at hwords
  -- The token after the first directive is a second one and no identifier.
  cases ds with
  | nil => cases hwords
  | cons d others => cases d <;> simp [Directive.words] at hwords

/-! ## The name of a text -/

theorem linesFrom_append {line : List Char} (h : '\n' ∉ line) (current rest : List Char) :
    Text.linesFrom current (line ++ '\n' :: rest)
      = Text.closeLine (line.reverse ++ current) :: Text.linesFrom [] rest := by
  induction line generalizing current with
  | nil => rw [List.nil_append, Text.linesFrom, if_pos rfl, List.reverse_nil, List.nil_append]
  | cons c line ih =>
    rw [List.mem_cons, not_or] at h
    obtain ⟨hc, hline⟩ := h
    rw [List.cons_append, Text.linesFrom, if_neg (fun heq => hc heq.symm), ih hline,
      List.reverse_cons, List.append_assoc, List.singleton_append]

theorem closeLine_reverse {last : Char} (h : Text.isBlank last = false) (body : List Char) :
    Text.closeLine (body ++ [last]).reverse = body ++ [last] := by
  have hreturn : last ≠ '\r' := by
    intro heq
    rw [heq] at h
    exact absurd h (by decide)
  rw [List.reverse_append]
  show Text.closeLine (last :: body.reverse) = _
  rw [Text.closeLine, List.reverse_cons, List.reverse_reverse]
  intro rest heq
  exact hreturn (List.cons.inj heq).1

theorem trimEnd_append {last : Char} (h : Text.isBlank last = false) (body : List Char) :
    Text.trimEnd (body ++ [last]) = body ++ [last] := by
  rw [Text.trimEnd, List.reverse_append]
  show (List.dropWhile Text.isBlank (last :: body.reverse)).reverse = _
  rw [List.dropWhile_cons_of_neg (by rw [h]; exact Bool.false_ne_true), List.reverse_cons,
    List.reverse_reverse]

theorem isIdentifierChar_of_isIdentifier {name : String} (h : isIdentifier name = true) :
    name.toList ≠ [] ∧ ∀ c ∈ name.toList, Token.isIdentifierChar c = true := by
  unfold isIdentifier at h
  split at h
  · cases h
  · next c more hlist =>
    obtain ⟨hc, hmore⟩ := Bool.and_eq_true_iff.mp h
    rw [hlist]
    refine ⟨List.cons_ne_nil _ _, List.forall_mem_cons.mpr ⟨?_, List.all_eq_true.mp hmore⟩⟩
    exact Token.isIdentifierChar_of_isIdentifierStart hc

/-- The name of a grammar is found in its text. -/
theorem nameIn_text {g : Grammar} (h : isIdentifier g.name = true) :
    nameIn g.text = some g.name := by
  obtain ⟨hne, hchars⟩ := isIdentifierChar_of_isIdentifier h
  have hblank : ∀ c ∈ g.name.toList, Text.isBlank c = false :=
    fun c hc => Token.isBlank_of_isIdentifierChar (hchars c hc)
  obtain ⟨body, last, hname⟩ : ∃ body last, g.name.toList = body ++ [last] :=
    ⟨_, _, (List.dropLast_append_getLast hne).symm⟩
  have hlast : Text.isBlank last = false := hblank last (by rw [hname]; simp)
  have hfeed : '\n' ∉ "%grammar ".toList ++ g.name.toList := by
    intro hmem
    rcases List.mem_append.mp hmem with hmem | hmem
    · exact absurd hmem (by decide)
    · exact absurd (hblank '\n' hmem) (by decide)
  have htext : g.text.toList = banner.toList ++ '\n' :: (("%grammar ".toList ++ g.name.toList)
      ++ '\n' :: ("%start ".toList ++ (g.start.toList ++ ("\n\n%%\n".toList
        ++ g.rules.flatMap Rule.chars)))) := by
    rw [text, String.toList_ofList]
    simp only [chars, headerChars, List.append_assoc]
    rfl
  -- The first line with the directive in it is the second one.
  have hbanner : Text.afterPhrase "%grammar".toList
      (Text.trim (Text.closeLine (banner.toList.reverse ++ []))) = none := by decide
  have hline : Text.afterPhrase "%grammar".toList
      (Text.trim (Text.closeLine (("%grammar ".toList ++ g.name.toList).reverse ++ [])))
        = some (' ' :: g.name.toList) := by
    rw [List.append_nil, hname, ← List.append_assoc, closeLine_reverse hlast]
    show Text.afterPhrase _ (Text.trimEnd (("%grammar ".toList ++ body) ++ [last])) = _
    rw [trimEnd_append hlast, List.append_assoc]
    rfl
  have htrim : Text.trim (' ' :: g.name.toList) = g.name.toList := by
    have hstart : Text.trimStart (' ' :: g.name.toList) = g.name.toList := by
      cases hlist : g.name.toList with
      | nil => exact absurd hlist hne
      | cons c more =>
        have hc := hblank c (by rw [hlist]; exact List.mem_cons_self)
        rw [Text.trimStart, List.dropWhile_cons_of_pos (by decide),
          List.dropWhile_cons_of_neg (by rw [hc]; exact Bool.false_ne_true)]
    rw [Text.trim, hstart, hname, trimEnd_append hlast]
  unfold nameIn
  rw [htext, Text.lines, linesFrom_append (by decide), linesFrom_append hfeed,
    List.findSome?_cons, hbanner, List.findSome?_cons, hline]
  dsimp only
  rw [htrim, if_neg (by simpa using hne), String.ofList_toList]

end Grammar

/-! ## What schemas compile to -/

namespace Schema

theorem isIdentifierChar_of_isNameChar {c : Char} (h : isNameChar c = true) :
    Token.isIdentifierChar c = true := by
  simp only [isNameChar, Token.isIdentifierChar, Token.isLetter, Bool.or_eq_true] at h ⊢
  rcases h with (((h | h) | h) | h) | h
  · exact Or.inl (Or.inl (Or.inl (Or.inl (Or.inl h))))
  · exact Or.inl (Or.inl (Or.inl (Or.inl (Or.inr h))))
  · exact Or.inl (Or.inl (Or.inl (Or.inr h)))
  · exact Or.inl (Or.inl (Or.inr h))
  · exact Or.inr h

/-- The name of a nonterminal is an identifier, and not the name of a
terminal. -/
theorem isIdentifier_nonterminal {e : Entity} {u : String} (he : IsName e.name)
    (hu : IsEnding u) :
    isIdentifier (e.nonterminal ++ u) = true ∧ e.nonterminal ++ u ≠ "SCALAR" ∧
      e.nonterminal ++ u ≠ "KEY" := by
  have hname : ∀ c ∈ e.name.toList, Token.isIdentifierChar c = true :=
    fun c hc => isIdentifierChar_of_isNameChar (he.2 c hc)
  have hending : ∀ c ∈ u.toList, Token.isIdentifierChar c = true := by
    rw [← List.all_eq_true]
    rcases hu with rfl | rfl | rfl <;> decide
  have hlist : (e.nonterminal ++ u).toList
      = e.kind.text.toList ++ ('.' :: (e.name.toList ++ u.toList)) := by
    simp [Entity.nonterminal, String.toList_append]
  -- The names of the terminals hold no dot.
  have hdot : '.' ∈ (e.nonterminal ++ u).toList := by
    rw [hlist]
    simp
  refine ⟨?_, ?_, ?_⟩
  · have htail : (e.name.toList ++ u.toList).all Token.isIdentifierChar = true := by
      rw [List.all_append, List.all_eq_true.mpr hname, List.all_eq_true.mpr hending]
      rfl
    unfold isIdentifier
    rw [hlist]
    cases e.kind <;>
      simpa [Kind.text, Token.isIdentifierStart, Token.isIdentifierChar, Token.isLetter] using htail
  · intro heq
    rw [heq] at hdot
    exact absurd hdot (by decide)
  · intro heq
    rw [heq] at hdot
    exact absurd hdot (by decide)

/-- Nothing is empty in the rules of a proper pattern, and nothing in them is
repeated twice over. -/
theorem shape_of_mem_patternRules {ι : Type} {label : ι → String} {lhs : String} {p : Pattern ι}
    (hp : p.Proper) {r : Rule} (hr : r ∈ patternRules label lhs p) :
    r.alternatives ≠ [] ∧ ∀ symbols ∈ r.alternatives, symbols ≠ [] ∧
      ∀ s ∈ symbols, ∀ inner, s = .repeated inner → inner.isRepeated = false := by
  have hcontainer : ∀ opening element closing, element.isRepeated = false →
      (containerRule lhs opening element closing).alternatives ≠ [] ∧
        ∀ symbols ∈ (containerRule lhs opening element closing).alternatives, symbols ≠ [] ∧
          ∀ s ∈ symbols, ∀ inner, s = .repeated inner → inner.isRepeated = false := by
    intro opening element closing helement
    simp [containerRule, helement]
  cases p with
  | anyScalar =>
    rw [List.mem_singleton.mp hr]
    simp
  | oneOf values =>
    rw [List.mem_singleton.mp hr]
    simp [hp.1]
  | array members =>
    rcases List.mem_cons.mp hr with rfl | hr
    · apply hcontainer
      cases members <;> rfl
    · split at hr
      · cases hr
      · next hne =>
        rw [List.mem_singleton.mp hr]
        simp at hne
        simp [hne]
  | mapping members =>
    rcases List.mem_cons.mp hr with rfl | hr
    · apply hcontainer
      rfl
    · rw [List.mem_singleton.mp hr]
      cases members with
      | nil => simp [entryAlternatives]
      | cons m rest =>
        refine ⟨List.cons_ne_nil _ _, fun symbols hs => ?_⟩
        obtain ⟨k, _, rfl⟩ := List.mem_map.mp hs
        simp

theorem wellFormed_symbol {s : Symbol}
    (hrepeated : ∀ inner, s = .repeated inner → inner.isRepeated = false)
    (hnames : ∀ name, Validation.nonterminalOf? s = some name →
      isIdentifier name = true ∧ name ≠ "SCALAR" ∧ name ≠ "KEY") : s.WellFormed := by
  cases s with
  | terminal t => trivial
  | nonterminal name => exact hnames name rfl
  | repeated inner =>
    refine ⟨hrepeated inner rfl, ?_⟩
    cases inner with
    | terminal t => trivial
    | nonterminal name => exact hnames name rfl
    | repeated s => exact absurd (hrepeated _ rfl) (by simp [Symbol.isRepeated])

/-- The grammar of a resolved schema is well-formed under an identifier. -/
theorem Resolved.wellFormed_grammar {s : Resolved} {es : List Entity} {root : Option String}
    (h : s.Closes es root) (hproper : ∀ e ∈ s.table.entities, e.Proper) {name : String}
    (hname : isIdentifier name = true) : (s.grammar name).WellFormed := by
  have hdesc := describes_grammar h hproper name
  have hlhs : ∀ lhs ∈ (s.grammar name).rules.map Rule.lhs,
      isIdentifier lhs = true ∧ lhs ≠ "SCALAR" ∧ lhs ≠ "KEY" := by
    intro lhs hmem
    obtain ⟨r, hr, rfl⟩ := List.mem_map.mp hmem
    obtain ⟨id, ⟨e, he⟩, hrid⟩ := (hdesc.rules r).mp hr
    obtain ⟨u, hu, hending⟩ := ending_of_mem_patternRules hrid
    rw [hending, nonterminalAt_eq he]
    exact isIdentifier_nonterminal (hproper e (List.mem_of_getElem? he)).1 hu
  refine ⟨hname, (hlhs _ (hdesc.exists_rule h.present_root)).1, fun r hr => ?_⟩
  obtain ⟨id, hid, hrid⟩ := (hdesc.rules r).mp hr
  obtain ⟨hne, hshape⟩ := shape_of_mem_patternRules (hdesc.proper id hid) hrid
  refine ⟨(hlhs _ (List.mem_map_of_mem hr)).1, hne, fun symbols hs => ⟨(hshape symbols hs).1, ?_⟩⟩
  intro x hx
  refine wellFormed_symbol ((hshape symbols hs).2 x hx) (fun used hused => hlhs used ?_)
  exact hdesc.exists_rule_of_reference hr (List.mem_flatten.mpr ⟨symbols, hs, hx⟩) hused

/-- What compilation gives is the grammar of the schema that was resolved. -/
theorem compileGrammar_eq_ok_iff {file source : String} {options : Options} {g : Grammar} :
    compileGrammar file source options = .ok g ↔
      ∃ s, resolveSource file source options.root = .ok s ∧ g = s.grammar options.name := by
  unfold compileGrammar
  rw [bind_eq_ok_iff]
  constructor
  · intro h
    obtain ⟨s, hs, h⟩ := h
    cases h
    exact ⟨s, hs, rfl⟩
  · intro h
    obtain ⟨s, hs, rfl⟩ := h
    exact ⟨s, hs, rfl⟩

end Schema

namespace Grammar

/-- Grammars are read back from their texts just if they are well-formed;
then the text also tells their name. Compiled grammars are, under a name that
is an identifier. -/
theorem read_text_iff (g : Grammar) :
    (read g.text = .ok g ↔ g.WellFormed) ∧
      (g.WellFormed → nameIn g.text = some g.name) ∧
      ∀ (file source : String) (options : Schema.Options), isIdentifier options.name = true →
        Schema.compileGrammar file source options = .ok g → g.WellFormed := by
  refine ⟨⟨?_, read_text⟩, fun h => nameIn_text h.1, ?_⟩
  · intro h
    exact wellFormed_of_read h (name_ne_empty_of_read_text h)
  · intro file source options hname hcompile
    obtain ⟨s, hs, rfl⟩ := Schema.compileGrammar_eq_ok_iff.mp hcompile
    obtain ⟨ds, es, _, _, hcloses, hproper⟩ := Schema.resolveSource_eq_ok hs
    exact Schema.Resolved.wellFormed_grammar hcloses hproper hname

/-- A grammar whose strings hold quotes, backslashes, line ends and the marks
of comments. -/
def quoting : Grammar where
  name := "G-1.x"
  start := "_a"
  rules :=
    [{ lhs := "_a"
       alternatives := [[.terminal (.literal "\"\\\n\t*/ /* %% λ"), .repeated (.nonterminal "b")],
         [.repeated (.terminal (.key (some "KEY(\")*"))), .terminal .closeMapping]] },
     { lhs := "b", alternatives := [[.terminal (.key none), .terminal .scalar]] }]

theorem quoting_read_back :
    quoting.WellFormed ∧ read quoting.text = .ok quoting ∧ nameIn quoting.text = some "G-1.x" ∧
      Schema.compileGrammar Schema.nestedFile Schema.nestedSource { name := "Tree" }
        = .ok (Schema.nested.grammar "Tree") ∧
      (Schema.nested.grammar "Tree").WellFormed := by
  have hquoting : quoting.WellFormed := by decide
  have hcompile : Schema.compileGrammar Schema.nestedFile Schema.nestedSource { name := "Tree" }
      = .ok (Schema.nested.grammar "Tree") :=
    Schema.compileGrammar_eq_ok_iff.mpr ⟨_, Schema.resolveSource_nested, rfl⟩
  refine ⟨hquoting, (read_text_iff quoting).1.mpr hquoting, (read_text_iff quoting).2.1 hquoting,
    hcompile, ?_⟩
  exact (read_text_iff _).2.2 Schema.nestedFile Schema.nestedSource { name := "Tree" } (by decide)
    hcompile

end Grammar

end TreeSchema
