import Mathlib.Control.Monad.Basic
import TreeSchema.Proofs.TokenPlaces
/-
  Lines of faults

  Where the reader stands in a grammar is one of finitely many stages, and
  each token leads from one stage to at most one other. A step of the reader
  either moves along the stages or fails at the first token that has no next
  stage (`Stage.Reads`, one lemma for each step). Every stage can be
  completed to a grammar, so that token is the first one that no grammar
  continues with (`unacceptable_of_stuck`).

  A fault found by looking ahead is reported on the line of that token. A
  fault found after the token was taken is reported on the line of the token
  behind it, which need not be the same line.
-/

namespace TreeSchema.Grammar

/-- Whether a fault is found while its token is still ahead of the reader. -/
def Fault.seenAhead : Fault → Bool
  | expectedMark .. | emptyAlternative => true
  | _ => false

/-! ## What can be continued -/

/-- The tokens of a text that is read as a grammar. -/
def Accepted (ws : List Token) : Prop :=
  ∃ stream g, Reader.wordsOf stream.tokens = ws ∧ Reader.ofTokens stream = .ok g

/-- Some grammar begins with these tokens. -/
def Viable (ws : List Token) : Prop := ∃ more, Accepted (ws ++ more)

/-- The first of the tokens ahead, or the end of the text, is the first that
cannot stand where it does. -/
def Unacceptable (before : List Token) : List Token → Prop
  | [] => Viable before ∧ ¬Accepted before
  | t :: _ => Viable before ∧ ¬Viable (before ++ [t])

namespace Reader

/-! ## Stages -/

/-- What was taken last in an alternative. -/
inductive Last where
  | nothing
  /-- A key that may still be named. -/
  | key
  /-- Any other symbol that may still be repeated. -/
  | symbol
  | star
  deriving DecidableEq, Repr

/-- Where the reader stands. -/
inductive Stage where
  /-- Among the directives; whether there was a start symbol. -/
  | header (started : Bool)
  /-- After the word of a directive. -/
  | naming (started : Bool)
  /-- Between two rules. -/
  | rules
  /-- After the left side of a rule. -/
  | lhs
  | alternative (last : Last)
  /-- After the opening parenthesis of a key. -/
  | keyOpened
  | keyNamed
  deriving DecidableEq, Repr

namespace Stage

/-- Where a token leads, if it can stand there. -/
def next : Stage → Token → Option Stage
  | header started, .directive d =>
    if d = "grammar" then some (naming started)
    else if d = "start" then some (naming true)
    else none
  | header true, .separator => some rules
  | naming started, .identifier _ => some (header started)
  | rules, .identifier _ => some lhs
  | lhs, .colon => some (alternative .nothing)
  | alternative _, .identifier name =>
    some (alternative (if name = "KEY" then .key else .symbol))
  | alternative _, .string _ | alternative _, .bracket _ => some (alternative .symbol)
  | alternative .key, .openParen => some keyOpened
  | alternative .key, .star | alternative .symbol, .star => some (alternative .star)
  | alternative last, .bar => if last = .nothing then none else some (alternative .nothing)
  | alternative last, .semicolon => if last = .nothing then none else some rules
  | keyOpened, .string _ => some keyNamed
  | keyNamed, .closeParen => some (alternative .symbol)
  | _, _ => none

/-- Where a run of tokens leads. -/
def after (q : Stage) (ws : List Token) : Option Stage := ws.foldlM next q

abbrev start : Stage := header false

variable {q q' : Stage} {t : Token} {taken : List LineToken}

theorem after_cons (q : Stage) (t : Token) (ws : List Token) :
    q.after (t :: ws) = (q.next t).bind fun q' => q'.after ws := by
  rw [after, List.foldlM_cons]
  rfl

theorem after_append (q : Stage) (ws more : List Token) :
    q.after (ws ++ more) = (q.after ws).bind fun q' => q'.after more := by
  rw [after, List.foldlM_append]
  rfl

theorem after_wordsOf_append (h : q.after (wordsOf taken) = some q') (left : List LineToken) :
    q.after (wordsOf (taken ++ left)) = q'.after (wordsOf left) := by
  rw [wordsOf, List.map_append, after_append]
  show (q.after (wordsOf taken)).bind (fun q' => q'.after (wordsOf left)) = _
  rw [h]
  rfl

/-- Tokens that make a grammar of what was taken so far. -/
def completion : Stage → List Token
  | header _ => [.directive "start", .identifier "a", .separator]
  | naming _ => [.identifier "a", .directive "start", .identifier "a", .separator]
  | rules => []
  | lhs => [.colon, .string "", .semicolon]
  | alternative _ => [.string "", .semicolon]
  | keyOpened => [.string "", .closeParen, .semicolon]
  | keyNamed => [.closeParen, .semicolon]

theorem after_completion (q : Stage) : q.after q.completion = some rules := by
  cases q <;> rfl

/-! ## Moving along the stages -/

/-- The tokens before `left` lead from one stage to another. -/
def Passes (q : Stage) (rest left : List LineToken) (q' : Stage) : Prop :=
  ∃ taken, rest = taken ++ left ∧ q.after (wordsOf taken) = some q'

/-- What is ahead, be it the end of the text, cannot stand at this stage. -/
def Stuck (q : Stage) : List LineToken → Prop
  | [] => q ≠ rules
  | t :: _ => q.next t.token = none

/-- A fault at the first token that cannot stand where it does, reported on
the line of that token or of the one behind it. -/
def Fails (q : Stage) (endLine : UInt32) (rest : List LineToken) (e : Error) : Prop :=
  ∃ left q' fault, q.Passes rest left q' ∧ q'.Stuck left ∧
    e = .malformed (lineOf endLine (if fault.seenAhead then left else left.tail)) fault

/-- A step of the reader moves along the stages, to one of which `P` holds,
or fails where they end. -/
def Reads {β : Type} (q : Stage) (endLine : UInt32) (rest : List LineToken)
    (left : β → List LineToken) (P : β → Stage → Prop) : Except Error β → Prop
  | .ok b => ∃ q', q.Passes rest (left b) q' ∧ P b q'
  | .error e => q.Fails endLine rest e

variable {rest mid left : List LineToken} {endLine : UInt32} {q'' : Stage} {β γ : Type}

theorem Passes.refl (q : Stage) (rest : List LineToken) : q.Passes rest rest q :=
  ⟨[], rfl, rfl⟩

theorem Passes.trans (h : q.Passes rest mid q') (h' : q'.Passes mid left q'') :
    q.Passes rest left q'' := by
  obtain ⟨taken, hrest, htaken⟩ := h
  obtain ⟨more, hmid, hmore⟩ := h'
  refine ⟨taken ++ more, by rw [hrest, hmid, List.append_assoc], ?_⟩
  rw [after_wordsOf_append htaken, hmore]

theorem Passes.token (hpeek : peek rest = some t) (hnext : q.next t = some q') :
    q.Passes rest rest.tail q' := by
  cases rest with
  | nil => cases hpeek
  | cons first more =>
    cases hpeek
    refine ⟨[first], rfl, ?_⟩
    rw [wordsOf, List.map_singleton, after_cons, hnext]
    rfl

theorem Passes.fails {e : Error} (h : q.Passes rest mid q') (he : q'.Fails endLine mid e) :
    q.Fails endLine rest e := by
  obtain ⟨left, stage, fault, hpasses, hstuck, herror⟩ := he
  exact ⟨left, stage, fault, h.trans hpasses, hstuck, herror⟩

/-- A stage is stuck if the token ahead leads nowhere from it. -/
theorem stuck_of_peek (hend : peek rest = none → q ≠ rules)
    (hnext : ∀ t, peek rest = some t → q.next t = none) : q.Stuck rest := by
  cases rest with
  | nil => exact hend rfl
  | cons first more => exact hnext first.token rfl

section
variable {leaves : β → List LineToken} {leaves' : γ → List LineToken}
  {P : β → Stage → Prop} {Q : γ → Stage → Prop}

theorem reads_fail (hstuck : q.Stuck rest) (fault : Fault) :
    q.Reads endLine rest leaves P
      (fail endLine (if fault.seenAhead then rest else rest.tail) fault) :=
  ⟨rest, q, fault, .refl q rest, hstuck, rfl⟩

theorem Passes.reads {x : Except Error β} (h : q.Passes rest mid q')
    (hx : q'.Reads endLine mid leaves P x) : q.Reads endLine rest leaves P x := by
  cases x with
  | error e => exact h.fails hx
  | ok b =>
    obtain ⟨stage, hpasses, hb⟩ := hx
    exact ⟨stage, h.trans hpasses, hb⟩

theorem Reads.passes {x : Except Error β} {b : β} (h : q.Reads endLine rest leaves P x)
    (hx : x = .ok b) : ∃ q', q.Passes rest (leaves b) q' ∧ P b q' := by
  rw [hx] at h
  exact h

theorem Reads.fails {x : Except Error β} {e : Error} (h : q.Reads endLine rest leaves P x)
    (hx : x = .error e) : q.Fails endLine rest e := by
  rw [hx] at h
  exact h

theorem Reads.imp {P' : β → Stage → Prop} {x : Except Error β}
    (h : q.Reads endLine rest leaves P x) (hP : ∀ b q', P b q' → P' b q') :
    q.Reads endLine rest leaves P' x := by
  cases x with
  | error e => exact h
  | ok b =>
    obtain ⟨q', hpasses, hb⟩ := h
    exact ⟨q', hpasses, hP b q' hb⟩

theorem Reads.bind {x : Except Error β} {f : β → Except Error γ}
    (hx : q.Reads endLine rest leaves P x)
    (hf : ∀ b q', P b q' → q'.Reads endLine (leaves b) leaves' Q (f b)) :
    q.Reads endLine rest leaves' Q (x >>= f) := by
  cases x with
  | error e => exact hx
  | ok b =>
    obtain ⟨q', hpasses, hb⟩ := hx
    exact hpasses.reads (hf b q' hb)

end

/-! ## Marks and names -/

theorem reads_expect {mark : Char} (hnext : q.next t = some q')
    (hend : peek rest = none → q ≠ rules)
    (hother : ∀ s, peek rest = some s → s ≠ t → q.next s = none) :
    q.Reads endLine rest id (fun _ stage => stage = q') (expect endLine t mark rest) := by
  rw [expect]
  split
  · next hpeek => exact ⟨q', .token hpeek hnext, rfl⟩
  · next hpeek =>
    refine reads_fail (stuck_of_peek hend ?_) (.expectedMark mark (peek rest))
    intro s hs
    exact hother s hs (fun h => hpeek (h ▸ hs))

theorem reads_takeIdentifier (hnext : ∀ name, q.next (.identifier name) = some q')
    (hend : peek rest = none → q ≠ rules)
    (hother : ∀ s, (∀ name, s ≠ .identifier name) → q.next s = none) :
    q.Reads endLine rest Prod.snd (fun _ stage => stage = q') (takeIdentifier endLine rest) := by
  rw [takeIdentifier]
  split
  · next name hpeek => exact ⟨q', .token hpeek (hnext name), rfl⟩
  · next found hpeek =>
    refine reads_fail (stuck_of_peek hend ?_) (.expectedIdentifier (peek rest))
    intro s hs
    exact hother s (fun name h => hpeek name (h ▸ hs))

/-! ## Symbols -/

theorem reads_takeKey (endLine : UInt32) (rest : List LineToken) :
    keyOpened.Reads endLine rest Prod.snd (fun _ stage => stage = alternative .symbol)
      (takeKey endLine rest) := by
  rw [takeKey]
  split
  · next name hpeek =>
    have hstring : keyOpened.Passes rest rest.tail keyNamed := .token hpeek rfl
    have hclose : keyNamed.Reads endLine rest.tail id (fun _ stage => stage = alternative .symbol)
        (expect endLine .closeParen ')' rest.tail) := by
      apply reads_expect rfl (by simp)
      intro s _ hs
      cases s with
      | closeParen => exact absurd rfl hs
      | _ => rfl
    apply hstring.reads
    apply hclose.bind
    intro left stage hstage
    exact ⟨stage, .refl stage left, hstage⟩
  · next found hpeek =>
    refine reads_fail (stuck_of_peek (by simp) ?_) (.expectedKeyString (peek rest))
    intro t ht
    cases t with
    | string name => exact absurd ht (hpeek name)
    | _ => rfl

/-- Nothing ahead belongs to the symbol taken last. -/
structure Settled (last : Last) (rest : List LineToken) : Prop where
  paren : last = .key → peek rest ≠ some .openParen
  star : last = .key ∨ last = .symbol → peek rest ≠ some .star

theorem settled_nothing (rest : List LineToken) : Settled .nothing rest :=
  ⟨by simp, by simp⟩

theorem settled_star (rest : List LineToken) : Settled .star rest :=
  ⟨by simp, by simp⟩

theorem reads_takePrimary (endLine : UInt32) {last : Last} (hlast : Settled last rest)
    (hgoes : endsAlternative (peek rest) = false) :
    (alternative last).Reads endLine rest Prod.snd
      (fun b stage => stage = alternative .symbol ∨
        stage = alternative .key ∧ peek b.2 ≠ some .openParen)
      (takePrimary endLine rest) := by
  rw [takePrimary]
  split
  · next name hpeek =>
    have hname : (alternative last).Passes rest rest.tail
        (alternative (if name = "KEY" then .key else .symbol)) := .token hpeek rfl
    split
    · next hscalar =>
      rw [hscalar] at hname
      exact ⟨_, hname, .inl rfl⟩
    · split
      · next hkey =>
        rw [if_pos hkey] at hname
        split
        · next hparen =>
          have hopened : (alternative .key).Passes rest.tail rest.tail.tail keyOpened :=
            .token hparen rfl
          apply (hname.trans hopened).reads
          apply (reads_takeKey endLine rest.tail.tail).imp
          intro b stage hstage
          exact .inl hstage
        · next hparen => exact ⟨_, hname, .inr ⟨rfl, hparen⟩⟩
      · next hkey =>
        rw [if_neg hkey] at hname
        exact ⟨_, hname, .inl rfl⟩
  · next value hpeek => exact ⟨_, .token hpeek rfl, .inl rfl⟩
  · next b hpeek => exact ⟨_, .token hpeek rfl, .inl rfl⟩
  · next found hname hstring hbracket =>
    refine reads_fail (stuck_of_peek (by simp) ?_) (.expectedSymbol (peek rest))
    intro t ht
    rw [ht] at hgoes
    -- A star or a parenthesis could only belong to the symbol before it.
    cases t with
    | identifier name => exact absurd ht (hname name)
    | string value => exact absurd ht (hstring value)
    | bracket b => exact absurd ht (hbracket b)
    | bar => cases hgoes
    | semicolon => cases hgoes
    | star =>
      cases last with
      | key => exact absurd ht (hlast.star (.inl rfl))
      | symbol => exact absurd ht (hlast.star (.inr rfl))
      | _ => rfl
    | openParen =>
      cases last with
      | key => exact absurd ht (hlast.paren rfl)
      | _ => rfl
    | _ => cases last <;> rfl

theorem reads_takeSymbol (endLine : UInt32) {last : Last} (hlast : Settled last rest)
    (hgoes : endsAlternative (peek rest) = false) :
    (alternative last).Reads endLine rest Prod.snd
      (fun b stage => ∃ last, stage = alternative last ∧ last ≠ .nothing ∧ Settled last b.2)
      (takeSymbol endLine rest) := by
  rw [takeSymbol]
  apply (reads_takePrimary endLine hlast hgoes).bind
  intro result stage hstage
  obtain ⟨symbol, left⟩ := result
  dsimp only
  split
  · next hstar =>
    have hnext : stage.next .star = some (alternative .star) := by
      obtain hstage | ⟨hstage, _⟩ := hstage
      · rw [hstage]
        rfl
      · rw [hstage]
        rfl
    exact ⟨alternative .star, .token hstar hnext, .star, rfl, by simp, settled_star left.tail⟩
  · next hstar =>
    refine ⟨stage, .refl stage left, ?_⟩
    obtain hstage | ⟨hstage, hparen⟩ := hstage
    · exact ⟨.symbol, hstage, by simp, ⟨by simp, fun _ => hstar⟩⟩
    · exact ⟨.key, hstage, by simp, ⟨fun _ => hparen, fun _ => hstar⟩⟩

/-! ## Alternatives and rules -/

theorem reads_takeSymbols (endLine : UInt32) {last : Last} (hlast : Settled last rest) :
    (alternative last).Reads endLine rest Prod.snd
      (fun b stage => endsAlternative (peek b.2) = true ∧
        ∃ last', stage = alternative last' ∧ (last' = .nothing ↔ b.1 = [] ∧ last = .nothing))
      (takeSymbols endLine rest) := by
  -- The recursion of the reader; what is carried along is that nothing ahead
  -- belongs to the symbol before.
  fun_induction takeSymbols endLine rest generalizing last with
  | case1 rest hends =>
    exact ⟨alternative last, .refl _ rest, hends, last, rfl, by simp⟩
  | case2 rest hgoes e htake =>
    exact (reads_takeSymbol endLine hlast (Bool.eq_false_iff.mpr hgoes)).fails htake
  | case3 rest hgoes symbol left htake ih =>
    obtain ⟨stage, hpasses, taken, hstage, htaken, hsettled⟩ :=
      (reads_takeSymbol endLine hlast (Bool.eq_false_iff.mpr hgoes)).passes htake
    rw [hstage] at hpasses
    apply hpasses.reads
    apply (ih hsettled).bind
    intro result stage' h
    obtain ⟨symbols, after⟩ := result
    obtain ⟨hends, last', hstage', hlast'⟩ := h
    exact ⟨stage', .refl stage' after, hends, last', hstage', by simp [hlast', htaken]⟩

/-- What an alternative leaves is a bar, the end of the rule or the end of the
text, after a symbol. -/
def Ended (left : List LineToken) (stage : Stage) : Prop :=
  endsAlternative (peek left) = true ∧ ∃ last, stage = alternative last ∧ last ≠ .nothing

theorem reads_takeAlternative (endLine : UInt32) (rest : List LineToken) :
    (alternative .nothing).Reads endLine rest Prod.snd (fun b stage => Ended b.2 stage)
      (takeAlternative endLine rest) := by
  rw [takeAlternative]
  apply (reads_takeSymbols endLine (settled_nothing rest)).bind
  intro result stage h
  obtain ⟨symbols, left⟩ := result
  obtain ⟨hends, last, hstage, hlast⟩ := h
  dsimp only
  split
  · next hempty =>
    refine reads_fail (stuck_of_peek ?_ ?_) .emptyAlternative
    · intro _
      rw [hstage]
      simp
    · intro t ht
      rw [hstage, hlast.mpr ⟨List.isEmpty_iff.mp hempty, rfl⟩]
      rw [ht] at hends
      cases t with
      | bar => rfl
      | semicolon => rfl
      | _ => cases hends
  · next hempty =>
    refine ⟨stage, .refl stage left, hends, last, hstage, ?_⟩
    intro hnothing
    exact hempty (List.isEmpty_iff.mpr (hlast.mp hnothing).1)

theorem reads_barred {stage : Stage} (h : Ended rest stage) (hbar : peek rest = some .bar) :
    stage.Reads endLine rest Prod.snd (fun b stage => Ended b.2 stage)
      (takeAlternative endLine rest.tail) := by
  obtain ⟨_, last, hstage, hlast⟩ := h
  have hnext : stage.next .bar = some (alternative .nothing) := by
    rw [hstage, next, if_neg hlast]
  exact (Passes.token hbar hnext).reads (reads_takeAlternative endLine rest.tail)

theorem reads_takeOthers (endLine : UInt32) {stage : Stage} (h : Ended rest stage) :
    stage.Reads endLine rest Prod.snd
      (fun b stage => Ended b.2 stage ∧ peek b.2 ≠ some .bar) (takeOthers endLine rest) := by
  fun_induction takeOthers endLine rest generalizing stage with
  | case1 rest hbar e htake =>
    exact (reads_barred h hbar).fails htake
  | case2 rest hbar symbols left htake ih =>
    obtain ⟨stage', hpasses, hended⟩ := (reads_barred h hbar).passes htake
    apply hpasses.reads
    apply (ih hended).bind
    intro result stage'' hstage''
    obtain ⟨others, after⟩ := result
    exact ⟨stage'', .refl stage'' after, hstage''⟩
  | case3 rest hbar => exact ⟨stage, .refl stage rest, h, hbar⟩

theorem reads_semicolon {stage : Stage} (h : Ended rest stage) (hbar : peek rest ≠ some .bar) :
    stage.Reads endLine rest id (fun _ stage => stage = rules)
      (expect endLine .semicolon ';' rest) := by
  obtain ⟨hends, last, hstage, hlast⟩ := h
  rw [hstage]
  apply reads_expect
  · rw [next, if_neg hlast]
  · simp
  · intro s hpeek hs
    rw [hpeek] at hends
    cases s with
    | bar => exact absurd hpeek hbar
    | semicolon => exact absurd rfl hs
    | _ => cases hends

theorem reads_takeRule (endLine : UInt32) (hrest : rest ≠ []) :
    rules.Reads endLine rest Prod.snd (fun _ stage => stage = rules) (takeRule endLine rest) := by
  have hname : rules.Reads endLine rest Prod.snd (fun _ stage => stage = lhs)
      (takeIdentifier endLine rest) := by
    apply reads_takeIdentifier (fun name => rfl)
    · intro hend
      exact absurd (List.head?_eq_none_iff.mp (Option.map_eq_none_iff.mp hend)) hrest
    · intro s hs
      cases s with
      | identifier name => exact absurd rfl (hs name)
      | _ => rfl
  have hcolon : ∀ left, lhs.Reads endLine left id
      (fun _ stage => stage = alternative .nothing) (expect endLine .colon ':' left) := by
    intro left
    apply reads_expect rfl (by simp)
    intro s _ hs
    cases s with
    | colon => exact absurd rfl hs
    | _ => rfl
  rw [takeRule]
  apply hname.bind
  intro result stage hstage
  obtain ⟨name, left⟩ := result
  rw [hstage]
  apply (hcolon left).bind
  intro left stage hstage
  rw [hstage]
  apply (reads_takeAlternative endLine left).bind
  intro result stage hfirst
  obtain ⟨first, left⟩ := result
  apply (reads_takeOthers endLine hfirst).bind
  intro result stage h
  obtain ⟨others, left⟩ := result
  obtain ⟨hothers, hbar⟩ := h
  apply (reads_semicolon hothers hbar).bind
  intro left stage hstage
  exact ⟨stage, .refl stage left, hstage⟩

theorem reads_takeRules (endLine : UInt32) (rest : List LineToken) :
    rules.Reads endLine rest (fun _ => []) (fun _ stage => stage = rules)
      (takeRules endLine rest) := by
  fun_induction takeRules endLine rest with
  | case1 rest hempty =>
    rw [List.isEmpty_iff.mp hempty]
    exact ⟨rules, .refl rules [], rfl⟩
  | case2 rest hempty e htake =>
    exact (reads_takeRule endLine (fun h => hempty (List.isEmpty_iff.mpr h))).fails htake
  | case3 rest hempty rule left htake ih =>
    obtain ⟨stage, hpasses, hstage⟩ :=
      (reads_takeRule endLine (fun h => hempty (List.isEmpty_iff.mpr h))).passes htake
    rw [hstage] at hpasses
    apply hpasses.reads
    apply ih.bind
    intro more stage hstage
    exact ⟨stage, .refl stage [], hstage⟩

/-! ## Directives and the whole text -/

theorem reads_directive {started started' : Bool} {d : String}
    (hnext : (header started).next (.directive d) = some (naming started')) (endLine line : UInt32)
    (rest : List LineToken) :
    (header started).Reads endLine ({ token := .directive d, line } :: rest) Prod.snd
      (fun _ stage => stage = header started') (takeIdentifier endLine rest) := by
  have hword : (header started).Passes ({ token := .directive d, line } :: rest) rest
      (naming started') := .token rfl hnext
  apply hword.reads
  apply reads_takeIdentifier (fun name => rfl) (by simp)
  intro s hs
  cases s with
  | identifier name => exact absurd rfl (hs name)
  | _ => rfl

/-- The directives are followed up to the separator, which can stand only
after a start symbol. -/
theorem reads_takeDirectives (endLine : UInt32) (names : Names) (rest : List LineToken) :
    ∃ line, (header names.start.isSome).Reads endLine rest
      (fun b => { token := .separator, line } :: b.2)
      (fun b stage => stage = header b.1.start.isSome) (takeDirectives endLine names rest) := by
  have hgrammar : ∀ started, (header started).next (.directive "grammar") = some (naming started) :=
    fun started => rfl
  have hstart : ∀ started, (header started).next (.directive "start") = some (naming true) :=
    fun started => rfl
  fun_induction takeDirectives endLine names rest with
  | case1 names => exact ⟨0, reads_fail (by simp [Stuck]) (.expectedDirective none)⟩
  | case2 names line rest => exact ⟨line, _, .refl _ _, rfl⟩
  | case3 names line rest e htake =>
    exact ⟨0, (reads_directive (hgrammar names.start.isSome) endLine line rest).fails htake⟩
  | case4 names line rest name left htake ih =>
    obtain ⟨stage, hpasses, hstage⟩ :=
      (reads_directive (hgrammar names.start.isSome) endLine line rest).passes htake
    obtain ⟨place, hread⟩ := ih
    rw [hstage] at hpasses
    exact ⟨place, hpasses.reads hread⟩
  | case5 names line rest e htake =>
    exact ⟨0, (reads_directive (hstart names.start.isSome) endLine line rest).fails htake⟩
  | case6 names line rest name left htake _ ih =>
    obtain ⟨stage, hpasses, hstage⟩ :=
      (reads_directive (hstart names.start.isSome) endLine line rest).passes htake
    obtain ⟨place, hread⟩ := ih
    rw [hstage] at hpasses
    exact ⟨place, hpasses.reads hread⟩
  | case7 names d line rest hother hother' =>
    have hstuck : (header names.start.isSome).Stuck ({ token := .directive d, line } :: rest) := by
      rw [Stuck, next, if_neg hother, if_neg hother']
    exact ⟨0, reads_fail hstuck (.unknownDirective d)⟩
  | case8 names t line rest hseparator hdirective =>
    have hstuck : (header names.start.isSome).Stuck ({ token := t, line } :: rest) := by
      cases t with
      | directive d => exact absurd rfl (hdirective d)
      | separator => exact absurd rfl hseparator
      | _ => rfl
    exact ⟨0, reads_fail hstuck (.expectedDirective (some t))⟩

/-- Tokens are read as a grammar, or are refused where the stages end, or
lack a start symbol before the separator. -/
theorem ofTokens_cases (stream : TokenStream) :
    (∃ g, ofTokens stream = .ok g ∧ start.after (wordsOf stream.tokens) = some rules) ∨
    (∃ e, ofTokens stream = .error e ∧ start.Fails stream.endLine stream.tokens e) ∨
    (ofTokens stream = .error (.undefinedStart "") ∧
      start.after (wordsOf stream.tokens) = none) := by
  rw [ofTokens]
  obtain ⟨line, hread⟩ :=
    reads_takeDirectives stream.endLine { name := none, start := none } stream.tokens
  cases htake : takeDirectives stream.endLine { name := none, start := none } stream.tokens with
  | error e => exact .inr (.inl ⟨e, rfl, hread.fails htake⟩)
  | ok given =>
    obtain ⟨names, rest⟩ := given
    obtain ⟨stage, hheader, hstage⟩ := hread.passes htake
    rw [hstage] at hheader
    rw [ok_bind]
    dsimp only at hheader ⊢
    cases hnames : names.start with
    | none =>
      rw [hnames] at hheader
      obtain ⟨taken, htokens, htaken⟩ := hheader
      have htaken' : start.after (wordsOf taken) = some (header false) := htaken
      refine .inr (.inr ⟨rfl, ?_⟩)
      rw [htokens, after_wordsOf_append htaken']
      rfl
    | some name =>
      rw [hnames] at hheader
      have hrules : start.Passes stream.tokens rest rules :=
        hheader.trans (.token rfl rfl)
      have hrest := hrules.reads (reads_takeRules stream.endLine rest)
      cases hr : takeRules stream.endLine rest with
      | error e => exact .inr (.inl ⟨e, rfl, hrest.fails hr⟩)
      | ok read =>
        obtain ⟨stage, ⟨taken, htokens, htaken⟩, hend⟩ := hrest.passes hr
        refine .inl ⟨_, rfl, ?_⟩
        rw [htokens, List.append_nil, htaken, hend]

theorem Fails.after_ne {rest : List LineToken} {e : Error} (h : q.Fails endLine rest e) :
    q.after (wordsOf rest) ≠ some rules := by
  obtain ⟨left, stage, fault, ⟨taken, hrest, htaken⟩, hstuck, _⟩ := h
  rw [hrest, after_wordsOf_append htaken]
  intro hrules
  cases left with
  | nil => exact hstuck (Option.some.inj hrules)
  | cons first more =>
    have hnone : stage.next first.token = none := hstuck
    rw [wordsOf, List.map_cons, after_cons, hnone] at hrules
    cases hrules

end Stage

end Reader

open Reader

theorem accepted_iff (ws : List Token) : Accepted ws ↔ Stage.start.after ws = some .rules := by
  constructor
  · intro h
    obtain ⟨stream, g, hws, hg⟩ := h
    rw [← hws]
    obtain ⟨_, _, hrules⟩ | ⟨e, he, _⟩ | ⟨he, _⟩ := Stage.ofTokens_cases stream
    · exact hrules
    · rw [hg] at he
      cases he
    · rw [hg] at he
      cases he
  · intro hrules
    -- Which lines the tokens stand on does not matter.
    let stream : TokenStream :=
      { tokens := ws.map fun t => { token := t, line := 0 }, endLine := 0 }
    have hws : wordsOf stream.tokens = ws := by
      rw [wordsOf, List.map_map]
      exact List.map_id ws
    rw [← hws] at hrules
    obtain ⟨g, hg, _⟩ | ⟨e, _, hfails⟩ | ⟨_, hnone⟩ := Stage.ofTokens_cases stream
    · exact ⟨stream, g, hws, hg⟩
    · exact absurd hrules hfails.after_ne
    · rw [hnone] at hrules
      cases hrules

/-- Every stage that can be reached can be completed. -/
theorem viable_iff (ws : List Token) : Viable ws ↔ ∃ q, Stage.start.after ws = some q := by
  constructor
  · intro h
    obtain ⟨more, hmore⟩ := h
    rw [accepted_iff, Stage.after_append] at hmore
    obtain ⟨q, hq, _⟩ := Option.bind_eq_some_iff.mp hmore
    exact ⟨q, hq⟩
  · intro h
    obtain ⟨q, hq⟩ := h
    refine ⟨q.completion, ?_⟩
    rw [accepted_iff, Stage.after_append, hq]
    exact q.after_completion

theorem unacceptable_of_stuck {before rest : List LineToken} {q : Stage}
    (hq : Stage.start.after (wordsOf before) = some q) (hstuck : q.Stuck rest) :
    Unacceptable (wordsOf before) (wordsOf rest) := by
  have hviable := (viable_iff _).mpr ⟨q, hq⟩
  cases rest with
  | nil =>
    refine ⟨hviable, ?_⟩
    rw [accepted_iff, hq]
    intro hrules
    exact hstuck (Option.some.inj hrules)
  | cons t more =>
    have hnone : q.next t.token = none := hstuck
    refine ⟨hviable, ?_⟩
    rw [viable_iff, Stage.after_append, hq]
    show ¬∃ stage, q.after [t.token] = some stage
    rw [Stage.after_cons, hnone]
    intro h
    obtain ⟨stage, hstage⟩ := h
    cases hstage

/-- The first token that cannot stand where it does begins after `front`, and
the token behind it after `past`. -/
structure Offends (text : List Char) (before rest : List LineToken) (front past : List Char) :
    Prop where
  unacceptable : Unacceptable (wordsOf before) (wordsOf rest)
  here : ∃ back, text = front ++ back ∧ Cut 1 before rest front back
  behind : ∃ back, text = past ++ back ∧ Cut 1 (before ++ rest.take 1) rest.tail past back

/-- A text of tokens that is malformed is refused because of its first
unacceptable token. The line reported is that of the token itself if the
fault was seen ahead, and otherwise that of the token behind it. Its number
has 32 bits and tells the line of a text that has fewer than 2 ^ 32. -/
theorem malformed_line_exact {text : String} {stream : TokenStream} {line : UInt32}
    {fault : Fault} (hscan : tokens text = .ok stream)
    (hread : read text = .error (.malformed line fault)) :
    ∃ before rest front past, stream.tokens = before ++ rest ∧
      Offends text.toList before rest front past ∧
      line = .ofNat (1 + (if fault.seenAhead then front else past).count '\n') ∧
      (1 + text.toList.count '\n' < UInt32.size →
        line.toNat = 1 + (if fault.seenAhead then front else past).count '\n') := by
  rw [read, hscan, ok_bind] at hread
  obtain ⟨g, hg, _⟩ | ⟨e, he, hfails⟩ | ⟨he, _⟩ := Stage.ofTokens_cases stream
  · rw [hg] at hread
    cases hread
  · rw [he] at hread
    obtain ⟨rest, q, fault', ⟨before, htokens, hq⟩, hstuck, herror⟩ := hfails
    rw [herror] at hread
    cases hread
    have hsplit : stream.tokens = before ++ rest.take 1 ++ rest.tail := by
      rw [htokens, List.append_assoc, ← List.drop_one, List.take_append_drop]
    have hhere : scan 1 text.toList
        = .ok { tokens := before ++ rest, endLine := stream.endLine } := by
      rw [← htokens]
      exact hscan
    have hbehind : scan 1 text.toList
        = .ok { tokens := before ++ rest.take 1 ++ rest.tail, endLine := stream.endLine } := by
      rw [← hsplit]
      exact hscan
    obtain ⟨front, back, hfront, hcut, hline⟩ := exists_cut hhere
    obtain ⟨past, back', hpast, hcut', hline'⟩ := exists_cut hbehind
    refine ⟨before, rest, front, past, htokens,
      ⟨unacceptable_of_stuck hq hstuck, ⟨back, hfront, hcut⟩, ⟨back', hpast, hcut'⟩⟩, ?_⟩
    split
    · rw [hline]
      exact ⟨lineAfter_one front, toNat_lineAfter_one ⟨back, hfront.symm⟩⟩
    · rw [hline']
      exact ⟨lineAfter_one past, toNat_lineAfter_one ⟨back', hpast.symm⟩⟩
  · rw [he] at hread
    cases hread

/-- A rule that lacks its last mark. -/
def unclosedText : String := "%start a\n%%\na\n: SCALAR\n"

def unclosedStream : TokenStream where
  tokens := [⟨.directive "start", 1⟩, ⟨.identifier "a", 1⟩, ⟨.separator, 2⟩,
    ⟨.identifier "a", 3⟩, ⟨.colon, 4⟩, ⟨.identifier "SCALAR", 4⟩]
  endLine := 5

/-- The missing mark is seen ahead, at the end of the text. -/
theorem unclosed_malformed_line :
    tokens unclosedText = .ok unclosedStream ∧
    read unclosedText = .error (.malformed 5 (.expectedMark ';' none)) ∧
    ∃ before rest front past, unclosedStream.tokens = before ++ rest ∧
      Offends unclosedText.toList before rest front past ∧
      5 = 1 + (if (Fault.expectedMark ';' none).seenAhead then front else past).count '\n' := by
  have hscan : tokens unclosedText = .ok unclosedStream := by decide +kernel
  have hread : read unclosedText = .error (.malformed 5 (.expectedMark ';' none)) := by
    decide +kernel
  obtain ⟨before, rest, front, past, htokens, hoffends, _, hline⟩ :=
    malformed_line_exact hscan hread
  exact ⟨hscan, hread, before, rest, front, past, htokens, hoffends, hline (by decide)⟩

/-- A start directive without a name: the separator on the second line is the
first token that cannot stand where it does, and the third line is reported. -/
theorem malformed_line_behind :
    Offends "%start\n%%\na : SCALAR ;\n".toList [⟨.directive "start", 1⟩]
      [⟨.separator, 2⟩, ⟨.identifier "a", 3⟩, ⟨.colon, 3⟩, ⟨.identifier "SCALAR", 3⟩,
        ⟨.semicolon, 3⟩] "%start\n".toList "%start\n%%\n".toList ∧
    1 + "%start\n".toList.count '\n' = 2 ∧
    read "%start\n%%\na : SCALAR ;\n"
      = .error (.malformed 3 (.expectedIdentifier (some .separator))) := by
  refine ⟨⟨?_, ?_, ?_⟩, ?_, ?_⟩
  · exact unacceptable_of_stuck (q := .naming true) rfl rfl
  · exact ⟨"%%\na : SCALAR ;\n".toList, by decide, by decide +kernel, '%',
      "%\na : SCALAR ;\n".toList, "\na : SCALAR ;\n".toList, by decide, by decide +kernel⟩
  · exact ⟨"a : SCALAR ;\n".toList, by decide, by decide +kernel, 'a',
      " : SCALAR ;\n".toList, " : SCALAR ;\n".toList, by decide, by decide +kernel⟩
  · decide
  · decide +kernel

end TreeSchema.Grammar
