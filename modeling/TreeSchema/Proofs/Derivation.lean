import Mathlib.Computability.Language
import TreeSchema.Proofs.Emission
/-
  Derivations

  What a grammar derives, without any parsing: terminals stand for the tokens
  they accept, nonterminals for what an alternative of their rule derives,
  and a repeated symbol for any number of words that the symbol derives. Any
  reading of the nonterminals that the rules respect contains what the
  grammar derives (`mem_languageOf_of_derives`).

  A grammar that describes patterns derives from each nonterminal just the
  words of the trees that conform to its entity.
-/

namespace TreeSchema

open scoped Computability

/-- The token sequences that a list of symbols derives. -/
inductive Grammar.Derives (g : Grammar) : List Symbol → List TreeToken → Prop where
  | nil : Derives g [] []
  | terminal {t : Terminal} {token : TreeToken} {rest : List Symbol} {w : List TreeToken}
    (accepts : t.accepts token = true) (after : Derives g rest w) :
    Derives g (.terminal t :: rest) (token :: w)
  | nonterminal {r : Rule} {alternative rest : List Symbol} {u w : List TreeToken}
    (rule : r ∈ g.rules) (mem : alternative ∈ r.alternatives) (inner : Derives g alternative u)
    (after : Derives g rest w) : Derives g (.nonterminal r.lhs :: rest) (u ++ w)
  | stop {s : Symbol} {rest : List Symbol} {w : List TreeToken} (after : Derives g rest w) :
    Derives g (.repeated s :: rest) w
  | more {s : Symbol} {rest : List Symbol} {u w : List TreeToken} (inner : Derives g [s] u)
    (after : Derives g (.repeated s :: rest) w) : Derives g (.repeated s :: rest) (u ++ w)

/-- The words of a symbol when each nonterminal is read as a language. -/
def Symbol.language (reading : String → Language TreeToken) : Symbol → Language TreeToken
  | .terminal t => {w | ∃ token, t.accepts token = true ∧ w = [token]}
  | .nonterminal name => reading name
  | .repeated inner => (inner.language reading)∗

/-- The words of a list of symbols, one symbol after another. -/
def languageOf (reading : String → Language TreeToken) (symbols : List Symbol) :
    Language TreeToken :=
  (symbols.map (Symbol.language reading)).prod

section
variable {reading : String → Language TreeToken} {w : List TreeToken}

@[simp] theorem mem_languageOf_nil : w ∈ languageOf reading [] ↔ w = [] := Language.mem_one w

theorem mem_languageOf_cons {s : Symbol} {rest : List Symbol} :
    w ∈ languageOf reading (s :: rest) ↔
      ∃ u ∈ s.language reading, ∃ v ∈ languageOf reading rest, u ++ v = w := by
  rw [languageOf, List.map_cons, List.prod_cons, Language.mem_mul]
  rfl

theorem mem_languageOf_singleton {s : Symbol} :
    w ∈ languageOf reading [s] ↔ w ∈ s.language reading := by
  rw [languageOf, List.map_singleton, List.prod_singleton]

theorem mem_languageOf_terminal {t : Terminal} {rest : List Symbol} :
    w ∈ languageOf reading (.terminal t :: rest) ↔
      ∃ token v, t.accepts token = true ∧ v ∈ languageOf reading rest ∧ w = token :: v := by
  rw [mem_languageOf_cons]
  constructor
  · intro h
    obtain ⟨_, ⟨token, htoken, rfl⟩, v, hv, rfl⟩ := h
    exact ⟨token, v, htoken, hv, rfl⟩
  · intro h
    obtain ⟨token, v, htoken, hv, rfl⟩ := h
    exact ⟨[token], ⟨token, htoken, rfl⟩, v, hv, rfl⟩

/-- The words of a container: an opening token, words of the repeated symbol,
a closing token. -/
theorem mem_languageOf_container {opening closing : Terminal} {s : Symbol}
    (h : w ∈ languageOf reading [.terminal opening, .repeated s, .terminal closing]) :
    ∃ (first last : TreeToken) (words : List (List TreeToken)), opening.accepts first = true ∧
      closing.accepts last = true ∧ (∀ u ∈ words, u ∈ s.language reading) ∧
      w = first :: words.flatten ++ [last] := by
  obtain ⟨first, v, hfirst, hv, rfl⟩ := mem_languageOf_terminal.mp h
  obtain ⟨u, hu, x, hx, rfl⟩ := mem_languageOf_cons.mp hv
  obtain ⟨words, rfl, hwords⟩ := Language.mem_kstar.mp hu
  obtain ⟨last, y, hlast, hy, rfl⟩ := mem_languageOf_terminal.mp hx
  rw [mem_languageOf_nil] at hy
  subst hy
  exact ⟨first, last, words, hfirst, hlast, hwords, rfl⟩

/-- A reading that the rules respect contains what the grammar derives. -/
theorem mem_languageOf_of_derives {g : Grammar}
    (hreading : ∀ r ∈ g.rules, ∀ alternative ∈ r.alternatives,
      ∀ u ∈ languageOf reading alternative, u ∈ reading r.lhs)
    {symbols : List Symbol} (h : g.Derives symbols w) : w ∈ languageOf reading symbols := by
  induction h with
  | nil => exact mem_languageOf_nil.mpr rfl
  | terminal accepts _ ih => exact mem_languageOf_terminal.mpr ⟨_, _, accepts, ih, rfl⟩
  | nonterminal rule mem _ _ ihinner ih =>
    exact mem_languageOf_cons.mpr ⟨_, hreading _ rule _ mem _ ihinner, _, ih, rfl⟩
  | stop _ ih =>
    exact mem_languageOf_cons.mpr ⟨[], Language.nil_mem_kstar _, _, ih, rfl⟩
  | more _ _ ihinner ih =>
    obtain ⟨v, hv, x, hx, rfl⟩ := mem_languageOf_cons.mp ih
    obtain ⟨words, rfl, hwords⟩ := Language.mem_kstar.mp hv
    refine mem_languageOf_cons.mpr ⟨_, ?_, x, hx, List.append_assoc _ _ _⟩
    refine Language.mem_kstar.mpr ⟨_ :: words, List.flatten_cons.symm, ?_⟩
    intro y hy
    rcases List.mem_cons.mp hy with rfl | hy
    · exact mem_languageOf_singleton.mp ihinner
    · exact hwords y hy

end

namespace Grammar.Derives
variable {g : Grammar}

theorem singleton {t : Terminal} {token : TreeToken} (h : t.accepts token = true) :
    g.Derives [.terminal t] [token] :=
  .terminal h .nil

theorem of_rule {r : Rule} {alternative : List Symbol} {w : List TreeToken} (hr : r ∈ g.rules)
    (hmem : alternative ∈ r.alternatives) (h : g.Derives alternative w) :
    g.Derives [.nonterminal r.lhs] w := by
  have := Derives.nonterminal hr hmem h .nil
  rwa [List.append_nil] at this

/-- A repeated symbol derives any number of words of the symbol. -/
theorem flatMap_repeated {α : Type} {word : α → List TreeToken} {s : Symbol} {rest : List Symbol}
    {w : List TreeToken} {parts : List α} (h : ∀ a ∈ parts, g.Derives [s] (word a))
    (hrest : g.Derives rest w) : g.Derives (.repeated s :: rest) (parts.flatMap word ++ w) := by
  induction parts with
  | nil => exact .stop hrest
  | cons a others ih =>
    rw [List.flatMap_cons, List.append_assoc]
    exact .more (h a List.mem_cons_self) (ih (fun b hb => h b (List.mem_cons_of_mem a hb)))

/-- What two lists of symbols derive, one after the other. -/
theorem append {symbols others : List Symbol} {u w : List TreeToken} (h : g.Derives symbols u)
    (h' : g.Derives others w) : g.Derives (symbols ++ others) (u ++ w) := by
  induction h with
  | nil => exact h'
  | terminal accepts _ ih => exact .terminal accepts ih
  | nonterminal rule mem inner _ _ ih =>
    rw [List.append_assoc]
    exact .nonterminal rule mem inner ih
  | stop _ ih => exact .stop ih
  | more inner _ _ ih =>
    rw [List.append_assoc]
    exact .more inner ih

end Grammar.Derives

/-! ## What terminals accept -/

namespace Terminal
variable {token : TreeToken}

/-- What each terminal accepts. The lemmas after this one are its cases. -/
theorem accepts_iff (terminal : Terminal) :
    terminal.accepts token = true ↔
      match terminal with
      | .scalar => ∃ text, token = .scalar text
      | .literal value => token = .scalar value
      | .key none => ∃ name, token = .key name
      | .key (some name) => token = .key name
      | .openSequence => token = .openSequence
      | .closeSequence => token = .closeSequence
      | .openMapping => token = .openMapping
      | .closeMapping => token = .closeMapping := by
  rcases terminal with _ | value | (_ | name) | _ | _ | _ | _ <;> cases token <;>
    simp [accepts] <;> exact eq_comm

theorem accepts_scalar_iff : scalar.accepts token = true ↔ ∃ text, token = .scalar text :=
  accepts_iff scalar

theorem accepts_literal_iff {value : String} :
    (literal value).accepts token = true ↔ token = .scalar value :=
  accepts_iff (literal value)

theorem accepts_anyKey_iff : (key none).accepts token = true ↔ ∃ name, token = .key name :=
  accepts_iff (key none)

theorem accepts_key_iff {name : String} :
    (key (some name)).accepts token = true ↔ token = .key name :=
  accepts_iff (key (some name))

theorem accepts_openSequence_iff : openSequence.accepts token = true ↔ token = .openSequence :=
  accepts_iff openSequence

theorem accepts_closeSequence_iff :
    closeSequence.accepts token = true ↔ token = .closeSequence :=
  accepts_iff closeSequence

theorem accepts_openMapping_iff : openMapping.accepts token = true ↔ token = .openMapping :=
  accepts_iff openMapping

theorem accepts_closeMapping_iff : closeMapping.accepts token = true ↔ token = .closeMapping :=
  accepts_iff closeMapping

end Terminal

namespace Schema

/-! ## What the nonterminals of a schema stand for -/

section
variable {ι : Type} {meaning : ι → Pattern ι} {label : ι → String} {present : ι → Prop}

/-- The reading of a nonterminal as the words of trees: of those that conform
to its entity, or of the parts that may stand in it. -/
structure StandsFor (meaning : ι → Pattern ι) (label : ι → String) (present : ι → Prop)
    (name : String) (w : List TreeToken) : Prop where
  tree : ∀ i, present i → name = label i → ∃ n, Conforms meaning n i ∧ w = n.word
  item : ∀ i m members, present i → meaning i = .array (m :: members) →
    name = label i ++ ".item" → ∃ n, ItemConforms meaning (m :: members) n ∧ w = n.word
  entry : ∀ i members, present i → meaning i = .mapping members → name = label i ++ ".entry" →
    ∃ e : String × Node, EntryConforms meaning members e ∧ w = .key e.1 :: e.2.word

/-- Nonterminals read as the words of trees. -/
def treeReading (meaning : ι → Pattern ι) (label : ι → String) (present : ι → Prop) :
    String → Language TreeToken :=
  fun name => {w | StandsFor meaning label present name w}

/-- Words that each come from a part are the words of a list of parts. -/
theorem exists_parts {α : Type} {P : α → Prop} {word : α → List TreeToken}
    {words : List (List TreeToken)} (h : ∀ u ∈ words, ∃ a, P a ∧ u = word a) :
    ∃ parts : List α, (∀ a ∈ parts, P a) ∧ words.flatten = parts.flatMap word := by
  induction words with
  | nil => exact ⟨[], fun a ha => absurd ha List.not_mem_nil, rfl⟩
  | cons u rest ih =>
    obtain ⟨parts, hparts, hflat⟩ := ih (fun v hv => h v (List.mem_cons_of_mem u hv))
    obtain ⟨a, ha, rfl⟩ := h u List.mem_cons_self
    refine ⟨a :: parts, ?_, by rw [List.flatten_cons, List.flatMap_cons, hflat]⟩
    intro b hb
    rcases List.mem_cons.mp hb with rfl | hb
    · exact ha
    · exact hparts b hb

/-- The words that the reading gives the items of an array. -/
theorem item_of_mem_language {i : ι} {members : List ι} (hi : present i)
    (hm : meaning i = .array members) {u : List TreeToken}
    (hu : u ∈ (itemSymbol (label i) members).language
      (treeReading meaning label present)) :
    ∃ n, ItemConforms meaning members n ∧ u = n.word := by
  cases members with
  | nil =>
    obtain ⟨token, htoken, rfl⟩ := hu
    obtain ⟨text, rfl⟩ := Terminal.accepts_scalar_iff.mp htoken
    exact ⟨.scalar text, .scalar, rfl⟩
  | cons m rest => exact hu.item i m rest hi hm rfl

/-- The words that the reading gives an alternative of the entries of a
mapping. -/
theorem entry_of_mem_languageOf {members : List (String × ι)}
    (hmembers : ∀ m ∈ members, present m.2) {alternative : List Symbol}
    (halt : alternative ∈ entryAlternatives label members) {w : List TreeToken}
    (hw : w ∈ languageOf (treeReading meaning label present) alternative) :
    ∃ e : String × Node, EntryConforms meaning members e ∧ w = .key e.1 :: e.2.word := by
  cases members with
  | nil =>
    rw [List.mem_singleton.mp halt] at hw
    obtain ⟨first, v, hfirst, hv, rfl⟩ := mem_languageOf_terminal.mp hw
    obtain ⟨second, x, hsecond, hx, rfl⟩ := mem_languageOf_terminal.mp hv
    rw [mem_languageOf_nil] at hx
    subst hx
    obtain ⟨key, rfl⟩ := Terminal.accepts_anyKey_iff.mp hfirst
    obtain ⟨text, rfl⟩ := Terminal.accepts_scalar_iff.mp hsecond
    exact ⟨(key, .scalar text), .scalar, rfl⟩
  | cons m rest =>
    obtain ⟨k, hk, rfl⟩ := List.mem_map.mp halt
    obtain ⟨first, v, hfirst, hv, rfl⟩ := mem_languageOf_terminal.mp hw
    rw [Terminal.accepts_key_iff.mp hfirst]
    obtain ⟨n, hn, rfl⟩ := (mem_languageOf_singleton.mp hv).tree k.2 (hmembers k hk) rfl
    exact ⟨(k.1, n), .member hk hn, rfl⟩

/-- The reading respects the rules. -/
theorem standsFor_of_rule {g : Grammar} (h : Describes g meaning label present) {r : Rule}
    (hr : r ∈ g.rules) {alternative : List Symbol} (halt : alternative ∈ r.alternatives)
    {w : List TreeToken}
    (hw : w ∈ languageOf (treeReading meaning label present) alternative) :
    StandsFor meaning label present r.lhs w where
  tree := by
    intro i hi hlhs
    cases hm : meaning i with
    | anyScalar =>
      obtain rfl := h.rule_unique hi hm List.mem_cons_self hr hlhs
      rw [List.mem_singleton.mp halt] at hw
      obtain ⟨token, htoken, rfl⟩ := mem_languageOf_singleton.mp hw
      obtain ⟨text, rfl⟩ := Terminal.accepts_scalar_iff.mp htoken
      exact ⟨.scalar text, .anyScalar hm, rfl⟩
    | oneOf values =>
      obtain rfl := h.rule_unique hi hm List.mem_cons_self hr hlhs
      obtain ⟨value, hvalue, rfl⟩ := List.mem_map.mp halt
      obtain ⟨token, htoken, rfl⟩ := mem_languageOf_singleton.mp hw
      rw [Terminal.accepts_literal_iff.mp htoken]
      exact ⟨.scalar value, .oneOf hm hvalue, rfl⟩
    | array members =>
      obtain rfl := h.rule_unique hi hm List.mem_cons_self hr hlhs
      rw [List.mem_singleton.mp halt] at hw
      obtain ⟨first, last, words, hfirst, hlast, hwords, rfl⟩ := mem_languageOf_container hw
      obtain ⟨items, hitems, hflat⟩ :=
        exists_parts (fun u hu => item_of_mem_language hi hm (hwords u hu))
      refine ⟨.sequence items, .array hm hitems, ?_⟩
      rw [Terminal.accepts_openSequence_iff.mp hfirst, Terminal.accepts_closeSequence_iff.mp hlast,
        hflat, Node.word_sequence]
    | mapping members =>
      obtain rfl := h.rule_unique hi hm List.mem_cons_self hr hlhs
      rw [List.mem_singleton.mp halt] at hw
      obtain ⟨first, last, words, hfirst, hlast, hwords, rfl⟩ := mem_languageOf_container hw
      obtain ⟨entries, hentries, hflat⟩ :=
        exists_parts (fun u hu => (hwords u hu).entry i members hi hm rfl)
      refine ⟨.mapping entries, .mapping hm hentries, ?_⟩
      rw [Terminal.accepts_openMapping_iff.mp hfirst, Terminal.accepts_closeMapping_iff.mp hlast,
        hflat, Node.word_mapping]
  item := by
    intro i m members hi hm hlhs
    obtain rfl := h.rule_unique hi hm (List.mem_cons_of_mem _ List.mem_cons_self) hr hlhs
    obtain ⟨k, hk, rfl⟩ := List.mem_map.mp halt
    obtain ⟨n, hn, rfl⟩ :=
      (mem_languageOf_singleton.mp hw).tree k (h.present_member hi hm hk) rfl
    exact ⟨n, .member hk hn, rfl⟩
  entry := by
    intro i members hi hm hlhs
    obtain rfl := h.rule_unique hi hm (List.mem_cons_of_mem _ List.mem_cons_self) hr hlhs
    exact entry_of_mem_languageOf
      (fun k hk => h.present_member hi hm (List.mem_map_of_mem hk)) halt hw

/-- Every word that a grammar derives from the nonterminal of an entity is
the word of a tree that conforms to the entity. -/
theorem exists_conforms_of_derives {g : Grammar} (h : Describes g meaning label present) {i : ι}
    (hi : present i) {w : List TreeToken} (hw : g.Derives [.nonterminal (label i)] w) :
    ∃ n, Conforms meaning n i ∧ w = n.word := by
  have hstands : w ∈ languageOf (treeReading meaning label present) [.nonterminal (label i)] :=
    mem_languageOf_of_derives (fun r hr alternative halt w hw => standsFor_of_rule h hr halt hw) hw
  exact (mem_languageOf_singleton.mp hstands).tree i hi rfl

/-! ## Deriving the word of a tree -/

theorem derives_item {g : Grammar} (h : Describes g meaning label present) {i : ι} (hi : present i)
    {members : List ι} (hm : meaning i = .array members) {n : Node}
    (hmember : ∀ k ∈ members, Conforms meaning n k → g.Derives [.nonterminal (label k)] n.word)
    (hn : ItemConforms meaning members n) :
    g.Derives [itemSymbol (label i) members] n.word := by
  cases members with
  | nil =>
    rcases itemConforms_iff.mp hn with ⟨_, text, rfl⟩ | ⟨k, hk, _⟩
    · exact .singleton rfl
    · cases hk
  | cons m rest =>
    rcases itemConforms_iff.mp hn with ⟨hnil, _⟩ | ⟨k, hk, hconf⟩
    · cases hnil
    · have hrule : ⟨label i ++ ".item", (m :: rest).map fun k => [.nonterminal (label k)]⟩
          ∈ g.rules :=
        h.rule_mem hi hm (List.mem_cons_of_mem _ List.mem_cons_self)
      exact .of_rule hrule (List.mem_map.mpr ⟨k, hk, rfl⟩) (hmember k hk hconf)

theorem derives_entry {g : Grammar} (h : Describes g meaning label present) {i : ι}
    (hi : present i) {members : List (String × ι)} (hm : meaning i = .mapping members)
    {key : String} {n : Node}
    (hmember : ∀ k ∈ members, Conforms meaning n k.2 →
      g.Derives [.nonterminal (label k.2)] n.word)
    (hn : EntryConforms meaning members (key, n)) :
    g.Derives [.nonterminal (label i ++ ".entry")] (.key key :: n.word) := by
  have hrule : ⟨label i ++ ".entry", entryAlternatives label members⟩ ∈ g.rules :=
    h.rule_mem hi hm (List.mem_cons_of_mem _ List.mem_cons_self)
  rcases entryConforms_iff.mp hn with ⟨rfl, text, rfl⟩ | ⟨k, hk, hconf⟩
  · exact .of_rule hrule List.mem_cons_self (.terminal rfl (.singleton rfl))
  · have hmem : [.terminal (.key (some key)), .nonterminal (label k)]
        ∈ entryAlternatives label members := by
      have hne : members.isEmpty = false := List.isEmpty_eq_false_iff_exists_mem.mpr ⟨_, hk⟩
      rw [entryAlternatives, hne]
      exact List.mem_map.mpr ⟨(key, k), hk, rfl⟩
    exact .of_rule hrule hmem
      (.terminal (Terminal.accepts_key_iff.mpr rfl) (hmember (key, k) hk hconf))

theorem derives_of_conforms {g : Grammar} (h : Describes g meaning label present) {n : Node}
    {i : ι} (hi : present i) (hn : Conforms meaning n i) :
    g.Derives [.nonterminal (label i)] n.word := by
  induction n using Node.induction generalizing i with
  | scalar text =>
    rcases conforms_scalar_iff.mp hn with hm | ⟨values, hm, hvalue⟩
    · exact .of_rule (r := ⟨label i, _⟩) (h.rule_mem hi hm List.mem_cons_self)
        List.mem_cons_self (.singleton rfl)
    · exact .of_rule (r := ⟨label i, _⟩) (h.rule_mem hi hm List.mem_cons_self)
        (List.mem_map_of_mem hvalue) (.singleton (Terminal.accepts_literal_iff.mpr rfl))
  | sequence items ih =>
    obtain ⟨members, hm, each⟩ := conforms_sequence_iff.mp hn
    refine .of_rule (r := ⟨label i, _⟩) (h.rule_mem hi hm List.mem_cons_self)
      List.mem_cons_self ?_
    rw [Node.word_sequence, List.cons_append]
    refine .terminal rfl (.flatMap_repeated (fun n hn => ?_) (.singleton rfl))
    exact derives_item h hi hm (fun k hk => ih n hn (h.present_member hi hm hk)) (each n hn)
  | mapping entries ih =>
    obtain ⟨members, hm, each⟩ := conforms_mapping_iff.mp hn
    refine .of_rule (r := ⟨label i, _⟩) (h.rule_mem hi hm List.mem_cons_self)
      List.mem_cons_self ?_
    rw [Node.word_mapping, List.cons_append]
    refine .terminal rfl (.flatMap_repeated (fun e he => ?_) (.singleton rfl))
    exact derives_entry h hi hm
      (fun k hk => ih e he (h.present_member hi hm (List.mem_map_of_mem hk))) (each e he)

/-- A grammar that describes patterns derives the word of a tree from the
nonterminal of an entity just if the tree conforms to the entity. -/
theorem derives_iff_conforms {g : Grammar} (h : Describes g meaning label present) {n : Node}
    {i : ι} (hi : present i) :
    g.Derives [.nonterminal (label i)] n.word ↔ Conforms meaning n i := by
  constructor
  · intro hw
    obtain ⟨m, hm, hword⟩ := exists_conforms_of_derives h hi hw
    rw [Node.word_injective hword]
    exact hm
  · intro hn
    exact derives_of_conforms h hi hn

end

/-- The grammar of a schema has one rule for each nonterminal, has a rule for
every nonterminal it uses and for its start, and derives from the nonterminal
of each entity the tokens of just those trees that conform to the entity. -/
theorem grammar_preserves_meaning {file source : String} {root : Option String} {s : Resolved}
    (h : resolveSource file source root = .ok s) (name : String) :
    ((s.grammar name).rules.map Rule.lhs).Nodup ∧
      (∀ r ∈ (s.grammar name).rules, ∀ alternative ∈ r.alternatives, ∀ x ∈ alternative,
        ∀ used, Validation.nonterminalOf? x = some used →
          used ∈ (s.grammar name).rules.map Rule.lhs) ∧
      (s.grammar name).start ∈ (s.grammar name).rules.map Rule.lhs ∧
      ∀ (n : Node) (id : Nat) (e : Entity), s.table.get? id = some e →
        ((s.grammar name).Derives [.nonterminal e.nonterminal] (n.tokens.map PlacedToken.token) ↔
          Conforms s.pattern n id) := by
  obtain ⟨ds, es, _, _, hcloses, hproper⟩ := resolveSource_eq_ok h
  have hdesc := Resolved.describes_grammar hcloses hproper name
  refine ⟨hdesc.nodup, ?_, hdesc.exists_rule hcloses.present_root, ?_⟩
  · intro r hr alternative halt x hx used hused
    exact hdesc.exists_rule_of_reference hr (List.mem_flatten.mpr ⟨alternative, halt, hx⟩) hused
  · intro n id e he
    rw [← Resolved.nonterminalAt_eq he]
    exact derives_iff_conforms hdesc ⟨e, he⟩

theorem nested_grammar_derives :
    resolveSource nestedFile nestedSource none = .ok nested ∧
      (nested.grammar "Tree").Derives [.nonterminal "mapping.tree"]
        ((Node.mapping [("below", .sequence [.scalar "y", .mapping []])]).tokens.map
          PlacedToken.token) := by
  refine ⟨resolveSource_nested, ?_⟩
  apply ((grammar_preserves_meaning resolveSource_nested "Tree").2.2.2 _ 0 _ rfl).mpr
  refine .mapping rfl (fun e he => ?_)
  rw [List.mem_singleton.mp he]
  refine .member (r := 1) (by decide) (.array rfl (fun n hn => ?_))
  rcases List.mem_pair.mp hn with rfl | rfl
  · exact .member (r := 2) (by decide) (.oneOf rfl (by decide))
  · exact .member (r := 0) (by decide) (.mapping rfl (fun e he => absurd he List.not_mem_nil))

end Schema

end TreeSchema
