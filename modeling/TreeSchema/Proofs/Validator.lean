import TreeSchema.Proofs.FirstTerminals
import TreeSchema.Proofs.Outcome
/-
  Validators

  Which grammars a validator can be made of, and what its rules then are. For
  a grammar that describes patterns, parsing the tokens of a tree comes to
  what the walk over the tree comes to, violations included
  (`parseRule_tokensAt`). The number of nested rules that this takes is at
  most the number of tokens.
-/

namespace TreeSchema.Validation

open Grammar

/-! ## Making a validator -/

theorem repeatedRule?_eq_none_iff {seen : List String} {rules : List Rule} :
    repeatedRule? seen rules = none ↔
      (rules.map Rule.lhs).Nodup ∧ ∀ r ∈ rules, r.lhs ∉ seen := by
  induction rules generalizing seen with
  | nil => simp [repeatedRule?]
  | cons r rest ih =>
    rw [repeatedRule?, List.map_cons, List.nodup_cons, List.forall_mem_cons]
    by_cases h : r.lhs ∈ seen
    · simp [h]
    · rw [if_neg h, ih]
      constructor
      · intro hrest
        obtain ⟨hnodup, hfresh⟩ := hrest
        refine ⟨⟨?_, hnodup⟩, h, fun q hq hmem => hfresh q hq (List.mem_cons_of_mem _ hmem)⟩
        intro hmem
        obtain ⟨q, hq, hlhs⟩ := List.mem_map.mp hmem
        exact hfresh q hq (by rw [hlhs]; exact List.mem_cons_self)
      · intro hall
        obtain ⟨⟨hnot, hnodup⟩, _, hfresh⟩ := hall
        refine ⟨hnodup, fun q hq hmem => ?_⟩
        rcases List.mem_cons.mp hmem with hlhs | hmem
        · exact hnot (hlhs ▸ List.mem_map_of_mem hq)
        · exact hfresh q hq hmem

theorem undefined?_eq_none_iff {defined : List String} {rules : List Rule} :
    undefined? defined rules = none ↔
      ∀ r ∈ rules, ∀ s ∈ r.alternatives.flatten, ∀ name, nonterminalOf? s = some name →
        name ∈ defined := by
  simp only [undefined?, undefinedIn?, List.findSome?_eq_none_iff, Option.map_eq_none_iff,
    Option.filter_eq_none_iff, List.contains_eq_mem, Bool.not_eq_true', decide_eq_false_iff_not,
    not_not]

namespace Validator

/-- An alternative with what is known of it. -/
def branch (table : FirstTable) (symbols : List Symbol) : Branch :=
  { symbols, first := (table.ofSymbols symbols).terminals,
    nullable := (table.ofSymbols symbols).nullable }

def prepared (g : Grammar) : Validator :=
  { name := g.name
    start := g.start
    rules := g.rules.map fun r =>
      { lhs := r.lhs, branches := r.alternatives.map (branch (firstTable g.rules)) } }

theorem ofGrammar_eq_ok {g : Grammar} (hnodup : (g.rules.map Rule.lhs).Nodup)
    (hstart : g.start ∈ g.rules.map Rule.lhs)
    (hdefined : ∀ r ∈ g.rules, ∀ s ∈ r.alternatives.flatten, ∀ name,
      nonterminalOf? s = some name → name ∈ g.rules.map Rule.lhs) :
    ofGrammar g = .ok (prepared g) := by
  have hrepeated : repeatedRule? [] g.rules = none :=
    repeatedRule?_eq_none_iff.mpr ⟨hnodup, fun _ _ => List.not_mem_nil⟩
  unfold ofGrammar
  dsimp only
  rw [hrepeated]
  dsimp only
  rw [if_pos (by rw [List.contains_eq_mem]; exact decide_eq_true hstart),
    undefined?_eq_none_iff.mpr hdefined]
  rfl

theorem branchesOf_prepared {g : Grammar} (hnodup : (g.rules.map Rule.lhs).Nodup) {r : Rule}
    (hr : r ∈ g.rules) :
    (prepared g).branchesOf r.lhs = r.alternatives.map (branch (firstTable g.rules)) := by
  have hfind : g.rules.find? (fun q => q.lhs == r.lhs) = some r :=
    find?_of_nodup_map hnodup hr (fun _ _ => beq_iff_eq)
  rw [branchesOf, prepared, List.find?_map]
  simp only [Function.comp_def, hfind, Option.map_some, Option.getD_some]

def headed (t : Terminal) (more : List Symbol) : Branch :=
  { symbols := .terminal t :: more, first := [t], nullable := false }

theorem branch_terminal (table : FirstTable) (t : Terminal) (more : List Symbol) :
    branch table (.terminal t :: more) = headed t more := by
  rw [branch, FirstTable.ofSymbols_terminal]
  rfl

/-! ## Parsing by the next token -/

variable {v : Validator}

theorem candidates_of_not_nullable {name : String}
    (h : ∀ b ∈ v.branchesOf name, b.nullable = false) (t : PlacedToken)
    (rest : List PlacedToken) :
    v.candidates name (t :: rest)
      = (v.branchesOf name).filter fun b => b.first.any fun f => f.accepts t.token := by
  unfold candidates
  dsimp only
  split
  · next hempty =>
    -- Where no branch begins with the token, only an empty one could still be tried.
    rw [List.find?_eq_none.mpr (fun b hb => by rw [h b hb]; exact Bool.false_ne_true),
      List.isEmpty_iff.mp hempty]
    rfl
  · rfl

/-- The candidates among branches that are written off a list. -/
theorem candidates_map {α : Type} {name : String} {parts : List α} {f : α → Branch}
    (hbranches : v.branchesOf name = parts.map f) (h : ∀ a, (f a).nullable = false)
    (t : PlacedToken) (rest : List PlacedToken) :
    v.candidates name (t :: rest)
      = (parts.filter fun a => (f a).first.any fun x => x.accepts t.token).map f := by
  have hnullable : ∀ b ∈ v.branchesOf name, b.nullable = false := by
    intro b hb
    rw [hbranches] at hb
    obtain ⟨a, _, rfl⟩ := List.mem_map.mp hb
    exact h a
  rw [candidates_of_not_nullable hnullable, hbranches, List.filter_map]
  rfl

theorem firstOf_eq (v : Validator) (name : String) :
    v.firstOf name = ((v.branchesOf name).flatMap Branch.first).eraseDups := by
  have hfold : ∀ (branches : List Branch) (known : List Terminal),
      branches.foldl (fun known b => addTerminals known b.first) known
        = (branches.flatMap Branch.first).foldl Schema.addNew known := by
    intro branches
    induction branches with
    | nil => exact fun known => rfl
    | cons b others ih =>
      intro known
      rw [List.foldl_cons, ih, List.flatMap_cons, List.foldl_append, addTerminals_eq_foldl]
  rw [firstOf, hfold, foldl_addNew_nil]

/-- A container is parsed as its parts are repeated. -/
theorem parseSymbols_container {call : String → Parse} {rule : String} {opening closing : Terminal}
    {s : Symbol} {first last : PlacedToken} (hfirst : opening.accepts first.token = true)
    (hlast : closing.accepts last.token = true) {inside rest : List PlacedToken}
    {recorded : List Violation}
    (h : repeatParse (v.parseSymbol call rule s) (v.firstOfSymbol s) rule (inside ++ last :: rest)
      = .parsed (last :: rest) recorded) :
    v.parseSymbols call rule [.terminal opening, .repeated s, .terminal closing]
        (first :: (inside ++ last :: rest))
      = .parsed rest recorded := by
  have hopen : v.parseSymbol call rule (.terminal opening) (first :: (inside ++ last :: rest))
      = .parsed (inside ++ last :: rest) [] := if_pos hfirst
  have hrepeat : v.parseSymbol call rule (.repeated s) (inside ++ last :: rest)
      = .parsed (last :: rest) recorded := h
  have hclose : v.parseSymbol call rule (.terminal closing) (last :: rest) = .parsed rest [] :=
    if_pos hlast
  simp [parseSymbols, hopen, hrepeat, hclose, Outcome.andThen, Outcome.after]

end Validator

/-! ## Validators of grammars that describe patterns -/

open Schema

theorem nodup_heads {ι : Type} {p : Pattern ι} (h : p.Proper) : p.heads.Nodup := by
  cases p with
  | anyScalar => exact List.nodup_singleton _
  | oneOf values => exact h.2.map (fun _ _ heq => Terminal.literal.inj heq)
  | array members => exact List.nodup_singleton _
  | mapping members => exact List.nodup_singleton _

theorem exists_headed_rule {ι : Type} (label : ι → String) (lhs : String) (p : Pattern ι) :
    ∃ r ∈ patternRules label lhs p, r.lhs = lhs ∧ FirstTable.Headed r.alternatives p.heads := by
  cases p with
  | anyScalar => exact ⟨_, List.mem_cons_self, rfl, .cons ⟨_, rfl⟩ .nil⟩
  | oneOf values =>
    refine ⟨_, List.mem_cons_self, rfl, ?_⟩
    show List.Forall₂ _ (values.map _) (values.map _)
    rw [List.forall₂_map_left_iff, List.forall₂_map_right_iff, List.forall₂_same]
    exact fun value _ => ⟨[], rfl⟩
  | array members => exact ⟨_, List.mem_cons_self, rfl, .cons ⟨_, rfl⟩ .nil⟩
  | mapping members => exact ⟨_, List.mem_cons_self, rfl, .cons ⟨_, rfl⟩ .nil⟩

/-- The rules of the validator are those of the patterns that are present,
each alternative with the terminals it begins with. -/
structure Judges {ι : Type} (v : Validator) (meaning : ι → Pattern ι) (label : ι → String)
    (present : ι → Prop) : Prop where
  closed : ∀ i, present i → ∀ m ∈ (meaning i).members, present m
  proper : ∀ i, present i → (meaning i).Proper
  anyScalar : ∀ i, present i → meaning i = .anyScalar →
    v.branchesOf (label i) = [Validator.headed .scalar []]
  oneOf : ∀ i values, present i → meaning i = .oneOf values →
    v.branchesOf (label i) = values.map fun value => Validator.headed (.literal value) []
  array : ∀ i members, present i → meaning i = .array members →
    v.branchesOf (label i) = [Validator.headed .openSequence
      [.repeated (itemSymbol (label i) members), .terminal .closeSequence]]
  item : ∀ i m members, present i → meaning i = .array (m :: members) →
    v.branchesOf (label i ++ ".item")
      = (m :: members).map fun k => ⟨[.nonterminal (label k)], (meaning k).heads, false⟩
  mapping : ∀ i members, present i → meaning i = .mapping members →
    v.branchesOf (label i) = [Validator.headed .openMapping
      [.repeated (.nonterminal (label i ++ ".entry")), .terminal .closeMapping]]
  anyEntry : ∀ i, present i → meaning i = .mapping [] →
    v.branchesOf (label i ++ ".entry") = [Validator.headed (.key none) [.terminal .scalar]]
  entry : ∀ i m members, present i → meaning i = .mapping (m :: members) →
    v.branchesOf (label i ++ ".entry")
      = (m :: members).map fun k => Validator.headed (.key (some k.1)) [.nonterminal (label k.2)]

section
variable {ι : Type} {g : Grammar} {meaning : ι → Pattern ι} {label : ι → String}
  {present : ι → Prop} {i : ι}

/-- The terminals that an entity of the grammar begins with. -/
theorem get_firstTable_label (h : Describes g meaning label present) (hi : present i) :
    (firstTable g.rules).get (label i) = ⟨(meaning i).heads, false⟩ := by
  obtain ⟨r, hr, hlhs, hheads⟩ := exists_headed_rule label (label i) (meaning i)
  rw [← hlhs, get_firstTable h.nodup (h.rule_mem hi rfl hr) hheads,
    eraseDups_of_nodup (nodup_heads (h.proper i hi))]

theorem branch_label (h : Describes g meaning label present) (hi : present i) :
    Validator.branch (firstTable g.rules) [.nonterminal (label i)]
      = ⟨[.nonterminal (label i)], (meaning i).heads, false⟩ := by
  have hget := get_firstTable_label h hi
  rw [Validator.branch, FirstTable.ofSymbols_nonterminal _ _ (by rw [hget]), hget,
    eraseDups_of_nodup (nodup_heads (h.proper i hi))]

theorem branchesOf_rule (h : Describes g meaning label present) (hi : present i) {p : Pattern ι}
    (hp : meaning i = p) {r : Rule} (hr : r ∈ patternRules label (label i) p) :
    (Validator.prepared g).branchesOf r.lhs
      = r.alternatives.map (Validator.branch (firstTable g.rules)) :=
  Validator.branchesOf_prepared h.nodup (h.rule_mem hi hp hr)

theorem judges_prepared (h : Describes g meaning label present) :
    Judges (Validator.prepared g) meaning label present where
  closed := h.closed
  proper := h.proper
  anyScalar := by
    intro i hi hm
    have hbranches := branchesOf_rule h hi hm List.mem_cons_self
    simpa only [List.map_cons, List.map_nil, Validator.branch_terminal] using hbranches
  oneOf := by
    intro i values hi hm
    have hbranches := branchesOf_rule h hi hm List.mem_cons_self
    simpa only [List.map_map, Function.comp_def, Validator.branch_terminal] using hbranches
  array := by
    intro i members hi hm
    have hbranches := branchesOf_rule h hi hm List.mem_cons_self
    simpa only [containerRule, List.map_cons, List.map_nil, Validator.branch_terminal]
      using hbranches
  item := by
    intro i m members hi hm
    have hbranches := branchesOf_rule h hi hm (List.mem_cons_of_mem _ List.mem_cons_self)
    dsimp only at hbranches
    rw [hbranches, List.map_map]
    apply List.map_congr_left
    intro k hk
    exact branch_label h (h.present_member hi hm hk)
  mapping := by
    intro i members hi hm
    have hbranches := branchesOf_rule h hi hm List.mem_cons_self
    simpa only [containerRule, List.map_cons, List.map_nil, Validator.branch_terminal]
      using hbranches
  anyEntry := by
    intro i hi hm
    have hbranches := branchesOf_rule h hi hm (List.mem_cons_of_mem _ List.mem_cons_self)
    simpa only [entryAlternatives, List.isEmpty_nil, if_true, List.map_cons, List.map_nil,
      Validator.branch_terminal] using hbranches
  entry := by
    intro i m members hi hm
    have hbranches := branchesOf_rule h hi hm (List.mem_cons_of_mem _ List.mem_cons_self)
    simpa only [entryAlternatives, List.isEmpty_cons, Bool.false_eq_true, if_false, List.map_map,
      Function.comp_def, Validator.branch_terminal] using hbranches

end

/-! ## Parsing a tree -/

namespace Judges
variable {ι : Type} {v : Validator} {meaning : ι → Pattern ι} {label : ι → String}
  {present : ι → Prop} {i : ι}

theorem not_nullable (hv : Judges v meaning label present) (hi : present i) :
    ∀ b ∈ v.branchesOf (label i), b.nullable = false := by
  intro b hb
  cases hm : meaning i with
  | anyScalar =>
    rw [hv.anyScalar i hi hm] at hb
    rw [List.mem_singleton.mp hb]
    rfl
  | oneOf values =>
    rw [hv.oneOf i values hi hm] at hb
    obtain ⟨value, _, rfl⟩ := List.mem_map.mp hb
    rfl
  | array members =>
    rw [hv.array i members hi hm] at hb
    rw [List.mem_singleton.mp hb]
    rfl
  | mapping members =>
    rw [hv.mapping i members hi hm] at hb
    rw [List.mem_singleton.mp hb]
    rfl

theorem flatMap_first (hv : Judges v meaning label present) (hi : present i) :
    (v.branchesOf (label i)).flatMap Branch.first = (meaning i).heads := by
  cases hm : meaning i with
  | anyScalar => rw [hv.anyScalar i hi hm]; rfl
  | oneOf values =>
    rw [hv.oneOf i values hi hm, List.flatMap_map]
    exact (List.map_eq_flatMap).symm
  | array members => rw [hv.array i members hi hm]; rfl
  | mapping members => rw [hv.mapping i members hi hm]; rfl

theorem firstOf_label (hv : Judges v meaning label present) (hi : present i) :
    v.firstOf (label i) = (meaning i).heads := by
  rw [Validator.firstOf_eq, hv.flatMap_first hi, eraseDups_of_nodup (nodup_heads (hv.proper i hi))]

/-- What begins an item is found by the validator in the order of the
members. -/
theorem firstOf_item (hv : Judges v meaning label present) (hi : present i) {members : List ι}
    (hm : meaning i = .array members) :
    v.firstOfSymbol (itemSymbol (label i) members) = itemHeads meaning members := by
  cases members with
  | nil => rfl
  | cons m rest =>
    show v.firstOf (label i ++ ".item") = _
    rw [Validator.firstOf_eq, hv.item i m rest hi hm, List.flatMap_map]
    rfl

theorem firstOf_entry (hv : Judges v meaning label present) (hi : present i)
    {members : List (String × ι)} (hm : meaning i = .mapping members) :
    v.firstOf (label i ++ ".entry") = entryHeads members := by
  rw [Validator.firstOf_eq]
  cases members with
  | nil => rw [hv.anyEntry i hi hm]; rfl
  | cons m rest =>
    have hkeys : ((m :: rest).map Prod.fst).Nodup := by
      have hproper := hv.proper i hi
      rwa [hm] at hproper
    have hheads : ((m :: rest).map fun k => Terminal.key (some k.1)).Nodup := by
      have hinj := hkeys.map (f := fun name => Terminal.key (some name))
        (fun _ _ heq => Option.some.inj (Terminal.key.inj heq))
      rwa [List.map_map] at hinj
    rw [hv.entry i m rest hi hm, List.flatMap_map]
    show ((m :: rest).flatMap fun k => [Terminal.key (some k.1)]).eraseDups = _
    rw [← List.map_eq_flatMap, eraseDups_of_nodup hheads]
    rfl

/-- A token that cannot begin the entity is a mismatch. -/
theorem parseRule_of_not_begins (hv : Judges v meaning label present) (hi : present i)
    (allowance : Nat) {t : PlacedToken} (ht : (meaning i).begins t.token = false)
    (rest : List PlacedToken) : v.parseRule (allowance + 1) (label i) (t :: rest) = .mismatch := by
  have hnone : ((v.branchesOf (label i)).filter fun b => b.first.any fun f => f.accepts t.token)
      = [] := by
    apply List.filter_eq_nil_iff.mpr
    intro b hb hany
    obtain ⟨f, hf, haccepts⟩ := List.any_eq_true.mp hany
    have hhead : f ∈ (meaning i).heads := by
      rw [← hv.flatMap_first hi]
      exact List.mem_flatMap.mpr ⟨b, hb, hf⟩
    have hbegins : (meaning i).begins t.token = true :=
      List.any_eq_true.mpr ⟨f, hhead, haccepts⟩
    rw [ht] at hbegins
    cases hbegins
  rw [Validator.parseRule, Validator.candidates_of_not_nullable (hv.not_nullable hi), hnone]
  rfl

theorem parseRule_scalar (hv : Judges v meaning label present) (hi : present i) (allowance : Nat)
    {text path : String} (hbegins : (meaning i).begins (.scalar text) = true)
    (rest : List PlacedToken) :
    v.parseRule (allowance + 1) (label i) (⟨.scalar text, path⟩ :: rest) = .parsed rest [] := by
  rw [Validator.parseRule, Validator.candidates_of_not_nullable (hv.not_nullable hi)]
  rcases Pattern.begins_scalar_iff.mp hbegins with hm | ⟨values, hm, hmem⟩
  · rw [hv.anyScalar i hi hm]
    rfl
  · rw [hv.oneOf i values hi hm, List.filter_map, choose_map]
    -- Every literal that is tried is the text, so that all of them take it.
    have hparse : ∀ value ∈ values.filter ((fun b : Branch =>
          b.first.any fun f => f.accepts (TreeToken.scalar text)) ∘
            fun value => Validator.headed (.literal value) []),
        v.parseSymbols (v.parseRule allowance) (label i)
            (Validator.headed (.literal value) []).symbols (⟨.scalar text, path⟩ :: rest)
          = .ofVerdict rest (some []) := by
      intro value hvalue
      have haccepts : (Terminal.literal value).accepts (.scalar text) = true := by
        simpa [Validator.headed] using (List.mem_filter.mp hvalue).2
      simp [Validator.headed, Validator.parseSymbols, Validator.parseSymbol, takeTerminal,
        haccepts, Outcome.ofVerdict]
    rw [choose_eq hparse]
    have hclean : [] ∈ (values.filter ((fun b : Branch =>
          b.first.any fun f => f.accepts (TreeToken.scalar text)) ∘
            fun value => Validator.headed (.literal value) [])).filterMap
              (fun _ => some ([] : List Violation)) := by
      refine List.mem_filterMap.mpr ⟨text, List.mem_filter.mpr ⟨hmem, ?_⟩, rfl⟩
      simp [Validator.headed, Terminal.accepts]
    rw [minOn?_length_eq_nil_iff.mpr hclean]
    rfl

/-! Parts of a container are judged as the walk judges them. -/

theorem reject_tokensAt (rule : String) (expected : List Terminal) (path : String) (n : Node) :
    Violation.reject rule expected (n.tokensAt path) = misfit rule path expected n.head := by
  obtain ⟨tail, htokens⟩ := n.tokensAt_eq_cons path
  rw [htokens]
  rfl

theorem scalarOnly_of_not_accepts {n : Node} (h : Terminal.scalar.accepts n.head = false) :
    scalarOnly n = none := by
  cases n with
  | scalar text => cases h
  | sequence items => rfl
  | mapping entries => rfl

theorem takeTerminal_scalar (path : String) (n : Node) (after : List PlacedToken) :
    takeTerminal .scalar (n.tokensAt path ++ after) = .ofVerdict after (scalarOnly n) := by
  cases n <;> rfl

/-- The members whose heads do not fit have no verdict, so that leaving them
out changes nothing. -/
theorem filterMap_filter_begins (members : List ι) (path : String) (n : Node) :
    (members.filter fun m => (meaning m).begins n.head).filterMap (check meaning label path n)
      = members.filterMap (check meaning label path n) := by
  rw [List.filterMap_filter]
  apply List.filterMap_congr
  intro m _
  by_cases h : (meaning m).begins n.head = true
  · rw [if_pos h]
  · rw [if_neg h, check_of_not_begins (Bool.eq_false_iff.mpr h)]

theorem parseRule_item (hv : Judges v meaning label present) (hi : present i) {m : ι}
    {members : List ι} (hm : meaning i = .array (m :: members)) {allowance : Nat} {path : String}
    {n : Node} {after : List PlacedToken}
    (hparse : ∀ k ∈ m :: members, v.parseRule allowance (label k) (n.tokensAt path ++ after)
      = .ofVerdict after (check meaning label path n k)) :
    v.parseRule (allowance + 1) (label i ++ ".item") (n.tokensAt path ++ after)
      = .ofVerdict after (itemVerdict (m :: members) n (check meaning label path n)) := by
  obtain ⟨tail, htokens⟩ := n.tokensAt_eq_cons path
  have hcandidates : v.candidates (label i ++ ".item") (n.tokensAt path ++ after)
      = ((m :: members).filter fun k => (meaning k).begins n.head).map
          fun k => ⟨[.nonterminal (label k)], (meaning k).heads, false⟩ := by
    rw [htokens, List.cons_append,
      Validator.candidates_map (hv.item i m members hi hm) (fun _ => rfl)]
    rfl
  rw [Validator.parseRule, hcandidates, choose_map, itemVerdict, List.isEmpty_cons,
    if_neg Bool.false_ne_true, ← filterMap_filter_begins]
  apply choose_eq
  intro k hk
  have hcall := hparse k (List.mem_filter.mp hk).1
  show (v.parseRule allowance (label k) (n.tokensAt path ++ after)).andThen _ = _
  rw [hcall]
  exact Outcome.andThen_parsed _

theorem judged_item (hv : Judges v meaning label present) (hi : present i) {members : List ι}
    (hm : meaning i = .array members) {allowance : Nat} {path : String} {n : Node}
    (hparse : ∀ k ∈ members, ∀ after,
      v.parseRule allowance (label k) (n.tokensAt path ++ after)
        = .ofVerdict after (check meaning label path n k)) :
    Judged (v.parseSymbol (v.parseRule (allowance + 1)) (label i) (itemSymbol (label i) members))
      (itemHeads meaning members) (n.tokensAt path)
      (itemVerdict members n (check meaning label path n)) where
  opens := by
    obtain ⟨tail, htokens⟩ := n.tokensAt_eq_cons path
    refine ⟨_, tail, htokens, n.isClose_head, fun hexpected => ?_⟩
    dsimp only at hexpected
    cases members with
    | nil => exact scalarOnly_of_not_accepts (by simpa [itemHeads] using hexpected)
    | cons m rest =>
      have hnone : (m :: rest).filterMap (check meaning label path n) = [] := by
        apply List.filterMap_eq_nil_iff.mpr
        intro k hk
        apply check_of_not_begins
        rw [Pattern.begins, List.any_eq_false]
        intro f hf
        refine List.any_eq_false.mp hexpected f ?_
        rw [itemHeads, List.isEmpty_cons, if_neg Bool.false_ne_true, List.mem_eraseDups]
        exact List.mem_flatMap.mpr ⟨k, hk, hf⟩
      rw [itemVerdict, List.isEmpty_cons, if_neg Bool.false_ne_true, hnone]
      rfl
  skips := skipElement_tokensAt n path
  parses := by
    intro after
    cases members with
    | nil => exact takeTerminal_scalar path n after
    | cons m rest => exact hv.parseRule_item hi hm (fun k hk => hparse k hk after)

theorem parseRule_anyEntry (hv : Judges v meaning label present) (hi : present i)
    (hm : meaning i = .mapping []) (allowance : Nat) (key path : String) (n : Node)
    (after : List PlacedToken) :
    v.parseRule (allowance + 1) (label i ++ ".entry")
        (⟨.key key, path⟩ :: (n.tokensAt path ++ after))
      = .ofVerdict after (scalarOnly n) := by
  have hbranches : v.branchesOf (label i ++ ".entry")
      = [()].map fun _ => Validator.headed (.key none) [.terminal .scalar] := hv.anyEntry i hi hm
  rw [Validator.parseRule, Validator.candidates_map hbranches (fun _ => rfl)]
  show choose _ [Validator.headed (.key none) [.terminal .scalar]] = _
  rw [choose_singleton]
  show ((takeTerminal .scalar (n.tokensAt path ++ after)).andThen _).after [] = _
  rw [takeTerminal_scalar, Outcome.after_nil]
  exact Outcome.andThen_parsed _

theorem parseRule_entry (hv : Judges v meaning label present) (hi : present i) {m : String × ι}
    {members : List (String × ι)} (hm : meaning i = .mapping (m :: members)) {allowance : Nat}
    {key path : String} {n : Node} {after : List PlacedToken}
    (hparse : ∀ k ∈ m :: members, v.parseRule allowance (label k.2) (n.tokensAt path ++ after)
      = .ofVerdict after (check meaning label path n k.2)) :
    v.parseRule (allowance + 1) (label i ++ ".entry")
        (⟨.key key, path⟩ :: (n.tokensAt path ++ after))
      = .ofVerdict after (entryVerdict (m :: members) key n (check meaning label path n)) := by
  have hkeys : ((m :: members).map Prod.fst).Nodup := by
    have hproper := hv.proper i hi
    rwa [hm] at hproper
  have hfits : ∀ k : String × ι,
      ((Validator.headed (.key (some k.1)) [.nonterminal (label k.2)]).first.any
        fun f => f.accepts (TreeToken.key key)) = (k.1 == key) := by
    intro k
    simp [Validator.headed, Terminal.accepts]
  -- No two members stand under one key, so that at most one is tried.
  have hcandidates : v.candidates (label i ++ ".entry")
        (⟨.key key, path⟩ :: (n.tokensAt path ++ after))
      = ((m :: members).find? fun k => k.1 == key).toList.map
          fun k => Validator.headed (.key (some k.1)) [.nonterminal (label k.2)] := by
    rw [Validator.candidates_map (hv.entry i m members hi hm) (fun _ => rfl),
      ← filter_of_nodup_map hkeys (fun _ => beq_iff_eq)]
    simp only [hfits]
  rw [Validator.parseRule, hcandidates, entryVerdict, List.isEmpty_cons,
    if_neg Bool.false_ne_true]
  cases hfind : (m :: members).find? fun k => k.1 == key with
  | none => rfl
  | some k =>
    have hcall := hparse k (List.mem_of_find?_eq_some hfind)
    have hkey := List.find?_some hfind
    have htake : takeTerminal (.key (some k.1)) (⟨.key key, path⟩ :: (n.tokensAt path ++ after))
        = .parsed (n.tokensAt path ++ after) [] := if_pos hkey
    rw [Option.toList_some, List.map_singleton, choose_singleton]
    show (takeTerminal (.key (some k.1)) _).andThen _ = _
    rw [htake]
    show ((v.parseRule allowance (label k.2) (n.tokensAt path ++ after)).andThen _).after [] = _
    rw [hcall, Outcome.after_nil]
    exact Outcome.andThen_parsed _

theorem judged_entry (hv : Judges v meaning label present) (hi : present i)
    {members : List (String × ι)} (hm : meaning i = .mapping members) {allowance : Nat}
    {key path : String} {n : Node}
    (hparse : ∀ k ∈ members, ∀ after,
      v.parseRule allowance (label k.2) (n.tokensAt path ++ after)
        = .ofVerdict after (check meaning label path n k.2)) :
    Judged (v.parseRule (allowance + 1) (label i ++ ".entry")) (entryHeads members)
      (⟨.key key, path⟩ :: n.tokensAt path)
      (entryVerdict members key n (check meaning label path n)) where
  opens := by
    refine ⟨_, _, rfl, rfl, fun hexpected => ?_⟩
    cases members with
    | nil => cases hexpected
    | cons m rest =>
      have hnone : (m :: rest).find? (fun k => k.1 == key) = none := by
        apply List.find?_eq_none.mpr
        intro k hk hkey
        refine List.any_eq_false.mp hexpected (.key (some k.1)) ?_ hkey
        exact List.mem_map.mpr ⟨k, hk, rfl⟩
      rw [entryVerdict, List.isEmpty_cons, if_neg Bool.false_ne_true, hnone]
      rfl
  skips := skipElement_key key path path n
  parses := by
    intro after
    cases members with
    | nil => exact hv.parseRule_anyEntry hi hm allowance key path n after
    | cons m rest => exact hv.parseRule_entry hi hm (fun k hk => hparse k hk after)

theorem parseRule_container (hv : Judges v meaning label present) (hi : present i)
    {allowance : Nat} {opening closing : Terminal} {s : Symbol} {first : PlacedToken}
    {tokens : List PlacedToken} (haccepts : opening.accepts first.token = true)
    (hbranches : v.branchesOf (label i)
      = [Validator.headed opening [.repeated s, .terminal closing]]) :
    v.parseRule (allowance + 1) (label i) (first :: tokens)
      = v.parseSymbols (v.parseRule allowance) (label i)
          [.terminal opening, .repeated s, .terminal closing] (first :: tokens) := by
  rw [Validator.parseRule, Validator.candidates_of_not_nullable (hv.not_nullable hi), hbranches,
    List.filter_cons_of_pos (by simpa [Validator.headed] using haccepts), List.filter_nil,
    choose_singleton]
  rfl

/-- Parsing the tokens of a tree by the rule of an entity comes to what the
walk over the tree comes to, and leaves what follows the tree. The induction
is over the tree: a container spends one nested rule for itself and one for
each part, and its two marks pay for them. -/
theorem parseRule_tokensAt (hv : Judges v meaning label present) (hi : present i) (n : Node)
    (path : String) (rest : List PlacedToken) {allowance : Nat}
    (hallowance : n.word.length ≤ allowance) :
    v.parseRule allowance (label i) (n.tokensAt path ++ rest)
      = .ofVerdict rest (check meaning label path n i) := by
  induction n using Node.induction generalizing i path rest allowance with
  | scalar text =>
    obtain ⟨k, rfl⟩ : ∃ k, allowance = k + 1 := ⟨allowance - 1, by simp at hallowance; omega⟩
    show v.parseRule (k + 1) (label i) (⟨.scalar text, path⟩ :: rest) = _
    rw [check]
    by_cases hbegins : (meaning i).begins (.scalar text) = true
    · rw [if_pos hbegins, hv.parseRule_scalar hi k hbegins]
      rfl
    · rw [if_neg hbegins, hv.parseRule_of_not_begins hi k (Bool.eq_false_iff.mpr hbegins)]
      rfl
  | sequence items ih =>
    obtain ⟨k, rfl⟩ : ∃ k, allowance = k + 1 + 1 :=
      ⟨allowance - 2, by simp at hallowance; omega⟩
    rw [Node.tokensAt, List.cons_append, List.cons_append, List.append_assoc,
      List.singleton_append, check]
    by_cases hbegins : (meaning i).begins .openSequence = true
    · obtain ⟨members, hm⟩ := Pattern.begins_openSequence_iff.mp hbegins
      rw [hv.parseRule_container hi rfl (hv.array i members hi hm), if_pos hbegins]
      refine Validator.parseSymbols_container rfl rfl ?_
      rw [itemTokens_eq_flatMap, hv.firstOf_item hi hm, checkItems_eq_flatMap, hm]
      rw [repeatParse_eq (fun p hp => hv.judged_item hi hm (fun m hmem after => ?_)) rfl rest]
      · simp only [reject_tokensAt, Pattern.items]
      · have hp : p.1 ∈ items := List.fst_mem_of_mem_zipIdx hp
        have hlength := Node.length_word_of_mem_items hp
        exact ih p.1 hp (hv.closed i hi m (by rw [hm]; exact hmem)) _ after (by omega)
    · rw [if_neg hbegins, hv.parseRule_of_not_begins hi _ (Bool.eq_false_iff.mpr hbegins)]
      rfl
  | mapping entries ih =>
    obtain ⟨k, rfl⟩ : ∃ k, allowance = k + 1 + 1 :=
      ⟨allowance - 2, by simp at hallowance; omega⟩
    rw [Node.tokensAt, List.cons_append, List.cons_append, List.append_assoc,
      List.singleton_append, check]
    by_cases hbegins : (meaning i).begins .openMapping = true
    · obtain ⟨members, hm⟩ := Pattern.begins_openMapping_iff.mp hbegins
      rw [hv.parseRule_container hi rfl (hv.mapping i members hi hm), if_pos hbegins]
      refine Validator.parseSymbols_container rfl rfl ?_
      show repeatParse (v.parseRule (k + 1) (label i ++ ".entry"))
        (v.firstOf (label i ++ ".entry")) _ _ = _
      rw [entryTokens_eq_flatMap, hv.firstOf_entry hi hm, checkEntries_eq_flatMap, hm]
      rw [repeatParse_eq (fun e he => hv.judged_entry hi hm (fun m hmem after => ?_)) rfl rest]
      · rfl
      · have hlength := Node.length_word_of_mem_entries he
        exact ih e he (hv.closed i hi m.2 (by rw [hm]; exact List.mem_map_of_mem hmem)) _ after
          (by omega)
    · rw [if_neg hbegins, hv.parseRule_of_not_begins hi _ (Bool.eq_false_iff.mpr hbegins)]
      rfl

/-- What a validator says of a document is what the walk says. -/
theorem violationsWithin?_eq (hv : Judges v meaning label present) (hi : present i)
    (hstart : v.start = label i) (n : Node) {allowance : Nat}
    (hallowance : n.tokens.length ≤ allowance) :
    v.violationsWithin? allowance n = some (treeViolations meaning label i n) := by
  have hword : n.word.length ≤ allowance := by
    rw [Node.word, List.length_map]
    exact hallowance
  have hparse := hv.parseRule_tokensAt hi n Path.root [] hword
  rw [List.append_nil] at hparse
  unfold Validator.violationsWithin? treeViolations
  rw [hstart, show n.tokens = n.tokensAt Path.root from rfl, hparse]
  cases hcheck : check meaning label Path.root n i with
  | none =>
    dsimp only [Outcome.ofVerdict]
    rw [reject_tokensAt, hv.firstOf_label hi]
    rfl
  | some recorded => rfl

end Judges

/-- A validator can be made of a grammar that describes patterns, and it says
of every document what the walk says. -/
theorem exists_validator {ι : Type} {g : Grammar} {meaning : ι → Pattern ι} {label : ι → String}
    {present : ι → Prop} {i : ι} (h : Describes g meaning label present) (hi : present i)
    (hstart : g.start = label i) :
    ∃ v, Validator.ofGrammar g = .ok v ∧
      ∀ n, v.violations? n = some (treeViolations meaning label i n) := by
  have hmem : g.start ∈ g.rules.map Rule.lhs := by
    rw [hstart]
    exact h.exists_rule hi
  refine ⟨Validator.prepared g, Validator.ofGrammar_eq_ok h.nodup hmem
    (fun r hr s hs name hname => h.exists_rule_of_reference hr hs hname), fun n => ?_⟩
  -- The start has a rule, so that the allowance is more than the number of tokens.
  have hrules : 1 ≤ (Validator.prepared g).rules.length := by
    rw [Validator.prepared, List.length_map, ← List.length_map Rule.lhs]
    exact List.length_pos_of_mem hmem
  refine (judges_prepared h).violationsWithin?_eq hi hstart n ?_
  calc n.tokens.length
      ≤ 1 * (n.tokens.length + 1) := by omega
    _ ≤ (Validator.prepared g).rules.length * (n.tokens.length + 1) :=
        Nat.mul_le_mul_right _ hrules
    _ ≤ (Validator.prepared g).allowance n := Nat.le_succ _

/-- The validator of a schema's grammar reports of every document what the
walk over its tree reports, violation by violation and in order. -/
theorem violations_eq_treeViolations {file source : String} {root : Option String} {s : Resolved}
    (h : resolveSource file source root = .ok s) (name : String) :
    ∃ v, Validator.ofGrammar (s.grammar name) = .ok v ∧
      ∀ n, v.violations? n = some (treeViolations s.pattern s.nonterminalAt s.root n) := by
  obtain ⟨ds, es, _, _, hcloses, hproper⟩ := resolveSource_eq_ok h
  exact exists_validator (Resolved.describes_grammar hcloses hproper name) hcloses.present_root rfl

/-- An item that fits neither member and an entry under no known key, each
reported once and in order; the leaf between them is fine. -/
theorem nested_violations :
    resolveSource nestedFile nestedSource none = .ok nested ∧
      ∃ v, Validator.ofGrammar (nested.grammar "Tree") = .ok v ∧
      v.violations? (.mapping
          [("below", .sequence [.sequence [], .scalar "x", .mapping [("below", .scalar "y")]]),
           ("value", .scalar "1"), ("weight", .scalar "2")])
        = some
          [{ path := "/below/0", found := "sequence", expected := ["'\x7b'", "\"x\"", "\"y\""],
             rule := "array.children" },
           { path := "/below/2/below", found := "key \"below\"",
             expected := ["KEY(\"value\")", "KEY(\"below\")"], rule := "mapping.tree" },
           { path := "/weight", found := "key \"weight\"",
             expected := ["KEY(\"value\")", "KEY(\"below\")"], rule := "mapping.tree" }] := by
  obtain ⟨v, hv, hviolations⟩ := violations_eq_treeViolations resolveSource_nested "Tree"
  refine ⟨resolveSource_nested, v, hv, ?_⟩
  rw [hviolations]
  decide +kernel

end TreeSchema.Validation
