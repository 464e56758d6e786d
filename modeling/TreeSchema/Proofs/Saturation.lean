import Mathlib.Data.List.Perm.Subperm
import TreeSchema.Proofs.Termination
/-
  Saturation

  First terminals and nullable marks are gathered in rounds that read the
  table they are adding to. Every round only adds, and there is only so much
  to add, so that the rounds come to an end however the rules call each other
  (`settles_firstTable`). What they have found by then is what the grammar
  says: nothing is added that is not so (`holds_firstTable`), and a table that
  a round leaves as it is contains all that is so (`mem_ofSymbol_of_first`).
-/

namespace TreeSchema.Grammar

/-! ## What can begin a symbol -/

/-- The terminal can begin a symbol of the list before which there are only
symbols that can stand for no tokens. -/
def Leads (g : Grammar) (first : Symbol → Terminal → Prop) (symbols : List Symbol)
    (t : Terminal) : Prop :=
  ∃ before s after, symbols = before ++ s :: after ∧ (∀ x ∈ before, g.Nullable x) ∧ first s t

/-- The equations of what can begin a symbol. -/
structure SolvesFirst (g : Grammar) (first : Symbol → Terminal → Prop) : Prop where
  terminal : ∀ t u, first (.terminal t) u ↔ u = t
  repeated : ∀ s u, first (.repeated s) u ↔ first s u
  nonterminal : ∀ name u, first (.nonterminal name) u ↔
    ∃ r ∈ g.rules, r.lhs = name ∧ ∃ alternative ∈ r.alternatives, g.Leads first alternative u

/-- The terminals that can begin a symbol. -/
inductive First (g : Grammar) : Symbol → Terminal → Prop where
  | terminal {t : Terminal} : First g (.terminal t) t
  | repeated {s : Symbol} {t : Terminal} (inner : First g s t) : First g (.repeated s) t
  | nonterminal {r : Rule} {before after : List Symbol} {s : Symbol} {t : Terminal}
    (rule : r ∈ g.rules) (mem : before ++ s :: after ∈ r.alternatives)
    (nullable : ∀ x ∈ before, g.Nullable x) (first : First g s t) :
    First g (.nonterminal r.lhs) t

section
variable {g : Grammar}

theorem solvesFirst_first (g : Grammar) : g.SolvesFirst g.First where
  terminal := by
    intro t u
    constructor
    · intro h
      cases h
      rfl
    · rintro rfl
      exact .terminal
  repeated := by
    intro s u
    constructor
    · intro h
      cases h with
      | repeated inner => exact inner
    · exact .repeated
  nonterminal := by
    intro name u
    constructor
    · intro h
      cases h with
      | nonterminal rule mem nullable first =>
        exact ⟨_, rule, rfl, _, mem, _, _, _, rfl, nullable, first⟩
    · rintro ⟨r, hr, rfl, _, hmem, before, s, after, rfl, hbefore, hfirst⟩
      exact .nonterminal hr hmem hbefore hfirst

/-- Every other solution of the equations contains it. -/
theorem First.of_solves {first : Symbol → Terminal → Prop} (h : g.SolvesFirst first)
    {s : Symbol} {t : Terminal} (hfirst : g.First s t) : first s t := by
  induction hfirst with
  | terminal => exact (h.terminal _ _).mpr rfl
  | repeated _ ih => exact (h.repeated _ _).mpr ih
  | nonterminal rule mem nullable _ ih =>
    exact (h.nonterminal _ _).mpr ⟨_, rule, rfl, _, mem, _, _, _, rfl, nullable, ih⟩

/-! ## What can stand for no tokens -/

theorem nullable_repeated (g : Grammar) (s : Symbol) : g.Nullable (.repeated s) := .stop .nil

theorem derives_nil {symbols : List Symbol} (h : ∀ s ∈ symbols, g.Nullable s) :
    g.Derives symbols [] := by
  induction symbols with
  | nil => exact .nil
  | cons s rest ih =>
    obtain ⟨hs, hrest⟩ := List.forall_mem_cons.mp h
    exact Derives.append hs (ih hrest)

end

/-! ## What a table says of symbols -/

theorem mem_addTerminals {known found : List Terminal} {t : Terminal} :
    t ∈ addTerminals known found ↔ t ∈ known ∨ t ∈ found := by
  rw [addTerminals_eq_foldl, mem_foldl_addNew]

theorem prefix_addTerminals (known found : List Terminal) :
    known <+: addTerminals known found := by
  rw [addTerminals_eq_foldl, foldl_addNew_eq]
  exact List.prefix_append _ _

theorem nodup_addTerminals {known : List Terminal} (h : known.Nodup) (found : List Terminal) :
    (addTerminals known found).Nodup := by
  rw [addTerminals_eq_foldl]
  exact nodup_foldl_addNew h found

namespace FirstTable
variable {table : FirstTable} {symbols : List Symbol} {known : List Terminal} {t : Terminal}

theorem nullable_ofSymbolsFrom :
    (table.ofSymbolsFrom known symbols).nullable = true ↔
      ∀ s ∈ symbols, (table.ofSymbol s).nullable = true := by
  induction symbols generalizing known with
  | nil => simp [ofSymbolsFrom]
  | cons s rest ih =>
    rw [ofSymbolsFrom, List.forall_mem_cons]
    split
    · next hs => simp [ih, hs]
    · next hs => simp [hs]

theorem mem_ofSymbolsFrom :
    t ∈ (table.ofSymbolsFrom known symbols).terminals ↔
      t ∈ known ∨ ∃ before s after, symbols = before ++ s :: after ∧
        (∀ x ∈ before, (table.ofSymbol x).nullable = true) ∧ t ∈ (table.ofSymbol s).terminals := by
  induction symbols generalizing known with
  | nil => simp [ofSymbolsFrom]
  | cons s rest ih =>
    rw [ofSymbolsFrom]
    constructor
    · intro h
      split at h
      · next hs =>
        rcases ih.mp h with h | ⟨before, x, after, rfl, hbefore, hx⟩
        · rcases mem_addTerminals.mp h with h | h
          · exact Or.inl h
          · exact Or.inr ⟨[], s, rest, rfl, by simp, h⟩
        · exact Or.inr ⟨s :: before, x, after, rfl, List.forall_mem_cons.mpr ⟨hs, hbefore⟩, hx⟩
      · rcases mem_addTerminals.mp h with h | h
        · exact Or.inl h
        · exact Or.inr ⟨[], s, rest, rfl, by simp, h⟩
    · intro h
      have hkept : t ∈ known ∨ t ∈ (table.ofSymbol s).terminals →
          t ∈ addTerminals known (table.ofSymbol s).terminals := mem_addTerminals.mpr
      rcases h with h | ⟨before, x, after, heq, hbefore, hx⟩
      · split
        · exact ih.mpr (Or.inl (hkept (Or.inl h)))
        · exact hkept (Or.inl h)
      · cases before with
        | nil =>
          obtain ⟨rfl, rfl⟩ := List.cons.inj heq
          split
          · exact ih.mpr (Or.inl (hkept (Or.inr hx)))
          · exact hkept (Or.inr hx)
        | cons y before =>
          obtain ⟨rfl, rfl⟩ := List.cons.inj heq
          obtain ⟨hs, hbefore⟩ := List.forall_mem_cons.mp hbefore
          rw [if_pos hs]
          exact ih.mpr (Or.inr ⟨before, x, after, rfl, hbefore, hx⟩)

theorem nodup_ofSymbolsFrom (h : known.Nodup) :
    (table.ofSymbolsFrom known symbols).terminals.Nodup := by
  induction symbols generalizing known with
  | nil => exact h
  | cons s rest ih =>
    rw [ofSymbolsFrom]
    split
    · exact ih (nodup_addTerminals h _)
    · exact nodup_addTerminals h _

theorem nullable_ofSymbols :
    (table.ofSymbols symbols).nullable = true ↔
      ∀ s ∈ symbols, (table.ofSymbol s).nullable = true := nullable_ofSymbolsFrom

theorem mem_ofSymbols :
    t ∈ (table.ofSymbols symbols).terminals ↔
      ∃ before s after, symbols = before ++ s :: after ∧
        (∀ x ∈ before, (table.ofSymbol x).nullable = true) ∧ t ∈ (table.ofSymbol s).terminals := by
  rw [ofSymbols, mem_ofSymbolsFrom]
  simp

/-! ## Rounds as single additions -/

/-- Adds what the table says of one alternative to its nonterminal. -/
def learn (table : FirstTable) (alternative : String × List Symbol) : FirstTable :=
  table.absorb alternative.1 (table.ofSymbols alternative.2)

/-- The alternatives of all rules, each with its nonterminal. -/
def alternativesOf (rules : List Rule) : List (String × List Symbol) :=
  rules.flatMap fun r => r.alternatives.map fun symbols => (r.lhs, symbols)

theorem mem_alternativesOf {rules : List Rule} {name : String} :
    (name, symbols) ∈ alternativesOf rules ↔
      ∃ r ∈ rules, r.lhs = name ∧ symbols ∈ r.alternatives := by
  simp only [alternativesOf, List.mem_flatMap, List.mem_map, Prod.mk.injEq]
  constructor
  · rintro ⟨r, hr, _, hmem, rfl, rfl⟩
    exact ⟨r, hr, rfl, hmem⟩
  · rintro ⟨r, hr, rfl, hmem⟩
    exact ⟨r, hr, _, hmem, rfl, rfl⟩

theorem round_eq_foldl (rules : List Rule) (table : FirstTable) :
    round rules table = (alternativesOf rules).foldl learn table := by
  unfold round alternativesOf
  rw [List.foldl_flatMap]
  congr 1
  funext table r
  rw [List.foldl_map]
  rfl

/-- What every single addition keeps, a round keeps. -/
theorem round_keeps {P : FirstTable → Prop} {rules : List Rule}
    (hlearn : ∀ t, P t → ∀ a ∈ alternativesOf rules, P (t.learn a)) (h : P table) :
    P (round rules table) := by
  rw [round_eq_foldl]
  exact List.foldlRecOn _ _ h hlearn

end FirstTable

/-! ## Tables only grow -/

/-- No more is known than that. -/
structure FirstSet.Within (known more : FirstSet) : Prop where
  terminals : known.terminals <+: more.terminals
  nullable : known.nullable = true → more.nullable = true

namespace FirstSet
variable {a b c : FirstSet}

/-- How much is known: the terminals, and one for the mark. -/
def weight (known : FirstSet) : Nat := known.terminals.length + known.nullable.toNat

theorem Within.refl (a : FirstSet) : a.Within a := ⟨List.prefix_refl _, id⟩

theorem Within.trans (h : a.Within b) (h' : b.Within c) : a.Within c :=
  ⟨h.terminals.trans h'.terminals, fun ha => h'.nullable (h.nullable ha)⟩

theorem Within.toNat_le (h : a.Within b) : a.nullable.toNat ≤ b.nullable.toNat := by
  cases ha : a.nullable with
  | false => exact Nat.zero_le _
  | true => rw [h.nullable ha]

theorem Within.weight_le (h : a.Within b) : a.weight ≤ b.weight := by
  have hlength := h.terminals.length_le
  have hmark := h.toNat_le
  unfold weight
  omega

/-- What has grown and weighs no more is the same. -/
theorem Within.eq_of_weight_le (h : a.Within b) (hle : b.weight ≤ a.weight) : a = b := by
  have hlength := h.terminals.length_le
  have hmark := h.toNat_le
  unfold weight at hle
  have hterminals : a.terminals = b.terminals := h.terminals.eq_of_length (by omega)
  have hnullable : a.nullable = b.nullable := by
    have heq : a.nullable.toNat = b.nullable.toNat := by omega
    cases ha : a.nullable <;> cases hb : b.nullable <;> simp_all
  cases a
  cases b
  simp_all

end FirstSet

namespace FirstTable
variable {table a b c : FirstTable} {lhs : String} {found : FirstSet} {rules : List Rule}

/-- The tables are about the same nonterminals, and one says no more of each
than the other. -/
def Within (a b : FirstTable) : Prop :=
  List.Forall₂ (fun x y : String × FirstSet => x.1 = y.1 ∧ x.2.Within y.2) a b

theorem Within.refl (a : FirstTable) : a.Within a :=
  List.forall₂_same.mpr fun x _ => ⟨rfl, .refl x.2⟩

theorem Within.trans (h : a.Within b) (h' : b.Within c) : a.Within c := by
  unfold Within at *
  induction h generalizing c with
  | nil => exact h'
  | cons hxy _ ih =>
    cases h' with
    | cons hyz hrest => exact .cons ⟨hxy.1.trans hyz.1, hxy.2.trans hyz.2⟩ (ih hrest)

/-- How much a table says. -/
def weight : FirstTable → Nat
  | [] => 0
  | (_, known) :: rest => known.weight + weight rest

theorem Within.weight_le (h : a.Within b) : a.weight ≤ b.weight := by
  unfold Within at h
  induction h with
  | nil => exact Nat.le_refl _
  | cons hxy _ ih => exact Nat.add_le_add hxy.2.weight_le ih

theorem Within.eq_of_weight_le (h : a.Within b) (hle : b.weight ≤ a.weight) : a = b := by
  unfold Within at h
  induction h with
  | nil => rfl
  | @cons x y rest others hxy hrest ih =>
    obtain ⟨name, known⟩ := x
    obtain ⟨name', more⟩ := y
    obtain ⟨hname, hknown⟩ := hxy
    dsimp only at hname hknown
    subst hname
    have hfirst := hknown.weight_le
    have hothers : weight rest ≤ weight others := Within.weight_le hrest
    simp only [weight] at hle
    rw [hknown.eq_of_weight_le (by omega), ih (by omega)]

theorem within_absorb (table : FirstTable) (lhs : String) (found : FirstSet) :
    table.Within (table.absorb lhs found) := by
  unfold Within absorb
  rw [List.forall₂_map_right_iff]
  apply List.forall₂_same.mpr
  rintro ⟨name, known⟩ _
  by_cases hname : name = lhs
  · simp only [hname, if_true, true_and]
    refine ⟨prefix_addTerminals _ _, fun h => ?_⟩
    simp [h]
  · simp only [hname, if_false, true_and]
    exact .refl known

theorem within_learn (table : FirstTable) (alternative : String × List Symbol) :
    table.Within (table.learn alternative) := within_absorb table _ _

theorem within_foldl_learn (alternatives : List (String × List Symbol)) (table : FirstTable) :
    table.Within (alternatives.foldl learn table) := by
  induction alternatives generalizing table with
  | nil => exact .refl table
  | cons alternative rest ih => exact (within_learn table alternative).trans (ih _)

theorem within_round (rules : List Rule) (table : FirstTable) :
    table.Within (round rules table) := by
  rw [round_eq_foldl]
  exact within_foldl_learn _ table

/-- If additions come to nothing in the end, then so does each of them. -/
theorem learn_eq_of_foldl_eq {alternatives : List (String × List Symbol)}
    (h : alternatives.foldl learn table = table) {alternative : String × List Symbol}
    (hmem : alternative ∈ alternatives) : table.learn alternative = table := by
  induction alternatives with
  | nil => cases hmem
  | cons first rest ih =>
    have hfirst : table.learn first = table := by
      have hlater := within_foldl_learn rest (table.learn first)
      rw [List.foldl_cons] at h
      rw [h] at hlater
      exact ((within_learn table first).eq_of_weight_le hlater.weight_le).symm
    rw [List.foldl_cons, hfirst] at h
    rcases List.mem_cons.mp hmem with rfl | hmem
    · exact hfirst
    · exact ih h hmem

/-! ## There is only so much to add -/

def written : Symbol → List Terminal
  | .terminal t => [t]
  | .nonterminal _ => []
  | .repeated inner => written inner

def writtenIn (rules : List Rule) : List Terminal :=
  (rules.flatMap fun r => r.alternatives.flatten).flatMap written

theorem length_written (s : Symbol) : (written s).length = terminalCount s := by
  induction s with
  | terminal t => rfl
  | nonterminal name => rfl
  | repeated inner ih => exact ih

theorem foldl_terminalCount (symbols : List Symbol) (n : Nat) :
    (symbols.map terminalCount).foldl (· + ·) n = n + (symbols.flatMap written).length := by
  induction symbols generalizing n with
  | nil => rfl
  | cons s rest ih =>
    rw [List.map_cons, List.foldl_cons, ih, List.flatMap_cons, List.length_append, length_written]
    omega

theorem terminalsIn_eq (rules : List Rule) : terminalsIn rules = (writtenIn rules).length := by
  unfold terminalsIn writtenIn
  rw [← List.map_flatMap, foldl_terminalCount]
  omega

/-- Every nonterminal has terminals of the rules only, and each of them
once. -/
def Bounded (rules : List Rule) (table : FirstTable) : Prop :=
  ∀ entry ∈ table, entry.2.terminals.Nodup ∧ ∀ t ∈ entry.2.terminals, t ∈ writtenIn rules

theorem Bounded.weight_le (h : table.Bounded rules) :
    table.weight ≤ table.length * (terminalsIn rules + 1) := by
  induction table with
  | nil => exact Nat.zero_le _
  | cons entry rest ih =>
    obtain ⟨⟨hnodup, hwritten⟩, hrest⟩ := List.forall_mem_cons.mp h
    have hlength : entry.2.terminals.length ≤ terminalsIn rules := by
      rw [terminalsIn_eq]
      exact (List.subperm_of_subset hnodup hwritten).length_le
    have hmark := Bool.toNat_le entry.2.nullable
    calc weight (entry :: rest) = entry.2.weight + weight rest := rfl
      _ ≤ (terminalsIn rules + 1) + rest.length * (terminalsIn rules + 1) := by
          unfold FirstSet.weight
          have := ih hrest
          omega
      _ = (entry :: rest).length * (terminalsIn rules + 1) := by
          rw [List.length_cons, Nat.succ_mul, Nat.add_comm]

theorem mem_table_of_get {name : String} {t : Terminal}
    (h : t ∈ (table.get name).terminals) : ∃ entry ∈ table, t ∈ entry.2.terminals := by
  induction table with
  | nil => cases h
  | cons entry rest ih =>
    rw [get_cons] at h
    split at h
    · exact ⟨entry, List.mem_cons_self, h⟩
    · obtain ⟨found, hmem, ht⟩ := ih h
      exact ⟨found, List.mem_cons_of_mem _ hmem, ht⟩

theorem Bounded.mem_ofSymbol (h : table.Bounded rules) {s : Symbol} {t : Terminal}
    (ht : t ∈ (table.ofSymbol s).terminals) : t ∈ written s ∨ t ∈ writtenIn rules := by
  induction s with
  | terminal u => exact Or.inl ht
  | nonterminal name =>
    obtain ⟨entry, hentry, ht⟩ := mem_table_of_get ht
    exact Or.inr ((h entry hentry).2 t ht)
  | repeated inner ih => exact ih ht

theorem Bounded.learn (h : table.Bounded rules) {alternative : String × List Symbol}
    (hmem : alternative ∈ alternativesOf rules) : (table.learn alternative).Bounded rules := by
  obtain ⟨lhs, symbols⟩ := alternative
  obtain ⟨r, hr, _, hsymbols⟩ := mem_alternativesOf.mp hmem
  have hfound : ∀ t ∈ (table.ofSymbols symbols).terminals, t ∈ writtenIn rules := by
    intro t ht
    obtain ⟨before, s, after, rfl, _, ht⟩ := mem_ofSymbols.mp ht
    rcases h.mem_ofSymbol ht with ht | ht
    · have hs : s ∈ r.alternatives.flatten :=
        List.mem_flatten.mpr ⟨_, hsymbols, List.mem_append_right _ List.mem_cons_self⟩
      exact List.mem_flatMap.mpr ⟨s, List.mem_flatMap.mpr ⟨r, hr, hs⟩, ht⟩
    · exact ht
  intro entry hentry
  unfold FirstTable.learn absorb at hentry
  obtain ⟨known, hknown, rfl⟩ := List.mem_map.mp hentry
  obtain ⟨hnodup, hwritten⟩ := h known hknown
  dsimp only
  split
  · refine ⟨nodup_addTerminals hnodup _, ?_⟩
    intro t ht
    rcases mem_addTerminals.mp ht with ht | ht
    · exact hwritten t ht
    · exact hfound t ht
  · exact ⟨hnodup, hwritten⟩

/-! ## Rounds come to an end -/

/-- Rounds until one adds nothing, with no bound on their number. -/
inductive Settles (rules : List Rule) : FirstTable → FirstTable → Prop where
  | stop {table : FirstTable} (same : round rules table = table) : Settles rules table table
  | again {table result : FirstTable} (more : round rules table ≠ table)
    (next : Settles rules (round rules table) result) : Settles rules table result

theorem Settles.round_eq {result : FirstTable} (h : Settles rules table result) :
    round rules result = result := by
  induction h with
  | stop same => exact same
  | again _ _ ih => exact ih

/-- What every single addition keeps holds in the end. -/
theorem Settles.keeps {P : FirstTable → Prop} {result : FirstTable}
    (h : Settles rules table result)
    (hlearn : ∀ t, P t → ∀ a ∈ alternativesOf rules, P (t.learn a)) (hstart : P table) :
    P result := by
  induction h with
  | stop _ => exact hstart
  | again _ _ ih => exact ih (round_keeps hlearn hstart)

/-- A round that adds something adds to the weight of the table, so that the
rounds left and the weight together never become less. -/
theorem settles_saturate {fuel : Nat} (h : table.Bounded rules)
    (hfuel : table.length * (terminalsIn rules + 1) < table.weight + fuel) :
    Settles rules table (saturate rules fuel table) := by
  induction fuel generalizing table with
  | zero =>
    have := h.weight_le
    omega
  | succ k ih =>
    rw [saturate]
    split
    · next same => exact .stop same
    · next more =>
      have hgrown := within_round rules table
      have hlength : (round rules table).length = table.length := hgrown.length_eq.symm
      have hweight : table.weight < (round rules table).weight := by
        by_contra hle
        exact more (hgrown.eq_of_weight_le (by omega)).symm
      refine .again more (ih (round_keeps (fun t ht a ha => ht.learn ha) h) ?_)
      rw [hlength]
      omega

def unknown (rules : List Rule) : FirstTable := rules.map fun r => (r.lhs, .empty)

theorem bounded_unknown (rules : List Rule) : (unknown rules).Bounded rules := by
  intro entry hentry
  obtain ⟨r, _, rfl⟩ := List.mem_map.mp hentry
  simp [FirstSet.empty]

theorem settles_firstTable (rules : List Rule) :
    Settles rules (unknown rules) (firstTable rules) := by
  refine settles_saturate (bounded_unknown rules) ?_
  unfold unknown firstRounds
  rw [List.length_map]
  omega

/-! ## What has been found -/

section
variable {g : Grammar} {name : String} {s : Symbol} {t : Terminal} {symbols : List Symbol}

/-- The table has a line for every rule, and all that it says is so. -/
structure Holds (g : Grammar) (table : FirstTable) : Prop where
  keys : table.map Prod.fst = g.rules.map Rule.lhs
  first : ∀ name, ∀ t ∈ (table.get name).terminals, g.First (.nonterminal name) t
  nullable : ∀ name, (table.get name).nullable = true → g.Nullable (.nonterminal name)

theorem Holds.first_ofSymbol (h : table.Holds g) (ht : t ∈ (table.ofSymbol s).terminals) :
    g.First s t := by
  induction s with
  | terminal u =>
    obtain rfl := List.mem_singleton.mp ht
    exact .terminal
  | nonterminal name => exact h.first name t ht
  | repeated inner ih => exact .repeated (ih ht)

theorem Holds.nullable_ofSymbol (h : table.Holds g) (hs : (table.ofSymbol s).nullable = true) :
    g.Nullable s := by
  cases s with
  | terminal u => cases hs
  | nonterminal name => exact h.nullable name hs
  | repeated inner => exact nullable_repeated g inner

theorem Holds.leads_ofSymbols (h : table.Holds g)
    (ht : t ∈ (table.ofSymbols symbols).terminals) : g.Leads g.First symbols t := by
  obtain ⟨before, s, after, rfl, hbefore, ht⟩ := mem_ofSymbols.mp ht
  exact ⟨before, s, after, rfl, fun x hx => h.nullable_ofSymbol (hbefore x hx),
    h.first_ofSymbol ht⟩

theorem Holds.derives_ofSymbols (h : table.Holds g)
    (hnull : (table.ofSymbols symbols).nullable = true) : g.Derives symbols [] :=
  derives_nil fun x hx => h.nullable_ofSymbol (nullable_ofSymbols.mp hnull x hx)

theorem Holds.learn (h : table.Holds g) {alternative : String × List Symbol}
    (hmem : alternative ∈ alternativesOf g.rules) : (table.learn alternative).Holds g := by
  obtain ⟨lhs, symbols⟩ := alternative
  obtain ⟨r, hr, rfl, hsymbols⟩ := mem_alternativesOf.mp hmem
  have hkey : r.lhs ∈ table.map Prod.fst := by
    rw [h.keys]
    exact List.mem_map_of_mem hr
  refine ⟨?_, fun name => ?_, fun name => ?_⟩
  · rw [FirstTable.learn, keys_absorb]
    exact h.keys
  · by_cases hname : name = r.lhs
    · subst hname
      intro t ht
      rw [FirstTable.learn, get_absorb_self hkey] at ht
      rcases mem_addTerminals.mp ht with ht | ht
      · exact h.first _ t ht
      · exact ((solvesFirst_first g).nonterminal _ _).mpr
          ⟨r, hr, rfl, symbols, hsymbols, h.leads_ofSymbols ht⟩
    · rw [FirstTable.learn, get_absorb_of_ne hname]
      exact h.first name
  · by_cases hname : name = r.lhs
    · subst hname
      rw [FirstTable.learn, get_absorb_self hkey, Bool.or_eq_true]
      rintro (hnull | hnull)
      · exact h.nullable _ hnull
      · exact Derives.of_rule hr hsymbols (h.derives_ofSymbols hnull)
    · rw [FirstTable.learn, get_absorb_of_ne hname]
      exact h.nullable name

theorem holds_firstTable (g : Grammar) : (firstTable g.rules).Holds g := by
  refine (settles_firstTable g.rules).keeps (fun t ht a ha => ht.learn ha) ⟨?_, ?_, ?_⟩
  · unfold unknown
    rw [List.map_map]
    rfl
  · intro name t ht
    rw [unknown, get_initial] at ht
    cases ht
  · intro name hnull
    rw [unknown, get_initial] at hnull
    cases hnull

/-- A table that a round leaves as it is has of each rule what it says of the
alternatives. -/
theorem closed_of_round_eq (h : round g.rules table = table)
    (hkeys : table.map Prod.fst = g.rules.map Rule.lhs) {r : Rule} (hr : r ∈ g.rules)
    (hsymbols : symbols ∈ r.alternatives) :
    (∀ t ∈ (table.ofSymbols symbols).terminals, t ∈ (table.get r.lhs).terminals) ∧
      ((table.ofSymbols symbols).nullable = true → (table.get r.lhs).nullable = true) := by
  rw [round_eq_foldl] at h
  have hlearn : table.absorb r.lhs (table.ofSymbols symbols) = table :=
    learn_eq_of_foldl_eq h (mem_alternativesOf.mpr ⟨r, hr, rfl, hsymbols⟩)
  have hkey : r.lhs ∈ table.map Prod.fst := by
    rw [hkeys]
    exact List.mem_map_of_mem hr
  have hget : (table.absorb r.lhs (table.ofSymbols symbols)).get r.lhs = _ := get_absorb_self hkey
  rw [hlearn] at hget
  rw [hget]
  refine ⟨fun t ht => mem_addTerminals.mpr (Or.inr ht), fun hnull => ?_⟩
  simp [hnull]

theorem nullable_ofSymbol_of_derives (h : round g.rules table = table)
    (hkeys : table.map Prod.fst = g.rules.map Rule.lhs) {w : List TreeToken}
    (hderives : g.Derives symbols w) (hw : w = []) :
    ∀ x ∈ symbols, (table.ofSymbol x).nullable = true := by
  induction hderives with
  | nil => simp
  | terminal _ _ _ => cases hw
  | nonterminal rule mem _ _ ihinner ih =>
    obtain ⟨rfl, rfl⟩ := List.append_eq_nil_iff.mp hw
    have hinner := nullable_ofSymbols.mpr (ihinner rfl)
    exact List.forall_mem_cons.mpr ⟨(closed_of_round_eq h hkeys rule mem).2 hinner, ih rfl⟩
  | stop _ ih => exact List.forall_mem_cons.mpr ⟨rfl, ih hw⟩
  | more _ _ _ ih => exact ih (List.append_eq_nil_iff.mp hw).2

theorem mem_ofSymbol_of_first (h : round g.rules table = table)
    (hkeys : table.map Prod.fst = g.rules.map Rule.lhs) (hfirst : g.First s t) :
    t ∈ (table.ofSymbol s).terminals := by
  induction hfirst with
  | terminal => exact List.mem_singleton.mpr rfl
  | repeated _ ih => exact ih
  | nonterminal rule mem nullable _ ih =>
    refine (closed_of_round_eq h hkeys rule mem).1 _ (mem_ofSymbols.mpr ?_)
    refine ⟨_, _, _, rfl, fun x hx => ?_, ih⟩
    exact nullable_ofSymbol_of_derives h hkeys (nullable x hx) rfl x List.mem_cons_self

/-- The table that the rounds settle on says of a list of symbols just what
is so. -/
theorem ofSymbols_firstTable (g : Grammar) (symbols : List Symbol) :
    (((firstTable g.rules).ofSymbols symbols).nullable = true ↔ g.Derives symbols []) ∧
      ∀ t, t ∈ ((firstTable g.rules).ofSymbols symbols).terminals ↔ g.Leads g.First symbols t := by
  have hholds := holds_firstTable g
  have hround := (settles_firstTable g.rules).round_eq
  have hnullable : ∀ {rest : List Symbol}, g.Derives rest [] →
      ∀ x ∈ rest, ((firstTable g.rules).ofSymbol x).nullable = true :=
    fun h => nullable_ofSymbol_of_derives hround hholds.keys h rfl
  refine ⟨⟨hholds.derives_ofSymbols, fun h => nullable_ofSymbols.mpr (hnullable h)⟩, fun t => ?_⟩
  constructor
  · exact hholds.leads_ofSymbols
  · rintro ⟨before, s, after, rfl, hbefore, hfirst⟩
    refine mem_ofSymbols.mpr ⟨before, s, after, rfl, fun x hx => ?_, ?_⟩
    · exact hnullable (hbefore x hx) x List.mem_cons_self
    · exact mem_ofSymbol_of_first hround hholds.keys hfirst

end

end FirstTable

end TreeSchema.Grammar

/-! ## What branches know -/

namespace TreeSchema.Validation

open Grammar (FirstTable)

/-- The rounds over the rules of a grammar come to an end. Of the table that
they end with every branch has whether it can stand for no tokens, and which
terminals can begin it, each of them once; and what can begin a symbol is the
least solution of its equations. -/
theorem branches_know_first {g : Grammar} {v : Validator} (h : Validator.ofGrammar g = .ok v) :
    (g.SolvesFirst g.First ∧
      ∀ first, g.SolvesFirst first → ∀ s t, g.First s t → first s t) ∧
    v.grammar = g ∧
    ∃ table, FirstTable.Settles g.rules (FirstTable.unknown g.rules) table ∧
      ∀ r ∈ v.rules, ∀ b ∈ r.branches, b = Validator.branch table b.symbols ∧
        (b.nullable = true ↔ g.Derives b.symbols []) ∧
        (∀ t, t ∈ b.first ↔ g.Leads g.First b.symbols t) ∧ b.first.Nodup := by
  refine ⟨⟨Grammar.solvesFirst_first g, fun first hfirst s t => Grammar.First.of_solves hfirst⟩,
    Validator.grammar_of_ofGrammar h, _, FirstTable.settles_firstTable g.rules, ?_⟩
  intro r hr b hb
  rw [Validator.eq_prepared_of_ofGrammar h] at hr
  obtain ⟨rule, _, rfl⟩ := List.mem_map.mp hr
  obtain ⟨symbols, _, rfl⟩ := List.mem_map.mp hb
  obtain ⟨hnullable, hfirst⟩ := FirstTable.ofSymbols_firstTable g symbols
  exact ⟨rfl, hnullable, hfirst, FirstTable.nodup_ofSymbolsFrom List.nodup_nil⟩

/-- A grammar with a rule that calls itself before a token is taken. -/
def leftGrammar : Grammar :=
  { name := "Left"
    start := "list"
    rules :=
      [⟨"list", [[.nonterminal "gap", .nonterminal "list", .terminal .scalar],
          [.terminal .openSequence]]⟩,
       ⟨"gap", [[.repeated (.terminal (.key none))], [.nonterminal "gap"]]⟩] }

/-- The first alternative begins with what a gap begins with and, since a gap
can be nothing, with what its own rule begins with. -/
theorem left_branch_knows_first :
    ∃ v, Validator.ofGrammar leftGrammar = .ok v ∧
      ∀ t, leftGrammar.Leads leftGrammar.First
        [.nonterminal "gap", .nonterminal "list", .terminal .scalar] t ↔
          t = .key none ∨ t = .openSequence := by
  have hv : Validator.ofGrammar leftGrammar = .ok (Validator.prepared leftGrammar) := by
    decide +kernel
  obtain ⟨_, _, table, _, hbranches⟩ := branches_know_first hv
  refine ⟨_, hv, fun t => ?_⟩
  have hrule : (⟨"list",
      [⟨[.nonterminal "gap", .nonterminal "list", .terminal .scalar],
          [.key none, .openSequence], false⟩,
        ⟨[.terminal .openSequence], [.openSequence], false⟩]⟩ : BranchRule)
      ∈ (Validator.prepared leftGrammar).rules := by
    decide +kernel
  obtain ⟨_, _, hfirst, _⟩ := hbranches _ hrule _ List.mem_cons_self
  rw [← hfirst t]
  simp

end TreeSchema.Validation
