import Mathlib.Data.List.Forall2
import TreeSchema.Proofs.Repeats
/-
  First terminals

  What a round of the computation adds to the table, nonterminal by
  nonterminal. A nonterminal whose alternatives all begin with a terminal is
  known after the first round, and no later round changes what is known of
  it (`get_firstTable`).
-/

namespace TreeSchema.Grammar

namespace FirstTable
variable {table : FirstTable} {name lhs : String} {found : FirstSet}

/-! ## Adding to the table -/

@[simp] theorem keys_absorb (table : FirstTable) (lhs : String) (found : FirstSet) :
    (table.absorb lhs found).map Prod.fst = table.map Prod.fst := by
  rw [absorb, List.map_map]
  apply List.map_congr_left
  intro entry _
  show (if entry.1 = lhs then _ else _ : String × FirstSet).1 = entry.1
  split <;> rfl

theorem get_cons (key : String) (known : FirstSet) (rest : FirstTable) (name : String) :
    get ((key, known) :: rest) name = if name = key then known else get rest name := by
  unfold get
  by_cases h : name = key
  · simp [h]
  · have hbeq : (name == key) = false := by simpa using h
    simp [List.lookup_cons, hbeq, h]

theorem absorb_cons (key : String) (known : FirstSet) (rest : FirstTable) :
    absorb ((key, known) :: rest) lhs found
      = (key, if key = lhs then ⟨addTerminals known.terminals found.terminals,
          known.nullable || found.nullable⟩ else known) :: absorb rest lhs found := by
  by_cases hkey : key = lhs
  · simp [absorb, hkey]
  · simp [absorb, hkey]

/-- Nothing changes for other nonterminals. -/
theorem get_absorb_of_ne (h : name ≠ lhs) : (table.absorb lhs found).get name = table.get name := by
  induction table with
  | nil => rfl
  | cons entry rest ih =>
    obtain ⟨key, known⟩ := entry
    rw [absorb_cons, get_cons, get_cons, ih]
    by_cases hkey : name = key
    · rw [if_pos hkey, if_pos hkey, if_neg (hkey ▸ h)]
    · rw [if_neg hkey, if_neg hkey]

theorem get_absorb_self (h : lhs ∈ table.map Prod.fst) :
    (table.absorb lhs found).get lhs
      = ⟨addTerminals (table.get lhs).terminals found.terminals,
          (table.get lhs).nullable || found.nullable⟩ := by
  induction table with
  | nil => cases h
  | cons entry rest ih =>
    obtain ⟨key, known⟩ := entry
    rw [absorb_cons, get_cons, get_cons]
    by_cases hkey : lhs = key
    · rw [if_pos hkey, if_pos hkey, if_pos hkey.symm]
    · rw [if_neg hkey, if_neg hkey]
      exact ih ((List.mem_cons.mp h).resolve_left hkey)

/-! ## Rounds -/

/-- The alternatives begin with these terminals, in order. -/
def Headed (alternatives : List (List Symbol)) (heads : List Terminal) : Prop :=
  List.Forall₂ (fun symbols t => ∃ rest, symbols = .terminal t :: rest) alternatives heads

theorem ofSymbols_terminal (table : FirstTable) (t : Terminal) (rest : List Symbol) :
    table.ofSymbols (.terminal t :: rest) = ⟨[t], false⟩ := by
  simp [ofSymbols, ofSymbolsFrom, ofSymbol, addTerminals]

theorem ofSymbols_nonterminal (table : FirstTable) (name : String)
    (h : (table.get name).nullable = false) :
    table.ofSymbols [.nonterminal name] = ⟨(table.get name).terminals.eraseDups, false⟩ := by
  simp [ofSymbols, ofSymbolsFrom, ofSymbol, h, addTerminals_eq_foldl, foldl_addNew_nil]

theorem keys_foldl_absorb (alternatives : List (List Symbol)) (lhs : String)
    (table : FirstTable) :
    (alternatives.foldl (fun table symbols => table.absorb lhs (table.ofSymbols symbols))
      table).map Prod.fst = table.map Prod.fst := by
  induction alternatives generalizing table with
  | nil => rfl
  | cons symbols rest ih => rw [List.foldl_cons, ih, keys_absorb]

theorem keys_round (rules : List Rule) (table : FirstTable) :
    (round rules table).map Prod.fst = table.map Prod.fst := by
  unfold round
  induction rules generalizing table with
  | nil => rfl
  | cons r rest ih => rw [List.foldl_cons, ih, absorbRule, keys_foldl_absorb]

theorem get_absorbRule_of_ne {r : Rule} (h : name ≠ r.lhs) :
    (table.absorbRule r).get name = table.get name := by
  unfold absorbRule
  induction r.alternatives generalizing table with
  | nil => rfl
  | cons symbols rest ih => rw [List.foldl_cons, ih, get_absorb_of_ne h]

/-- A rule whose alternatives begin with terminals adds these, whatever is
known of other nonterminals. -/
theorem get_absorbRule_of_headed {r : Rule} {heads : List Terminal}
    (hheads : Headed r.alternatives heads) (hmem : r.lhs ∈ table.map Prod.fst) :
    (table.absorbRule r).get r.lhs
      = ⟨addTerminals (table.get r.lhs).terminals heads, (table.get r.lhs).nullable⟩ := by
  unfold absorbRule
  generalize r.alternatives = alternatives at hheads ⊢
  unfold Headed at hheads
  induction hheads generalizing table with
  | nil => rfl
  | @cons symbols t alternatives heads hfirst _ ih =>
    obtain ⟨rest, rfl⟩ := hfirst
    rw [List.foldl_cons, ih (by rw [keys_absorb]; exact hmem), get_absorb_self hmem,
      ofSymbols_terminal]
    simp [addTerminals]

theorem get_round_of_not_mem {rules : List Rule} (h : name ∉ rules.map Rule.lhs) :
    (round rules table).get name = table.get name := by
  unfold round
  induction rules generalizing table with
  | nil => rfl
  | cons r rest ih =>
    rw [List.map_cons, List.mem_cons, not_or] at h
    rw [List.foldl_cons, ih h.2, get_absorbRule_of_ne h.1]

theorem get_round {rules : List Rule} (hnodup : (rules.map Rule.lhs).Nodup) {r : Rule}
    (hr : r ∈ rules) {heads : List Terminal} (hheads : Headed r.alternatives heads)
    (hmem : r.lhs ∈ table.map Prod.fst) :
    (round rules table).get r.lhs
      = ⟨addTerminals (table.get r.lhs).terminals heads, (table.get r.lhs).nullable⟩ := by
  induction rules generalizing table with
  | nil => cases hr
  | cons q rest ih =>
    obtain ⟨hq, hrest⟩ := List.nodup_cons.mp hnodup
    show (round rest (table.absorbRule q)).get r.lhs = _
    rcases List.mem_cons.mp hr with rfl | hr
    · rw [get_round_of_not_mem hq, get_absorbRule_of_headed hheads hmem]
    · have hne : r.lhs ≠ q.lhs := fun heq => hq (heq ▸ List.mem_map_of_mem hr)
      have hkeys : r.lhs ∈ (table.absorbRule q).map Prod.fst := by
        rw [absorbRule, keys_foldl_absorb]
        exact hmem
      rw [ih hrest hr hkeys, get_absorbRule_of_ne hne]

/-- What the first round establishes and rounds keep holds in the end. -/
theorem saturate_of_round {P : FirstTable → Prop} (rules : List Rule) (fuel : Nat)
    (table : FirstTable) (hfirst : P (round rules table))
    (hround : ∀ t, P t → P (round rules t)) : P (saturate rules (fuel + 1) table) := by
  have hkeep : ∀ fuel t, P t → P (saturate rules fuel t) := by
    intro fuel
    induction fuel with
    | zero => exact fun t ht => ht
    | succ k ih =>
      intro t ht
      rw [saturate]
      split
      · exact ht
      · exact ih _ (hround t ht)
  rw [saturate]
  split
  · next hstable => exact hstable ▸ hfirst
  · exact hkeep fuel _ hfirst

end FirstTable

theorem get_initial (rules : List Rule) (name : String) :
    FirstTable.get (rules.map fun r => (r.lhs, FirstSet.empty)) name = .empty := by
  induction rules with
  | nil => rfl
  | cons r rest ih => rw [List.map_cons, FirstTable.get_cons, ih, ite_self]

/-- What is known in the end of a nonterminal whose alternatives all begin
with a terminal. -/
theorem get_firstTable {rules : List Rule} (hnodup : (rules.map Rule.lhs).Nodup) {r : Rule}
    (hr : r ∈ rules) {heads : List Terminal} (hheads : FirstTable.Headed r.alternatives heads) :
    (firstTable rules).get r.lhs = ⟨heads.eraseDups, false⟩ := by
  have hmem : r.lhs ∈ (rules.map fun r => (r.lhs, FirstSet.empty)).map Prod.fst := by
    rw [List.map_map]
    exact List.mem_map_of_mem hr
  -- The first round finds all the heads, and later ones find them again.
  refine (FirstTable.saturate_of_round
    (P := fun t => r.lhs ∈ t.map Prod.fst ∧ t.get r.lhs = ⟨heads.eraseDups, false⟩)
    rules _ _ ?_ ?_).2
  · refine ⟨by rw [FirstTable.keys_round]; exact hmem, ?_⟩
    rw [FirstTable.get_round hnodup hr hheads hmem, get_initial]
    simp [FirstSet.empty, addTerminals_eq_foldl, foldl_addNew_nil]
  · intro t ht
    refine ⟨by rw [FirstTable.keys_round]; exact ht.1, ?_⟩
    rw [FirstTable.get_round hnodup hr hheads ht.1, ht.2,
      addTerminals_of_subset (fun x hx => List.mem_eraseDups.mpr hx)]

end TreeSchema.Grammar
