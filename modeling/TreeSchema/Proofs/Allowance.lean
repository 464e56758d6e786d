import Mathlib.Data.Finset.Prod
import TreeSchema.Proofs.Evaluation
/-
  Allowances

  More allowance changes no answer that has been given. A rule that is called
  at a place where it is already being parsed would be called there again
  without end, so that one rule at a time for each place is enough: what a
  validator says of a document within its allowance is what its run on the
  document comes to, and it says nothing only if the run never ends
  (`validates_iff`).
-/

namespace TreeSchema.Validation

/-! ## More allowance changes no answer -/

/-- Out of allowance, or the same. -/
def Outcome.Below (o o' : Outcome) : Prop := o = .exhausted ∨ o = o'

namespace Outcome.Below
variable {o o' : Outcome}

theorem refl (o : Outcome) : o.Below o := Or.inr rfl

theorem after (h : o.Below o') (earlier : List Violation) :
    (o.after earlier).Below (o'.after earlier) := by
  rcases h with rfl | rfl
  · exact Or.inl rfl
  · exact refl _

end Outcome.Below

section
variable {v : Validator} {k m : Nat}

/-- One allowance is below another at every rule and every rest of the
tokens. -/
def CallsBelow (v : Validator) (k m : Nat) (tokens : List PlacedToken) : Prop :=
  ∀ name rest, rest <:+ tokens → (v.parseRule k name rest).Below (v.parseRule m name rest)

theorem CallsBelow.of_suffix {tokens rest : List PlacedToken} (h : CallsBelow v k m tokens)
    (hrest : rest <:+ tokens) : CallsBelow v k m rest :=
  fun name tail htail => h name tail (htail.trans hrest)

theorem perform_symbol_below (rule : String) (s : Symbol) {rest : List PlacedToken}
    (h : CallsBelow v k m rest) :
    (v.perform k (.symbol rule s) rest).Below (v.perform m (.symbol rule s) rest) := by
  induction s generalizing rest with
  | terminal t => exact .refl _
  | nonterminal name => exact h name rest (List.suffix_refl _)
  | repeated inner ih =>
    -- The repetition goes on with fewer tokens, so that the induction is over their number.
    induction hn : rest.length using Nat.strongRecOn generalizing rest with
    | ind n ihn =>
      cases rest with
      | nil => exact .refl _
      | cons t rest =>
        have hlater : ∀ left : List PlacedToken, left <:+ t :: rest → left.length < n →
            (v.perform k (.symbol rule (.repeated inner)) left).Below
              (v.perform m (.symbol rule (.repeated inner)) left) :=
          fun left hleft hlt => ihn _ hlt (h.of_suffix hleft) rfl
        rw [List.length_cons] at hn
        cases hclose : t.token.isClose with
        | true =>
          rw [Validator.perform_repeated_close hclose, Validator.perform_repeated_close hclose]
          exact .refl _
        | false =>
          have hskip := skipElement_suffix t rest
          have hpassed := hlater _ (hskip.trans (List.suffix_cons t rest))
            (by have := hskip.length_le; omega)
          rw [Validator.perform_repeated_open hclose, Validator.perform_repeated_open hclose]
          by_cases hexpects : Expects (v.firstOfSymbol inner) t
          · rw [attempt_of_expects hexpects, attempt_of_expects hexpects]
            have hforward := Validator.forward_symbol v k rule inner (t :: rest)
            rcases ih h with hout | hsame
            · rw [hout]
              exact Or.inl rfl
            · rw [hsame] at hforward ⊢
              generalize v.perform m (.symbol rule inner) (t :: rest) = o at hforward ⊢
              cases o with
              | exhausted => exact .refl _
              | mismatch => exact hpassed.after _
              | parsed left recorded =>
                have hleft := hforward left recorded rfl
                dsimp only
                split
                · exact .refl _
                · next hlength =>
                  have hle := hleft.length_le
                  rw [List.length_cons] at hle
                  exact (hlater left hleft (by omega)).after recorded
          · rw [attempt_of_not_expects hexpects, attempt_of_not_expects hexpects]
            exact hpassed.after _

theorem perform_symbols_below (rule : String) (symbols : List Symbol) {rest : List PlacedToken}
    (h : CallsBelow v k m rest) :
    (v.perform k (.symbols rule symbols) rest).Below (v.perform m (.symbols rule symbols) rest) := by
  induction symbols generalizing rest with
  | nil => exact .refl _
  | cons s others ih =>
    have hforward := Validator.forward_symbol v k rule s rest
    rw [Validator.perform_symbols_cons, Validator.perform_symbols_cons]
    rcases perform_symbol_below rule s h with hout | hsame
    · rw [hout]
      exact Or.inl rfl
    · rw [hsame] at hforward ⊢
      generalize v.perform m (.symbol rule s) rest = o at hforward ⊢
      cases o with
      | exhausted => exact .refl _
      | mismatch => exact .refl _
      | parsed left recorded =>
        exact (ih (h.of_suffix (hforward left recorded rfl))).after recorded

theorem perform_choice_below (rule : String)
    (best : Option (List PlacedToken × List Violation)) (candidates : List Branch)
    {rest : List PlacedToken} (h : CallsBelow v k m rest) :
    (v.perform k (.choice rule best candidates) rest).Below
      (v.perform m (.choice rule best candidates) rest) := by
  induction candidates generalizing best with
  | nil => exact .refl _
  | cons b others ih =>
    rw [Validator.perform_choice_cons, Validator.perform_choice_cons]
    rcases perform_symbols_below rule b.symbols h with hout | hsame
    · rw [hout]
      exact Or.inl rfl
    · rw [hsame]
      generalize v.perform m (.symbols rule b.symbols) rest = o
      cases o with
      | exhausted => exact .refl _
      | mismatch => exact ih best
      | parsed left recorded =>
        dsimp only
        split
        · exact .refl _
        · exact ih _

theorem parseRule_succ_below (name : String) {rest : List PlacedToken}
    (h : CallsBelow v k m rest) :
    (v.parseRule (k + 1) name rest).Below (v.parseRule (m + 1) name rest) :=
  perform_choice_below name none _ h

/-- An answer that is given with some allowance is given with every larger
one. -/
theorem parseRule_below (h : k ≤ m) (name : String) (rest : List PlacedToken) :
    (v.parseRule k name rest).Below (v.parseRule m name rest) := by
  induction k generalizing m name rest with
  | zero => exact Or.inl rfl
  | succ k ih =>
    obtain ⟨m, rfl⟩ : ∃ j, m = j + 1 := ⟨m - 1, by omega⟩
    exact parseRule_succ_below name (fun name rest _ => ih (by omega) name rest)

end

/-! ## The allowance is enough -/

/-- The rule is parsed with one more than this allowance and not with less. -/
def Needs (v : Validator) (depth : Nat) (name : String) (rest : List PlacedToken) : Prop :=
  v.parseRule depth name rest = .exhausted ∧ v.parseRule (depth + 1) name rest ≠ .exhausted

section
variable {v : Validator} {name : String} {rest : List PlacedToken} {j k : Nat}

theorem exists_needs {n : Nat} (h : v.parseRule n name rest ≠ .exhausted) :
    ∃ k < n, Needs v k name rest := by
  induction n with
  | zero => exact absurd rfl h
  | succ n ih =>
    by_cases hn : v.parseRule n name rest = .exhausted
    · exact ⟨n, Nat.lt_succ_self n, hn, h⟩
    · obtain ⟨k, hk, hneeds⟩ := ih hn
      exact ⟨k, by omega, hneeds⟩

theorem Needs.eq_of_answer (h : Needs v k name rest) {n : Nat} (hn : k < n) :
    v.parseRule n name rest = v.parseRule (k + 1) name rest := by
  rcases parseRule_below (v := v) (Nat.succ_le_of_lt hn) name rest with hout | hsame
  · exact absurd hout h.2
  · exact hsame.symm

theorem Needs.not_lt (hj : Needs v j name rest) (hk : Needs v k name rest) : ¬ j < k := by
  intro hlt
  apply hj.2
  rw [← hj.eq_of_answer hlt]
  exact hk.1

theorem Needs.unique (hj : Needs v j name rest) (hk : Needs v k name rest) : j = k := by
  have := hj.not_lt hk
  have := hk.not_lt hj
  omega

/-- A rule that needs one more calls a rule that needs one less: if all that
it calls were answered with less, so would be the rule itself. -/
theorem Needs.exists_call (h : Needs v (k + 1) name rest) :
    ∃ other tail, tail <:+ rest ∧ Needs v k other tail := by
  by_contra hnone
  -- No call tells the two allowances apart, and so neither does the rule.
  have hbelow : CallsBelow v (k + 1) k rest := by
    intro other tail htail
    by_cases hout : v.parseRule k other tail = .exhausted
    · refine Or.inl (by_contra fun hanswer => ?_)
      exact hnone ⟨other, tail, htail, hout, hanswer⟩
    · rcases parseRule_below (v := v) (Nat.le_succ k) other tail with hout' | hsame
      · exact absurd hout' hout
      · exact Or.inr hsame.symm
  rcases parseRule_succ_below name hbelow with hout | hsame
  · exact h.2 hout
  · exact h.2 (hsame.trans h.1)

theorem Needs.exists_below (h : Needs v k name rest) (hj : j ≤ k) :
    ∃ other tail, tail <:+ rest ∧ Needs v j other tail := by
  induction k generalizing name rest with
  | zero =>
    rw [Nat.le_zero.mp hj]
    exact ⟨name, rest, List.suffix_refl _, h⟩
  | succ k ih =>
    rcases Nat.lt_or_ge k j with hlt | hle
    · rw [show j = k + 1 by omega]
      exact ⟨name, rest, List.suffix_refl _, h⟩
    · obtain ⟨other, tail, htail, hother⟩ := h.exists_call
      obtain ⟨last, final, hfinal, hlast⟩ := ih hother hle
      exact ⟨last, final, hfinal.trans htail, hlast⟩

/-- A nonterminal without a rule needs nothing. -/
theorem Needs.mem_rules (h : Needs v (k + 1) name rest) :
    name ∈ v.rules.map BranchRule.lhs := by
  by_contra hnot
  have hfind : v.rules.find? (fun r => r.lhs == name) = none := by
    apply List.find?_eq_none.mpr
    intro r hr hname
    apply hnot
    rw [← beq_iff_eq.mp hname]
    exact List.mem_map_of_mem hr
  have hbranches : v.branchesOf name = [] := by
    rw [Validator.branchesOf, hfind]
    rfl
  have hcandidates : v.candidates name rest = [] := by
    unfold Validator.candidates
    rw [hbranches]
    cases rest <;> rfl
  have hmismatch : v.parseRule (k + 1) name rest = .mismatch := by
    rw [Validator.parseRule_succ, hcandidates]
    rfl
  rw [h.1] at hmismatch
  cases hmismatch

/-- Each depth is needed by a rule and a rest of the tokens of its own, and
there are no more of these than rules times places. -/
theorem Needs.le (h : Needs v k name rest) : k ≤ v.rules.length * (rest.length + 1) := by
  have hdepths : ∀ j, ∃ other tail, j < k → tail <:+ rest ∧ Needs v (j + 1) other tail := by
    intro j
    by_cases hj : j < k
    · obtain ⟨other, tail, htail, hother⟩ := h.exists_below (Nat.succ_le_of_lt hj)
      exact ⟨other, tail, fun _ => ⟨htail, hother⟩⟩
    · exact ⟨name, rest, fun hlt => absurd hlt hj⟩
  choose other tail hneeds using hdepths
  let places : Finset (String × Nat) :=
    (v.rules.map BranchRule.lhs).toFinset ×ˢ Finset.range (rest.length + 1)
  have hmaps : ∀ j ∈ Finset.range k, (other j, (tail j).length) ∈ places := by
    intro j hj
    obtain ⟨htail, hother⟩ := hneeds j (Finset.mem_range.mp hj)
    have hlength := htail.length_le
    refine Finset.mem_product.mpr ⟨List.mem_toFinset.mpr hother.mem_rules, ?_⟩
    exact Finset.mem_range.mpr (by omega)
  have hinjective : Set.InjOn (fun j => (other j, (tail j).length)) (Finset.range k) := by
    intro i hi j hj hij
    obtain ⟨hi', hneedsi⟩ := hneeds i (Finset.mem_range.mp hi)
    obtain ⟨hj', hneedsj⟩ := hneeds j (Finset.mem_range.mp hj)
    obtain ⟨hname, hlength⟩ := Prod.mk.inj hij
    -- A rest of the tokens is known by its length.
    have htail : tail i = tail j :=
      (List.suffix_of_suffix_length_le hi' hj' (Nat.le_of_eq hlength)).eq_of_length hlength
    rw [hname, htail] at hneedsi
    exact Nat.succ.inj (hneedsi.unique hneedsj)
  calc k = (Finset.range k).card := (Finset.card_range k).symm
    _ ≤ places.card := Finset.card_le_card_of_injOn _ hmaps hinjective
    _ = (v.rules.map BranchRule.lhs).toFinset.card * (rest.length + 1) := by
        rw [Finset.card_product, Finset.card_range]
    _ ≤ v.rules.length * (rest.length + 1) := by
        refine Nat.mul_le_mul_right _ ?_
        exact (List.toFinset_card_le _).trans (Nat.le_of_eq (List.length_map _))

/-- If any allowance is enough, then so is one for each rule and place. -/
theorem parseRule_eq_of_answer {n : Nat} (h : v.parseRule n name rest ≠ .exhausted) :
    v.parseRule (v.rules.length * (rest.length + 1) + 1) name rest = v.parseRule n name rest := by
  obtain ⟨k, hk, hneeds⟩ := exists_needs h
  have hle := hneeds.le
  rw [hneeds.eq_of_answer hk, hneeds.eq_of_answer (by omega)]

end

/-! ## Verdicts -/

namespace Validator
variable {v : Validator} {document : Node} {found : List Violation}

/-- What is said of a document when parsing it has come to an end. -/
def verdict (v : Validator) (document : Node) : Outcome → List Violation
  | .parsed [] recorded => recorded
  | _ => [.reject v.start (v.firstOf v.start) document.tokens]

/-- The run on the document comes to an end, and these are its violations. -/
def Validates (v : Validator) (document : Node) (found : List Violation) : Prop :=
  ∃ o, Runs v (.rule v.start) document.tokens o ∧ v.verdict document o = found

theorem violationsWithin?_eq_some_iff {allowance : Nat} :
    v.violationsWithin? allowance document = some found ↔
      v.parseRule allowance v.start document.tokens ≠ .exhausted ∧
        v.verdict document (v.parseRule allowance v.start document.tokens) = found := by
  unfold violationsWithin?
  cases v.parseRule allowance v.start document.tokens with
  | exhausted => simp
  | mismatch => simp [verdict]
  | parsed rest recorded => cases rest <;> simp [verdict]

/-- The violations of a document are said just if the run on it comes to an
end. -/
theorem validates_iff : v.Validates document found ↔ v.violations? document = some found := by
  rw [violations?, violationsWithin?_eq_some_iff]
  constructor
  · intro h
    obtain ⟨o, hruns, rfl⟩ := h
    obtain ⟨n, hn⟩ := hruns.perform_eq
    have hanswer : v.parseRule n v.start document.tokens = o := hn n (Nat.le_refl n)
    have hsame := parseRule_eq_of_answer (v := v) (by rw [hanswer]; exact hruns.ne_exhausted)
    rw [allowance, hsame, hanswer]
    exact ⟨hruns.ne_exhausted, rfl⟩
  · intro h
    obtain ⟨hanswer, hverdict⟩ := h
    exact ⟨_, runs_rule v (v.allowance document) v.start document.tokens hanswer, hverdict⟩

end Validator

end TreeSchema.Validation
