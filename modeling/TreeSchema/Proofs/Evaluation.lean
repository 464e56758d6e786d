import TreeSchema.Proofs.Run
/-
  What the bounded functions answer

  The functions that parse carry an allowance of nested rules, and a
  repetition one of its own. Whatever they answer is the outcome of a run
  (`runs_perform`), and every run is what they answer once the allowance of
  rules is large enough (`Runs.perform_eq`). The allowance of a repetition is
  never used up.
-/

namespace TreeSchema.Validation

/-! ## Steps of a repetition -/

section
variable {inner : Parse} {expected : List Terminal} {rule : String} {t : PlacedToken}
  {rest left : List PlacedToken} {recorded : List Violation}

/-- What a repetition first makes of the element ahead. -/
def attempt (inner : Parse) (expected : List Terminal) (t : PlacedToken)
    (rest : List PlacedToken) : Outcome :=
  if expected.any fun head => head.accepts t.token then inner (t :: rest) else .mismatch

theorem attempt_of_expects (h : Expects expected t) (inner : Parse) (rest : List PlacedToken) :
    attempt inner expected t rest = inner (t :: rest) := if_pos h

theorem attempt_of_not_expects (h : ¬ Expects expected t) (inner : Parse)
    (rest : List PlacedToken) : attempt inner expected t rest = .mismatch := if_neg h

theorem repeatFrom_close (h : t.token.isClose = true) (allowance : Nat) :
    repeatFrom inner expected rule (allowance + 1) (t :: rest) = .parsed (t :: rest) [] := by
  rw [repeatFrom, if_pos h]

theorem repeatFrom_open (h : t.token.isClose = false) (allowance : Nat) :
    repeatFrom inner expected rule (allowance + 1) (t :: rest)
      = match attempt inner expected t rest with
        | .exhausted => .exhausted
        | .parsed left recorded =>
          if left.length = rest.length + 1 then .parsed left recorded
          else (repeatFrom inner expected rule allowance left).after recorded
        | .mismatch =>
          (repeatFrom inner expected rule allowance (skipElement (t :: rest))).after
            [.reject rule expected (t :: rest)] := by
  rw [repeatFrom, if_neg (by rw [h]; exact Bool.false_ne_true)]
  rfl

/-- A parse that never leaves more than it was given. -/
def Forward (parse : Parse) : Prop :=
  ∀ rest left recorded, parse rest = .parsed left recorded → left <:+ rest

theorem Forward.attempt_suffix (hinner : Forward inner)
    (h : attempt inner expected t rest = .parsed left recorded) : left <:+ t :: rest := by
  unfold attempt at h
  split at h
  · exact hinner _ _ _ h
  · cases h

/-- One repetition for each token ahead is as good as any larger allowance. -/
theorem repeatFrom_eq_of_le (hinner : Forward inner) {k m : Nat} {rest : List PlacedToken}
    (hk : rest.length ≤ k) (hm : rest.length ≤ m) :
    repeatFrom inner expected rule k rest = repeatFrom inner expected rule m rest := by
  induction k generalizing m rest with
  | zero =>
    rw [List.length_eq_zero_iff.mp (Nat.le_zero.mp hk)]
    cases m <;> rfl
  | succ k ih =>
    cases rest with
    | nil => cases m <;> rfl
    | cons t rest =>
      rw [List.length_cons] at hk hm
      obtain ⟨m, rfl⟩ : ∃ j, m = j + 1 := ⟨m - 1, by omega⟩
      cases hclose : t.token.isClose with
      | true => rw [repeatFrom_close hclose, repeatFrom_close hclose]
      | false =>
        rw [repeatFrom_open hclose, repeatFrom_open hclose]
        cases hattempt : attempt inner expected t rest with
        | exhausted => rfl
        | mismatch =>
          have hskip := (skipElement_suffix t rest).length_le
          dsimp only
          rw [ih (m := m) (by omega) (by omega)]
        | parsed left recorded =>
          have hleft := (hinner.attempt_suffix hattempt).length_le
          rw [List.length_cons] at hleft
          dsimp only
          split
          · rfl
          · rw [ih (m := m) (by omega) (by omega)]

theorem repeatFrom_eq_repeatParse (hinner : Forward inner) {k : Nat} {rest : List PlacedToken}
    (h : rest.length ≤ k) :
    repeatFrom inner expected rule k rest = repeatParse inner expected rule rest :=
  repeatFrom_eq_of_le hinner h (Nat.le_refl _)

end

/-! ## What the functions answer -/

namespace Validator

/-- What the functions answer a task, with an allowance for the rules that it
calls. -/
def perform (v : Validator) (allowance : Nat) : Task → Parse
  | .rule name => v.parseRule allowance name
  | .choice name best candidates => fun rest =>
    chooseFrom (fun b : Branch => v.parseSymbols (v.parseRule allowance) name b.symbols rest) best
      candidates
  | .symbols name list => v.parseSymbols (v.parseRule allowance) name list
  | .symbol name s => v.parseSymbol (v.parseRule allowance) name s

/-- A rule spends one of its allowance on itself. -/
theorem parseRule_succ (v : Validator) (allowance : Nat) (name : String)
    (rest : List PlacedToken) :
    v.parseRule (allowance + 1) name rest
      = v.perform allowance (.choice name none (v.candidates name rest)) rest := rfl

theorem perform_choice_cons (v : Validator) (allowance : Nat) (name : String)
    (best : Option (List PlacedToken × List Violation)) (b : Branch) (others : List Branch)
    (rest : List PlacedToken) :
    v.perform allowance (.choice name best (b :: others)) rest
      = match v.perform allowance (.symbols name b.symbols) rest with
        | .exhausted => .exhausted
        | .mismatch => v.perform allowance (.choice name best others) rest
        | .parsed left recorded =>
          if recorded.isEmpty then .parsed left []
          else v.perform allowance (.choice name (some (better best left recorded)) others)
            rest := rfl

theorem perform_symbols_cons (v : Validator) (allowance : Nat) (name : String) (s : Symbol)
    (others : List Symbol) (rest : List PlacedToken) :
    v.perform allowance (.symbols name (s :: others)) rest
      = (v.perform allowance (.symbol name s) rest).andThen
          (v.perform allowance (.symbols name others)) := rfl

end Validator

/-- The task comes to an end, with this answer. -/
def Ends (v : Validator) (allowance : Nat) (task : Task) (rest : List PlacedToken) : Prop :=
  v.perform allowance task rest ≠ .exhausted →
    Runs v task rest (v.perform allowance task rest)

theorem Runs.suffix {v : Validator} {task : Task} {rest left : List PlacedToken}
    {recorded : List Violation} (h : Runs v task rest (.parsed left recorded))
    (hsound : task.Sound v rest) : left <:+ rest := by
  obtain ⟨taken, hconsumed, _⟩ := h.reads hsound rfl
  exact hconsumed.suffix

section
variable {v : Validator} {allowance : Nat} {rule : String}

/-- The induction is over the number of repetitions that are still allowed,
which is never less than the number of tokens ahead. -/
theorem runs_repeatFrom {inner : Symbol}
    (hinner : ∀ rest, Ends v allowance (.symbol rule inner) rest) {k : Nat}
    {rest : List PlacedToken} (hk : rest.length ≤ k)
    (h : repeatFrom (v.perform allowance (.symbol rule inner)) (v.firstOfSymbol inner) rule k rest
      ≠ .exhausted) :
    Runs v (.symbol rule (.repeated inner)) rest
      (repeatFrom (v.perform allowance (.symbol rule inner)) (v.firstOfSymbol inner) rule k
        rest) := by
  induction k generalizing rest with
  | zero =>
    rw [List.length_eq_zero_iff.mp (Nat.le_zero.mp hk)]
    exact .atEnd
  | succ k ih =>
    cases rest with
    | nil => exact .atEnd
    | cons t rest =>
      rw [List.length_cons] at hk
      cases hclose : t.token.isClose with
      | true =>
        rw [repeatFrom_close hclose]
        exact .atClose hclose
      | false =>
        have hskip : (skipElement (t :: rest)).length ≤ k :=
          (skipElement_suffix t rest).length_le.trans (by omega)
        rw [repeatFrom_open hclose] at h ⊢
        by_cases hexpects : Expects (v.firstOfSymbol inner) t
        · rw [attempt_of_expects hexpects] at h ⊢
          have hfirst := hinner (t :: rest)
          unfold Ends at hfirst
          generalize v.perform allowance (.symbol rule inner) (t :: rest) = o at h hfirst ⊢
          cases o with
          | exhausted => exact absurd rfl h
          | mismatch =>
            have hrest := ih hskip (by simpa using h)
            exact .misfit hclose hexpects (hfirst (by simp)) hrest
          | parsed left recorded =>
            have hruns := hfirst (by simp)
            have hsuffix : left <:+ t :: rest := hruns.suffix trivial
            dsimp only at h ⊢
            split
            · next hlength =>
              obtain rfl := hsuffix.eq_of_length hlength
              exact .idle hclose hexpects hruns
            · next hlength =>
              have hle : left.length ≤ k := by
                have hlength_le := hsuffix.length_le
                rw [List.length_cons] at hlength_le
                omega
              rw [if_neg hlength] at h
              have hrest := ih hle (by simpa using h)
              refine .again hclose hexpects hruns ?_ hrest
              intro heq
              exact hlength (by rw [heq, List.length_cons])
        · rw [attempt_of_not_expects hexpects] at h ⊢
          have hrest := ih hskip (by simpa using h)
          exact .unexpected hclose hexpects hrest

theorem runs_symbol (hcall : ∀ name rest, Ends v allowance (.rule name) rest) (s : Symbol)
    (rest : List PlacedToken) : Ends v allowance (.symbol rule s) rest := by
  induction s generalizing rest with
  | terminal t => exact fun _ => .terminal
  | nonterminal name => exact fun h => .nonterminal (hcall name rest h)
  | repeated inner ih => exact fun h => runs_repeatFrom ih (Nat.le_refl _) h

theorem runs_symbols (hcall : ∀ name rest, Ends v allowance (.rule name) rest)
    (symbols : List Symbol) (rest : List PlacedToken) :
    Ends v allowance (.symbols rule symbols) rest := by
  induction symbols generalizing rest with
  | nil => exact fun _ => .done
  | cons s others ih =>
    intro h
    have hfirst : Ends v allowance (.symbol rule s) rest := runs_symbol hcall s rest
    unfold Ends at hfirst
    rw [Validator.perform_symbols_cons] at h ⊢
    generalize v.perform allowance (.symbol rule s) rest = o at h hfirst ⊢
    cases o with
    | exhausted => exact absurd rfl h
    | mismatch => exact .stuck (hfirst (by simp))
    | parsed left recorded =>
      exact .next (hfirst (by simp)) (ih left (by simpa [Outcome.andThen] using h))

theorem runs_choice (hcall : ∀ name rest, Ends v allowance (.rule name) rest)
    (best : Option (List PlacedToken × List Violation)) (candidates : List Branch)
    (rest : List PlacedToken) : Ends v allowance (.choice rule best candidates) rest := by
  induction candidates generalizing best with
  | nil =>
    intro _
    cases best with
    | none => exact .allFailed
    | some b => exact .settled
  | cons b others ih =>
    intro h
    have hfirst : Ends v allowance (.symbols rule b.symbols) rest :=
      runs_symbols hcall b.symbols rest
    unfold Ends at hfirst
    rw [Validator.perform_choice_cons] at h ⊢
    generalize v.perform allowance (.symbols rule b.symbols) rest = o at h hfirst ⊢
    cases o with
    | exhausted => exact absurd rfl h
    | mismatch => exact .failed (hfirst (by simp)) (ih best h)
    | parsed left recorded =>
      cases recorded with
      | nil => exact .clean (hfirst (by simp))
      | cons r more =>
        exact .compared (hfirst (by simp)) (List.cons_ne_nil _ _) (ih _ h)

theorem runs_rule (v : Validator) (allowance : Nat) (name : String) (rest : List PlacedToken) :
    Ends v allowance (.rule name) rest := by
  induction allowance generalizing name rest with
  | zero => exact fun h => absurd rfl h
  | succ k ih => exact fun h => .rule (runs_choice ih none _ rest h)

end

/-- Whatever the functions answer is the outcome of a run. -/
theorem runs_perform {v : Validator} {allowance : Nat} {task : Task} {rest : List PlacedToken}
    (h : v.perform allowance task rest ≠ .exhausted) :
    Runs v task rest (v.perform allowance task rest) := by
  have hcall := runs_rule v allowance
  cases task with
  | rule name => exact hcall name rest h
  | choice name best candidates => exact runs_choice hcall best candidates rest h
  | symbols name list => exact runs_symbols hcall list rest h
  | symbol name s => exact runs_symbol hcall s rest h

/-! ## Repetitions without their own bound -/

namespace Validator
variable {v : Validator} {allowance : Nat} {rule : String} {inner : Symbol} {t : PlacedToken}
  {rest left : List PlacedToken} {recorded : List Violation}

theorem forward_symbol (v : Validator) (allowance : Nat) (rule : String) (s : Symbol) :
    Forward (v.perform allowance (.symbol rule s)) := by
  intro rest left recorded h
  have hanswer : v.perform allowance (.symbol rule s) rest ≠ .exhausted := by
    rw [h]
    simp
  have hruns := runs_perform hanswer
  rw [h] at hruns
  exact hruns.suffix trivial

theorem perform_repeated_close (h : t.token.isClose = true) :
    v.perform allowance (.symbol rule (.repeated inner)) (t :: rest) = .parsed (t :: rest) [] :=
  repeatFrom_close h _

/-- One step of a repetition: the bound on repetitions plays no part in it. -/
theorem perform_repeated_open (h : t.token.isClose = false) :
    v.perform allowance (.symbol rule (.repeated inner)) (t :: rest)
      = match attempt (v.perform allowance (.symbol rule inner)) (v.firstOfSymbol inner) t rest with
        | .exhausted => .exhausted
        | .parsed left recorded =>
          if left.length = rest.length + 1 then .parsed left recorded
          else (v.perform allowance (.symbol rule (.repeated inner)) left).after recorded
        | .mismatch =>
          (v.perform allowance (.symbol rule (.repeated inner)) (skipElement (t :: rest))).after
            [.reject rule (v.firstOfSymbol inner) (t :: rest)] := by
  have hforward := forward_symbol v allowance rule inner
  have hskip := (skipElement_suffix t rest).length_le
  show repeatFrom (v.perform allowance (.symbol rule inner)) _ rule (rest.length + 1) _ = _
  rw [repeatFrom_open h]
  cases hattempt : attempt (v.perform allowance (.symbol rule inner)) (v.firstOfSymbol inner) t
      rest with
  | exhausted => rfl
  | mismatch =>
    dsimp only
    rw [repeatFrom_eq_repeatParse hforward hskip]
    rfl
  | parsed left recorded =>
    have hleft := (hforward.attempt_suffix hattempt).length_le
    rw [List.length_cons] at hleft
    dsimp only
    split
    · rfl
    · rw [repeatFrom_eq_repeatParse hforward (by omega)]
      rfl

end Validator

/-! ## Every run is answered -/

/-- A run is what the functions answer once the allowance is large enough. -/
theorem Runs.perform_eq {v : Validator} {task : Task} {rest : List PlacedToken} {o : Outcome}
    (h : Runs v task rest o) : ∃ n, ∀ m, n ≤ m → v.perform m task rest = o := by
  induction h with
  | rule _ ih =>
    obtain ⟨n, hn⟩ := ih
    refine ⟨n + 1, fun m hm => ?_⟩
    obtain ⟨k, rfl⟩ : ∃ k, m = k + 1 := ⟨m - 1, by omega⟩
    exact hn k (by omega)
  | allFailed => exact ⟨0, fun _ _ => rfl⟩
  | settled => exact ⟨0, fun _ _ => rfl⟩
  | failed _ _ ihfirst ih =>
    obtain ⟨n, hn⟩ := ihfirst
    obtain ⟨k, hk⟩ := ih
    refine ⟨max n k, fun m hm => ?_⟩
    rw [Validator.perform_choice_cons, hn m (by omega)]
    exact hk m (by omega)
  | clean _ ihfirst =>
    obtain ⟨n, hn⟩ := ihfirst
    refine ⟨n, fun m hm => ?_⟩
    rw [Validator.perform_choice_cons, hn m hm]
    rfl
  | compared _ hrecorded _ ihfirst ih =>
    obtain ⟨n, hn⟩ := ihfirst
    obtain ⟨k, hk⟩ := ih
    refine ⟨max n k, fun m hm => ?_⟩
    rw [Validator.perform_choice_cons, hn m (by omega)]
    dsimp only
    rw [if_neg (by simpa using hrecorded)]
    exact hk m (by omega)
  | done => exact ⟨0, fun _ _ => rfl⟩
  | stuck _ ih =>
    obtain ⟨n, hn⟩ := ih
    refine ⟨n, fun m hm => ?_⟩
    rw [Validator.perform_symbols_cons, hn m hm]
    rfl
  | next _ _ ihfirst ih =>
    obtain ⟨n, hn⟩ := ihfirst
    obtain ⟨k, hk⟩ := ih
    refine ⟨max n k, fun m hm => ?_⟩
    rw [Validator.perform_symbols_cons, hn m (by omega)]
    dsimp only [Outcome.andThen]
    rw [hk m (by omega)]
  | terminal => exact ⟨0, fun _ _ => rfl⟩
  | nonterminal _ ih => exact ih
  | atEnd => exact ⟨0, fun _ _ => rfl⟩
  | atClose hclose => exact ⟨0, fun _ _ => Validator.perform_repeated_close hclose⟩
  | idle hopen hexpects _ ih =>
    obtain ⟨n, hn⟩ := ih
    refine ⟨n, fun m hm => ?_⟩
    rw [Validator.perform_repeated_open hopen, attempt_of_expects hexpects, hn m hm]
    exact if_pos List.length_cons
  | again hopen hexpects hfirst hforward _ ihfirst ih =>
    obtain ⟨n, hn⟩ := ihfirst
    obtain ⟨k, hk⟩ := ih
    refine ⟨max n k, fun m hm => ?_⟩
    rw [Validator.perform_repeated_open hopen, attempt_of_expects hexpects, hn m (by omega)]
    refine (if_neg fun hlength => hforward ?_).trans (by rw [hk m (by omega)])
    exact (hfirst.suffix trivial).eq_of_length hlength
  | unexpected hopen hunexpected _ ih =>
    obtain ⟨n, hn⟩ := ih
    refine ⟨n, fun m hm => ?_⟩
    rw [Validator.perform_repeated_open hopen, attempt_of_not_expects hunexpected]
    dsimp only
    rw [hn m hm]
  | misfit hopen hexpects _ _ ihfirst ih =>
    obtain ⟨n, hn⟩ := ihfirst
    obtain ⟨k, hk⟩ := ih
    refine ⟨max n k, fun m hm => ?_⟩
    rw [Validator.perform_repeated_open hopen, attempt_of_expects hexpects, hn m (by omega)]
    dsimp only
    rw [hk m (by omega)]

end TreeSchema.Validation
