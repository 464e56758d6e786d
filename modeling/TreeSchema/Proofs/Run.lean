import TreeSchema.Proofs.Derivation
import TreeSchema.Proofs.Elements
import TreeSchema.Proofs.Outcome
/-
  Runs of a validator

  What a validator does with the tokens ahead, step by step, with no bound on
  nested rules or on repetitions; a run that never comes to an end has no
  outcome. Along every run each token ahead is either taken, and then the
  rules derive what is taken, or it stands in an element that has been passed
  as a whole and recorded (`Runs.reads`).
-/

namespace TreeSchema

namespace Validation

/-- What a validator is about to do with the tokens ahead. -/
inductive Task where
  /-- Parse a nonterminal. -/
  | rule (name : String)
  /-- Try candidates of a rule, with the best result of those already tried. -/
  | choice (rule : String) (best : Option (List PlacedToken × List Violation))
    (candidates : List Branch)
  /-- Parse symbols of a rule one after another. -/
  | symbols (rule : String) (symbols : List Symbol)
  /-- Parse one symbol of a rule. -/
  | symbol (rule : String) (s : Symbol)

/-- Some terminal accepts the token. -/
def Expects (expected : List Terminal) (token : PlacedToken) : Prop :=
  (expected.any fun t => t.accepts token.token) = true

/-- The runs of a validator that come to an end, with their outcomes. -/
inductive Runs (v : Validator) : Task → List PlacedToken → Outcome → Prop where
  | rule {name : String} {rest : List PlacedToken} {o : Outcome}
    (choice : Runs v (.choice name none (v.candidates name rest)) rest o) :
    Runs v (.rule name) rest o
  /-- Every candidate has failed. -/
  | allFailed {rule : String} {rest : List PlacedToken} :
    Runs v (.choice rule none []) rest .mismatch
  | settled {rule : String} {rest left : List PlacedToken} {recorded : List Violation} :
    Runs v (.choice rule (some (left, recorded)) []) rest (.parsed left recorded)
  | failed {rule : String} {best : Option (List PlacedToken × List Violation)} {b : Branch}
    {others : List Branch} {rest : List PlacedToken} {o : Outcome}
    (first : Runs v (.symbols rule b.symbols) rest .mismatch)
    (next : Runs v (.choice rule best others) rest o) :
    Runs v (.choice rule best (b :: others)) rest o
  /-- The first candidate that records nothing wins. -/
  | clean {rule : String} {best : Option (List PlacedToken × List Violation)} {b : Branch}
    {others : List Branch} {rest left : List PlacedToken}
    (first : Runs v (.symbols rule b.symbols) rest (.parsed left [])) :
    Runs v (.choice rule best (b :: others)) rest (.parsed left [])
  | compared {rule : String} {best : Option (List PlacedToken × List Violation)} {b : Branch}
    {others : List Branch} {rest left : List PlacedToken} {recorded : List Violation} {o : Outcome}
    (first : Runs v (.symbols rule b.symbols) rest (.parsed left recorded))
    (some_recorded : recorded ≠ [])
    (next : Runs v (.choice rule (some (better best left recorded)) others) rest o) :
    Runs v (.choice rule best (b :: others)) rest o
  | done {rule : String} {rest : List PlacedToken} : Runs v (.symbols rule []) rest (.parsed rest [])
  | stuck {rule : String} {s : Symbol} {others : List Symbol} {rest : List PlacedToken}
    (first : Runs v (.symbol rule s) rest .mismatch) :
    Runs v (.symbols rule (s :: others)) rest .mismatch
  | next {rule : String} {s : Symbol} {others : List Symbol} {rest left : List PlacedToken}
    {recorded : List Violation} {o : Outcome}
    (first : Runs v (.symbol rule s) rest (.parsed left recorded))
    (after : Runs v (.symbols rule others) left o) :
    Runs v (.symbols rule (s :: others)) rest (o.after recorded)
  | terminal {rule : String} {t : Terminal} {rest : List PlacedToken} :
    Runs v (.symbol rule (.terminal t)) rest (takeTerminal t rest)
  | nonterminal {rule name : String} {rest : List PlacedToken} {o : Outcome}
    (call : Runs v (.rule name) rest o) : Runs v (.symbol rule (.nonterminal name)) rest o
  /-- A repetition ends with the tokens. -/
  | atEnd {rule : String} {inner : Symbol} :
    Runs v (.symbol rule (.repeated inner)) [] (.parsed [] [])
  /-- A repetition ends with its container. -/
  | atClose {rule : String} {inner : Symbol} {t : PlacedToken} {rest : List PlacedToken}
    (close : t.token.isClose = true) :
    Runs v (.symbol rule (.repeated inner)) (t :: rest) (.parsed (t :: rest) [])
  /-- A repetition ends when its symbol takes nothing. -/
  | idle {rule : String} {inner : Symbol} {t : PlacedToken} {rest : List PlacedToken}
    {recorded : List Violation} (isOpen : t.token.isClose = false)
    (expected : Expects (v.firstOfSymbol inner) t)
    (first : Runs v (.symbol rule inner) (t :: rest) (.parsed (t :: rest) recorded)) :
    Runs v (.symbol rule (.repeated inner)) (t :: rest) (.parsed (t :: rest) recorded)
  | again {rule : String} {inner : Symbol} {t : PlacedToken} {rest left : List PlacedToken}
    {recorded : List Violation} {o : Outcome} (isOpen : t.token.isClose = false)
    (expected : Expects (v.firstOfSymbol inner) t)
    (first : Runs v (.symbol rule inner) (t :: rest) (.parsed left recorded))
    (forward : left ≠ t :: rest)
    (others : Runs v (.symbol rule (.repeated inner)) left o) :
    Runs v (.symbol rule (.repeated inner)) (t :: rest) (o.after recorded)
  /-- An element that cannot begin as expected is recorded and passed. -/
  | unexpected {rule : String} {inner : Symbol} {t : PlacedToken} {rest : List PlacedToken}
    {o : Outcome} (isOpen : t.token.isClose = false)
    (unexpected : ¬ Expects (v.firstOfSymbol inner) t)
    (others : Runs v (.symbol rule (.repeated inner)) (skipElement (t :: rest)) o) :
    Runs v (.symbol rule (.repeated inner)) (t :: rest)
      (o.after [.reject rule (v.firstOfSymbol inner) (t :: rest)])
  /-- So is one that does not fit. -/
  | misfit {rule : String} {inner : Symbol} {t : PlacedToken} {rest : List PlacedToken}
    {o : Outcome} (isOpen : t.token.isClose = false)
    (expected : Expects (v.firstOfSymbol inner) t)
    (first : Runs v (.symbol rule inner) (t :: rest) .mismatch)
    (others : Runs v (.symbol rule (.repeated inner)) (skipElement (t :: rest)) o) :
    Runs v (.symbol rule (.repeated inner)) (t :: rest)
      (o.after [.reject rule (v.firstOfSymbol inner) (t :: rest)])


/-! ## Outcomes -/

namespace Outcome
variable {o : Outcome} {earlier recorded : List Violation} {left : List PlacedToken}

@[simp] theorem after_eq_exhausted_iff : o.after earlier = .exhausted ↔ o = .exhausted := by
  cases o <;> simp [after]

theorem after_eq_parsed_iff :
    o.after earlier = .parsed left recorded ↔
      ∃ later, o = .parsed left later ∧ recorded = earlier ++ later := by
  cases o <;> simp [after, eq_comm]

end Outcome

/-- A run that comes to an end is not out of allowance: it has none. -/
theorem Runs.ne_exhausted {v : Validator} {task : Task} {rest : List PlacedToken} {o : Outcome}
    (h : Runs v task rest o) : o ≠ .exhausted := by
  induction h with
  | rule _ ih => exact ih
  | allFailed => simp
  | settled => simp
  | failed _ _ _ ih => exact ih
  | clean _ _ => simp
  | compared _ _ _ _ ih => exact ih
  | done => simp
  | stuck _ _ => simp
  | next _ _ _ ih => simpa using ih
  | terminal =>
    unfold takeTerminal
    split
    · simp
    · split <;> simp
  | nonterminal _ ih => exact ih
  | atEnd => simp
  | atClose _ => simp
  | idle _ _ _ _ => simp
  | again _ _ _ _ _ _ ih => simpa using ih
  | unexpected _ _ _ ih => simpa using ih
  | misfit _ _ _ _ _ ih => simpa using ih

/-! ## What a run takes and what it passes -/

/-- The way from the tokens ahead to the tokens left. Tokens are taken one by
one, and an element that begins with no closing token is passed as a whole
and recorded. -/
inductive Consumed : (ahead left : List PlacedToken) → (recorded : List Violation) →
    (taken : List TreeToken) → Prop where
  | nothing {rest : List PlacedToken} : Consumed rest rest [] []
  | take {t : PlacedToken} {rest left : List PlacedToken} {recorded : List Violation}
    {taken : List TreeToken} (others : Consumed rest left recorded taken) :
    Consumed (t :: rest) left recorded (t.token :: taken)
  | pass {rule : String} {expected : List Terminal} {t : PlacedToken}
    {rest left : List PlacedToken} {recorded : List Violation} {taken : List TreeToken}
    (isOpen : t.token.isClose = false)
    (others : Consumed (skipElement (t :: rest)) left recorded taken) :
    Consumed (t :: rest) left (.reject rule expected (t :: rest) :: recorded) taken

namespace Consumed
variable {ahead between left : List PlacedToken} {recorded later : List Violation}
  {taken more : List TreeToken}

theorem trans (h : Consumed ahead between recorded taken)
    (h' : Consumed between left later more) :
    Consumed ahead left (recorded ++ later) (taken ++ more) := by
  induction h with
  | nothing => exact h'
  | take _ ih => exact .take (ih h')
  | pass isOpen _ ih => exact .pass isOpen (ih h')

theorem suffix (h : Consumed ahead left recorded taken) : left <:+ ahead := by
  induction h with
  | nothing => exact List.suffix_refl _
  | take _ ih => exact ih.trans (List.suffix_cons _ _)
  | pass _ _ ih => exact ih.trans ((skipElement_suffix _ _).trans (List.suffix_cons _ _))

/-- Where nothing is passed, everything up to the tokens left is taken. -/
theorem map_token_of_clean (h : Consumed ahead left [] taken) :
    ahead.map PlacedToken.token = taken ++ left.map PlacedToken.token := by
  generalize hrecorded : ([] : List Violation) = recorded at h
  induction h with
  | nothing => rfl
  | take _ ih => rw [List.map_cons, ih hrecorded, List.cons_append]
  | pass _ _ _ => cases hrecorded

/-- Where nothing is left behind, nothing is taken. -/
theorem taken_eq_nil (h : Consumed ahead ahead recorded taken) : taken = [] := by
  generalize hleft : ahead = left at h
  cases h with
  | nothing => rfl
  | take others =>
    have hle := others.suffix.length_le
    rw [List.length_cons] at hle
    omega
  | pass _ others =>
    have hle := (others.suffix.trans (skipElement_suffix _ _)).length_le
    rw [List.length_cons] at hle
    omega

end Consumed

/-! ## What a run derives -/

namespace Validator

/-- The grammar that a validator was made of. -/
def grammar (v : Validator) : Grammar :=
  { name := v.name
    start := v.start
    rules := v.rules.map fun r => { lhs := r.lhs, alternatives := r.branches.map Branch.symbols } }

variable {v : Validator} {name : String} {b : Branch}

theorem mem_branchesOf_of_mem_candidates {rest : List PlacedToken}
    (h : b ∈ v.candidates name rest) : b ∈ v.branchesOf name := by
  unfold candidates at h
  dsimp only at h
  cases rest with
  | nil => exact List.mem_of_find?_eq_some (Option.mem_toList.mp h)
  | cons t rest =>
    dsimp only at h
    split at h
    · exact List.mem_of_find?_eq_some (Option.mem_toList.mp h)
    · exact (List.mem_filter.mp h).1

theorem exists_rule_of_mem_branchesOf (h : b ∈ v.branchesOf name) :
    ∃ r ∈ v.grammar.rules, r.lhs = name ∧ b.symbols ∈ r.alternatives := by
  unfold branchesOf at h
  cases hfind : v.rules.find? fun r => r.lhs == name with
  | none =>
    rw [hfind] at h
    cases h
  | some r =>
    rw [hfind] at h
    refine ⟨_, List.mem_map_of_mem (List.mem_of_find?_eq_some hfind), ?_, List.mem_map_of_mem h⟩
    simpa using List.find?_some hfind

/-- From the tokens ahead to those left, the symbols derive what is taken. -/
def Reads (v : Validator) (symbols : List Symbol) (ahead left : List PlacedToken)
    (recorded : List Violation) : Prop :=
  ∃ taken, Consumed ahead left recorded taken ∧ v.grammar.Derives symbols taken

theorem reads_nonterminal {ahead left : List PlacedToken} {recorded : List Violation}
    (hb : b ∈ v.branchesOf name) (h : v.Reads b.symbols ahead left recorded) :
    v.Reads [.nonterminal name] ahead left recorded := by
  obtain ⟨taken, hconsumed, hderives⟩ := h
  obtain ⟨r, hr, rfl, hmem⟩ := exists_rule_of_mem_branchesOf hb
  exact ⟨taken, hconsumed, .of_rule hr hmem hderives⟩

end Validator

theorem better_eq_or {best : Option (List PlacedToken × List Violation)} {left : List PlacedToken}
    {recorded : List Violation} :
    better best left recorded = (left, recorded) ∨ best = some (better best left recorded) := by
  unfold better
  split
  · exact Or.inl rfl
  · split
    · exact Or.inl rfl
    · exact Or.inr rfl

namespace Task

def toRead : Task → List Symbol
  | rule name => [.nonterminal name]
  | choice name _ _ => [.nonterminal name]
  | symbols _ list => list
  | symbol _ s => [s]

/-- The candidates of a choice are branches of its rule, and so was the one
that gave the best result. -/
def Sound (v : Validator) (rest : List PlacedToken) : Task → Prop
  | choice name best candidates =>
    (∀ b ∈ candidates, b ∈ v.branchesOf name) ∧
      ∀ left recorded, best = some (left, recorded) →
        v.Reads [.nonterminal name] rest left recorded
  | _ => True

end Task

/-- Whatever a run takes is derived from what it was to read, and whatever
else it leaves behind is recorded. -/
theorem Runs.reads {v : Validator} {task : Task} {rest : List PlacedToken} {o : Outcome}
    (h : Runs v task rest o) (hsound : task.Sound v rest) {left : List PlacedToken}
    {recorded : List Violation} (ho : o = .parsed left recorded) :
    v.Reads task.toRead rest left recorded := by
  induction h generalizing left recorded with
  | rule _ ih =>
    refine ih ⟨fun b hb => Validator.mem_branchesOf_of_mem_candidates hb, ?_⟩ ho
    intro left recorded hbest
    cases hbest
  | allFailed => cases ho
  | settled =>
    cases ho
    exact hsound.2 _ _ rfl
  | failed _ _ _ ih =>
    exact ih ⟨fun b hb => hsound.1 b (List.mem_cons_of_mem _ hb), hsound.2⟩ ho
  | clean _ ih => exact Validator.reads_nonterminal (hsound.1 _ List.mem_cons_self) (ih trivial ho)
  | compared _ _ _ ihfirst ih =>
    refine ih ⟨fun b hb => hsound.1 b (List.mem_cons_of_mem _ hb), ?_⟩ ho
    intro left recorded hbest
    -- The best result is the new one or was the best before.
    rcases better_eq_or with heq | heq
    · rw [heq] at hbest
      cases hbest
      exact Validator.reads_nonterminal (hsound.1 _ List.mem_cons_self) (ihfirst trivial rfl)
    · exact hsound.2 _ _ (heq.trans hbest)
  | done =>
    cases ho
    exact ⟨[], .nothing, .nil⟩
  | stuck _ _ => cases ho
  | next _ _ ihfirst ih =>
    obtain ⟨later, rfl, rfl⟩ := Outcome.after_eq_parsed_iff.mp ho
    obtain ⟨taken, hconsumed, hderives⟩ := ihfirst trivial rfl
    obtain ⟨more, hconsumed', hderives'⟩ := ih trivial rfl
    exact ⟨_, hconsumed.trans hconsumed', hderives.append hderives'⟩
  | @terminal _ t rest =>
    cases rest with
    | nil => cases ho
    | cons token rest =>
      rw [takeTerminal] at ho
      split at ho
      · next haccepts =>
        cases ho
        exact ⟨_, .take .nothing, .singleton haccepts⟩
      · cases ho
  | nonterminal _ ih => exact ih trivial ho
  | atEnd =>
    cases ho
    exact ⟨[], .nothing, .stop .nil⟩
  | atClose _ =>
    cases ho
    exact ⟨[], .nothing, .stop .nil⟩
  | idle _ _ _ ih =>
    obtain ⟨taken, hconsumed, hderives⟩ := ih trivial ho
    -- What ended the repetition was one more turn of it, and it may have recorded something.
    have hmore := Grammar.Derives.more hderives (.stop .nil)
    rw [List.append_nil] at hmore
    exact ⟨taken, hconsumed, hmore⟩
  | again _ _ _ _ _ ihfirst ih =>
    obtain ⟨later, rfl, rfl⟩ := Outcome.after_eq_parsed_iff.mp ho
    obtain ⟨taken, hconsumed, hderives⟩ := ihfirst trivial rfl
    obtain ⟨more, hconsumed', hderives'⟩ := ih trivial rfl
    exact ⟨_, hconsumed.trans hconsumed', .more hderives hderives'⟩
  | unexpected isOpen _ _ ih =>
    obtain ⟨later, rfl, rfl⟩ := Outcome.after_eq_parsed_iff.mp ho
    obtain ⟨taken, hconsumed, hderives⟩ := ih trivial rfl
    exact ⟨taken, .pass isOpen hconsumed, hderives⟩
  | misfit isOpen _ _ _ _ ih =>
    obtain ⟨later, rfl, rfl⟩ := Outcome.after_eq_parsed_iff.mp ho
    obtain ⟨taken, hconsumed, hderives⟩ := ih trivial rfl
    exact ⟨taken, .pass isOpen hconsumed, hderives⟩

end Validation

end TreeSchema
