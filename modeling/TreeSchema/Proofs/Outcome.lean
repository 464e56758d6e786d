import TreeSchema.Proofs.TokenStream
import TreeSchema.Proofs.TreeWalk
import TreeSchema.Validation.Outcome
/-
  Parsing element by element

  The two places where parsing departs from a plain reading of the rules. A
  choice among candidates that take the same element is the least of their
  verdicts, the earlier one on a tie (`choose_eq`). A repetition takes or
  passes one element at a time, and what it records is what is wrong with
  each (`repeatParse_eq`).
-/

namespace TreeSchema.Validation

/-- The outcome of taking one element and leaving `rest`, where this is what
is wrong with the element; `none` is for an element that does not fit. -/
def Outcome.ofVerdict (rest : List PlacedToken) : Option (List Violation) → Outcome
  | none => .mismatch
  | some recorded => .parsed rest recorded

@[simp] theorem Outcome.after_nil (o : Outcome) : o.after [] = o := by
  cases o <;> rfl

/-- Nothing left to parse changes nothing. -/
@[simp] theorem Outcome.andThen_parsed (o : Outcome) :
    o.andThen (fun rest => .parsed rest []) = o := by
  cases o with
  | exhausted => rfl
  | mismatch => rfl
  | parsed rest recorded => simp [andThen, after]

/-! ## Choices -/

section
variable {α : Type} {parse : α → Outcome} {verdict : α → Option (List Violation)}
  {candidates : List α} {rest : List PlacedToken}

theorem minOn?_length_cons_cons {β : Type} (x y : List β) (lists : List (List β)) :
    (x :: y :: lists).minOn? List.length
      = ((if y.length < x.length then y else x) :: lists).minOn? List.length := by
  have hmin : minOn List.length x y = if y.length < x.length then y else x := by
    unfold minOn
    by_cases h : y.length < x.length
    · rw [if_pos h, if_neg (Nat.not_le.mpr h)]
    · rw [if_neg h, if_pos (Nat.not_lt.mp h)]
  rw [← hmin]
  rfl

/-- The induction is over the candidates; the best result so far stands for
those already tried. -/
theorem chooseFrom_eq (h : ∀ a ∈ candidates, parse a = .ofVerdict rest (verdict a))
    (best : Option (List Violation)) :
    chooseFrom parse (best.map fun recorded => (rest, recorded)) candidates
      = .ofVerdict rest ((best.toList ++ candidates.filterMap verdict).minOn? List.length) := by
  induction candidates generalizing best with
  | nil => cases best <;> rfl
  | cons a others ih =>
    have hothers : ∀ b ∈ others, parse b = .ofVerdict rest (verdict b) :=
      fun b hb => h b (List.mem_cons_of_mem a hb)
    rw [chooseFrom, h a List.mem_cons_self]
    cases hv : verdict a with
    | none =>
      rw [List.filterMap_cons_none hv, ← ih hothers]
      rfl
    | some recorded =>
      rw [List.filterMap_cons_some hv]
      dsimp only [Outcome.ofVerdict]
      cases recorded with
      | nil =>
        -- Nothing that is tried later can be less than nothing.
        have hclean : [] ∈ best.toList ++ [] :: others.filterMap verdict :=
          List.mem_append_right _ List.mem_cons_self
        rw [Schema.minOn?_length_eq_nil_iff.mpr hclean]
        rfl
      | cons v more =>
        rw [List.isEmpty_cons, if_neg Bool.false_ne_true]
        cases best with
        | none => exact ih hothers (some (v :: more))
        | some earlier =>
          rw [Option.toList_some, List.singleton_append, minOn?_length_cons_cons]
          have hbetter : better (some (rest, earlier)) rest (v :: more)
              = (rest, if (v :: more).length < earlier.length then v :: more else earlier) := by
            unfold better
            dsimp only
            split <;> rfl
          rw [Option.map_some, hbetter]
          exact ih hothers (some _)

/-- A choice is the least of the verdicts of its candidates. -/
theorem choose_eq (h : ∀ a ∈ candidates, parse a = .ofVerdict rest (verdict a)) :
    choose parse candidates
      = .ofVerdict rest ((candidates.filterMap verdict).minOn? List.length) :=
  chooseFrom_eq h none

theorem choose_singleton (a : α) : choose parse [a] = parse a := by
  unfold choose
  rw [chooseFrom]
  cases parse a with
  | exhausted => rfl
  | mismatch => rfl
  | parsed rest recorded => cases recorded <;> rfl

theorem chooseFrom_map {β : Type} (f : β → α) (others : List β)
    (best : Option (List PlacedToken × List Violation)) :
    chooseFrom parse best (others.map f) = chooseFrom (fun b => parse (f b)) best others := by
  induction others generalizing best with
  | nil => rfl
  | cons b rest ih =>
    rw [List.map_cons, chooseFrom, chooseFrom]
    cases parse (f b) with
    | exhausted => rfl
    | mismatch => exact ih best
    | parsed rest recorded =>
      dsimp only
      rw [ih]

theorem choose_map {β : Type} (f : β → α) (others : List β) :
    choose parse (others.map f) = choose (fun b => parse (f b)) others :=
  chooseFrom_map f others none

end

/-! ## Repetitions -/

/-- The tokens are those of one element, this is what parsing it as `inner`
gives whatever follows, and one that cannot begin as expected does not
fit. -/
structure Judged (inner : Parse) (expected : List Terminal) (element : List PlacedToken)
    (verdict : Option (List Violation)) : Prop where
  opens : ∃ t tail, element = t :: tail ∧ t.token.isClose = false ∧
    ((expected.any fun head => head.accepts t.token) = false → verdict = none)
  skips : ∀ after, skipElement (element ++ after) = after
  parses : ∀ after, inner (element ++ after) = .ofVerdict after verdict

section
variable {inner : Parse} {expected : List Terminal} {rule : String}

/-- One step of a repetition: the element is taken or passed, and what is
wrong with it is recorded. -/
theorem repeatFrom_step {element : List PlacedToken} {verdict : Option (List Violation)}
    (h : Judged inner expected element verdict) (allowance : Nat) (after : List PlacedToken) :
    repeatFrom inner expected rule (allowance + 1) (element ++ after)
      = (repeatFrom inner expected rule allowance after).after
          (verdict.getD [.reject rule expected element]) := by
  obtain ⟨t, tail, rfl, hopen, hexpected⟩ := h.opens
  have hskip := h.skips after
  have hparse := h.parses after
  rw [List.cons_append] at hskip hparse ⊢
  have hattempt : (if expected.any fun head => head.accepts t.token
      then inner (t :: (tail ++ after)) else .mismatch) = .ofVerdict after verdict := by
    split
    · exact hparse
    · next hnot =>
      rw [hexpected (Bool.eq_false_iff.mpr hnot)]
      rfl
  rw [repeatFrom, if_neg (by rw [hopen]; exact Bool.false_ne_true)]
  dsimp only
  rw [hattempt]
  cases verdict with
  | none =>
    dsimp only [Outcome.ofVerdict]
    rw [hskip]
    rfl
  | some recorded =>
    dsimp only [Outcome.ofVerdict]
    -- The element holds a token, so that parsing it has gone forward.
    rw [if_neg (by rw [List.length_append]; omega)]
    rfl

/-- A repetition over elements up to the end of their container. -/
theorem repeatFrom_elements {α : Type} {tokens : α → List PlacedToken}
    {verdict : α → Option (List Violation)} {parts : List α}
    (h : ∀ a ∈ parts, Judged inner expected (tokens a) (verdict a)) {closing : PlacedToken}
    (hclosing : closing.token.isClose = true) (rest : List PlacedToken) {allowance : Nat}
    (hallowance : parts.length ≤ allowance) :
    repeatFrom inner expected rule allowance (parts.flatMap tokens ++ closing :: rest)
      = .parsed (closing :: rest)
          (parts.flatMap fun a => (verdict a).getD [.reject rule expected (tokens a)]) := by
  induction parts generalizing allowance with
  | nil =>
    cases allowance with
    | zero => rfl
    | succ k =>
      rw [List.flatMap_nil, List.nil_append, repeatFrom, if_pos hclosing]
      rfl
  | cons a others ih =>
    obtain ⟨k, rfl⟩ : ∃ k, allowance = k + 1 := ⟨allowance - 1, by simp at hallowance; omega⟩
    rw [List.flatMap_cons, List.append_assoc, repeatFrom_step (h a List.mem_cons_self),
      ih (fun b hb => h b (List.mem_cons_of_mem a hb)) (by simpa using hallowance),
      List.flatMap_cons]
    rfl

theorem length_le_flatMap {α : Type} {tokens : α → List PlacedToken} {parts : List α}
    (h : ∀ a ∈ parts, tokens a ≠ []) : parts.length ≤ (parts.flatMap tokens).length := by
  induction parts with
  | nil => exact Nat.le_refl _
  | cons a others ih =>
    have hfirst := List.length_pos_iff.mpr (h a List.mem_cons_self)
    have hothers := ih (fun b hb => h b (List.mem_cons_of_mem a hb))
    rw [List.flatMap_cons, List.length_append, List.length_cons]
    omega

/-- What a repetition records is what is wrong with each element. -/
theorem repeatParse_eq {α : Type} {tokens : α → List PlacedToken}
    {verdict : α → Option (List Violation)} {parts : List α}
    (h : ∀ a ∈ parts, Judged inner expected (tokens a) (verdict a)) {closing : PlacedToken}
    (hclosing : closing.token.isClose = true) (rest : List PlacedToken) :
    repeatParse inner expected rule (parts.flatMap tokens ++ closing :: rest)
      = .parsed (closing :: rest)
          (parts.flatMap fun a => (verdict a).getD [.reject rule expected (tokens a)]) := by
  have hne : ∀ a ∈ parts, tokens a ≠ [] := by
    intro a ha hnil
    obtain ⟨t, tail, htokens, _⟩ := (h a ha).opens
    rw [hnil] at htokens
    cases htokens
  have hlength := length_le_flatMap hne
  refine repeatFrom_elements h hclosing rest ?_
  rw [List.length_append]
  omega

end

end TreeSchema.Validation
