import TreeSchema.Proofs.Soundness
import TreeSchema.Validation.Cursor
/-
  Moving a cursor

  A parse that moves a cursor makes of it what the same parse says of the
  tokens ahead: it moves to the tokens that are left and adds what is
  recorded, and whatever a failed attempt has added is dropped before
  anything else is tried (`tracks_rule`). So a document is judged alike in
  both ways (`validate?_eq`), and a choice among candidates is one of them
  tried alone (`Runs.choice_parsed`).
-/

namespace TreeSchema.Validation

/-! ## What a parse makes of a cursor -/

/-- What becomes of a cursor where a parse says this of the tokens ahead. A
failed attempt keeps what was recorded before it, and may add to it. -/
def Follows (c : Cursor) : Outcome → Attempt → Prop
  | .exhausted, a => a = .exhausted
  | .mismatch, a => ∃ left, a = .failed left ∧ c.recorded <+: left.recorded
  | .parsed rest recorded, a => a = .passed ⟨rest, c.recorded ++ recorded⟩

/-- The parse of the tokens ahead says what becomes of every cursor. -/
def Tracks (move : Move) (parse : Parse) : Prop := ∀ c, Follows c (parse c.ahead) (move c)

section
variable {c left : Cursor}

theorem follows_failed (h : c.recorded <+: left.recorded) : Follows c .mismatch (.failed left) :=
  ⟨left, rfl, h⟩

theorem follows_passed (c : Cursor) : Follows c (.parsed c.ahead []) (.passed c) := by
  simp [Follows]

/-- Setting a cursor back undoes what an attempt has done to it. -/
theorem backTo_eq (h : c.recorded <+: left.recorded) :
    left.backTo c.ahead c.recorded.length = c := by
  unfold Cursor.backTo
  rw [← List.prefix_iff_eq_take.mp h]

end

/-- A parse goes on from where another has led. -/
theorem Tracks.after {move : Move} {parse : Parse} (h : Tracks move parse) (c : Cursor)
    (rest : List PlacedToken) (added : List Violation) :
    Follows c ((parse rest).after added) (move ⟨rest, c.recorded ++ added⟩) := by
  have hnext := h ⟨rest, c.recorded ++ added⟩
  dsimp only at hnext
  generalize parse rest = o at hnext ⊢
  cases o with
  | exhausted => exact hnext
  | mismatch =>
    obtain ⟨left, hleft, hkept⟩ := hnext
    exact ⟨left, hleft, (List.prefix_append _ _).trans hkept⟩
  | parsed found more =>
    unfold Follows at hnext
    rw [hnext, List.append_assoc]
    rfl

theorem tracks_terminal (t : Terminal) : Tracks (moveTerminal t) (takeTerminal t) := by
  rintro ⟨ahead, recorded⟩
  cases ahead with
  | nil => exact follows_failed (List.prefix_refl _)
  | cons token rest =>
    unfold moveTerminal takeTerminal
    by_cases h : t.accepts token.token = true
    · simp [h, Follows]
    · simp [h, Follows]

/-! ## Repetitions -/

section
variable {move : Move} {parse : Parse} {expected : List Terminal} {rule : String}

/-- The induction is over the repetitions that are still allowed. A turn that
fails is undone, so that the next one begins where it would have begun
without it. -/
theorem tracks_repeatedFrom (h : Tracks move parse) (allowance : Nat) :
    Tracks (moveRepeatedFrom move expected rule allowance)
      (repeatFrom parse expected rule allowance) := by
  induction allowance with
  | zero => exact follows_passed
  | succ k ih =>
    rintro ⟨ahead, recorded⟩
    cases ahead with
    | nil => exact follows_passed _
    | cons token rest =>
      cases hclose : token.token.isClose with
      | true =>
        rw [repeatFrom_close hclose, moveRepeatedFrom]
        simp [hclose, Follows]
      | false =>
        rw [repeatFrom_open hclose, moveRepeatedFrom]
        simp only [hclose, Bool.false_eq_true, if_false]
        have hturn : Follows ⟨token :: rest, recorded⟩ (attempt parse expected token rest)
            (if expected.any fun t => t.accepts token.token then move ⟨token :: rest, recorded⟩
              else .failed ⟨token :: rest, recorded⟩) := by
          unfold attempt
          split
          · exact h _
          · exact follows_failed (List.prefix_refl _)
        generalize attempt parse expected token rest = o at hturn ⊢
        generalize (if expected.any fun t => t.accepts token.token
          then move ⟨token :: rest, recorded⟩ else .failed ⟨token :: rest, recorded⟩) = a at hturn ⊢
        cases o with
        | exhausted =>
          unfold Follows at hturn
          rw [hturn]
          rfl
        | mismatch =>
          obtain ⟨left, rfl, hleft⟩ := hturn
          have hback := backTo_eq hleft
          dsimp only at hback ⊢
          rw [hback]
          exact ih.after ⟨token :: rest, recorded⟩ _ _
        | parsed found added =>
          unfold Follows at hturn
          rw [hturn]
          dsimp only [List.length_cons]
          split
          · rfl
          · exact ih.after ⟨token :: rest, recorded⟩ _ _

theorem tracks_repeated (h : Tracks move parse) :
    Tracks (moveRepeated move expected rule) (repeatParse parse expected rule) :=
  fun c => tracks_repeatedFrom h c.ahead.length c

end

/-! ## Choices -/

section
variable {α : Type} {move : α → Move} {parse : α → Parse} {c left : Cursor}

/-- What becomes of a cursor where a failed attempt leaves no trace. -/
def Restores (c : Cursor) : Outcome → Attempt → Prop
  | .mismatch, a => a = .failed c
  | o, a => Follows c o a

theorem Restores.follows {o : Outcome} {a : Attempt} (h : Restores c o a) : Follows c o a := by
  cases o with
  | exhausted => exact h
  | mismatch => exact ⟨c, h, List.prefix_refl _⟩
  | parsed rest added => exact h

/-- The cursor that the candidates start from is `c`; the one at hand is what
the candidates before have left of it. -/
theorem restores_tryFrom (h : ∀ a, Tracks (move a) (parse a)) (candidates : List α)
    (best : Option (List PlacedToken × List Violation)) (hleft : c.recorded <+: left.recorded) :
    Restores c (chooseFrom (fun a => parse a c.ahead) best candidates)
      (tryFrom move c.ahead c.recorded.length best candidates left) := by
  induction candidates generalizing best left with
  | nil =>
    cases best with
    | none =>
      rw [tryFrom, backTo_eq hleft]
      rfl
    | some found =>
      rw [tryFrom, backTo_eq hleft]
      rfl
  | cons a others ih =>
    have hfirst := h a c
    rw [chooseFrom, tryFrom, backTo_eq hleft]
    generalize parse a c.ahead = o at hfirst ⊢
    cases o with
    | exhausted =>
      unfold Follows at hfirst
      rw [hfirst]
      rfl
    | mismatch =>
      obtain ⟨next, hnext, hprefix⟩ := hfirst
      rw [hnext]
      exact ih best hprefix
    | parsed rest added =>
      unfold Follows at hfirst
      rw [hfirst]
      have hlength : (c.recorded ++ added).length - c.recorded.length = added.length := by
        rw [List.length_append]
        omega
      have hclean : (c.recorded ++ added).length = c.recorded.length ↔ added = [] := by
        rw [List.length_append, ← List.length_eq_zero_iff]
        omega
      dsimp only
      by_cases hadded : added = []
      · subst hadded
        simp [Restores, Follows]
      · rw [if_neg (by simpa using hadded), if_neg (fun heq => hadded (hclean.mp heq)), hlength,
          List.drop_left]
        have hkept : c.recorded <+: (⟨rest, c.recorded ++ added⟩ : Cursor).recorded :=
          List.prefix_append _ _
        cases best with
        | none => exact ih _ hkept
        | some found =>
          obtain ⟨bestRest, bestAdded⟩ := found
          by_cases hfewer : added.length < bestAdded.length
          · simp only [Option.all_some, hfewer, decide_true, if_true, better]
            exact ih _ hkept
          · simp only [Option.all_some, hfewer, decide_false, Bool.false_eq_true, if_false, better]
            exact ih _ hkept

theorem restores_tryAll (h : ∀ a, Tracks (move a) (parse a)) (candidates : List α) (c : Cursor) :
    Restores c (choose (fun a => parse a c.ahead) candidates) (tryAll move candidates c) :=
  restores_tryFrom h candidates none (List.prefix_refl _)

end

/-! ## Rules -/

namespace Validator
variable {v : Validator} {call : String → Parse} {moveCall : String → Move} {rule : String}

theorem tracks_symbol (h : ∀ name, Tracks (moveCall name) (call name)) (s : Symbol) :
    Tracks (v.moveSymbol moveCall rule s) (v.parseSymbol call rule s) := by
  induction s with
  | terminal t => exact tracks_terminal t
  | nonterminal name => exact h name
  | repeated inner ih => exact tracks_repeated ih

theorem tracks_symbols (h : ∀ name, Tracks (moveCall name) (call name)) (symbols : List Symbol) :
    Tracks (v.moveSymbols moveCall rule symbols) (v.parseSymbols call rule symbols) := by
  induction symbols with
  | nil => exact follows_passed
  | cons s others ih =>
    intro c
    have hfirst : Follows c _ (v.moveSymbol moveCall rule s c) := tracks_symbol h s c
    rw [moveSymbols, parseSymbols]
    generalize v.parseSymbol call rule s c.ahead = o at hfirst ⊢
    cases o with
    | exhausted =>
      unfold Follows at hfirst
      rw [hfirst]
      rfl
    | mismatch =>
      obtain ⟨left, hleft, hprefix⟩ := hfirst
      rw [hleft]
      exact follows_failed hprefix
    | parsed rest added =>
      unfold Follows at hfirst
      rw [hfirst]
      exact ih.after c rest added

theorem tracks_rule (v : Validator) (allowance : Nat) (name : String) :
    Tracks (v.moveRule allowance name) (v.parseRule allowance name) := by
  induction allowance generalizing name with
  | zero => exact fun c => rfl
  | succ k ih =>
    have hbranch : ∀ b : Branch, Tracks (v.moveSymbols (v.moveRule k) name b.symbols)
        (v.parseSymbols (v.parseRule k) name b.symbols) := fun b => tracks_symbols ih b.symbols
    intro c
    rw [moveRule, parseRule]
    split
    · next hnone =>
      rw [hnone]
      exact follows_failed (List.prefix_refl _)
    · next only honly =>
      rw [honly, choose_singleton]
      exact hbranch only c
    · exact (restores_tryAll hbranch _ c).follows

/-- Moving one cursor over a document comes to what parsing its tokens comes
to. -/
theorem validate?_eq (v : Validator) (document : Node) :
    v.validate? document = v.violations? document := by
  have hrule := tracks_rule v (v.allowance document) v.start ⟨document.tokens, []⟩
  unfold validate? violations? violationsWithin?
  dsimp only at hrule ⊢
  generalize v.parseRule (v.allowance document) v.start document.tokens = o at hrule ⊢
  cases o with
  | exhausted =>
    unfold Follows at hrule
    rw [hrule]
  | mismatch =>
    obtain ⟨left, hleft, _⟩ := hrule
    rw [hleft]
    rfl
  | parsed rest recorded =>
    unfold Follows at hrule
    rw [hrule]
    cases rest <;> rfl

end Validator

/-! ## Moves that come to an end -/

theorem Runs.unique {v : Validator} {task : Task} {rest : List PlacedToken} {o o' : Outcome}
    (h : Runs v task rest o) (h' : Runs v task rest o') : o = o' := by
  obtain ⟨n, hn⟩ := h.perform_eq
  obtain ⟨k, hk⟩ := h'.perform_eq
  rw [← hn (max n k) (by omega), ← hk (max n k) (by omega)]

/-- With enough allowance of nested rules the move ends in this way. -/
def Concludes (moves : Nat → Move) (c : Cursor) (a : Attempt) : Prop :=
  a ≠ .exhausted ∧ ∃ allowance, moves allowance c = a

section
variable {v : Validator} {moves : Nat → Move} {task : Task} {c next : Cursor}

theorem concludes_passed_iff (h : ∀ n, Tracks (moves n) (v.perform n task)) :
    Concludes moves c (.passed next) ↔
      ∃ rest added, Runs v task c.ahead (.parsed rest added) ∧
        next = ⟨rest, c.recorded ++ added⟩ := by
  constructor
  · rintro ⟨_, n, hn⟩
    have hfollows := h n c
    have hruns : v.perform n task c.ahead ≠ .exhausted → Runs v task c.ahead _ := runs_perform
    rw [hn] at hfollows
    generalize v.perform n task c.ahead = o at hfollows hruns
    cases o with
    | exhausted => cases hfollows
    | mismatch =>
      obtain ⟨_, hleft, _⟩ := hfollows
      cases hleft
    | parsed rest added =>
      cases hfollows
      exact ⟨rest, added, hruns (by simp), rfl⟩
  · rintro ⟨rest, added, hruns, rfl⟩
    obtain ⟨n, hn⟩ := hruns.perform_eq
    have hfollows := h n c
    rw [hn n (Nat.le_refl n)] at hfollows
    exact ⟨by simp, n, hfollows⟩

theorem concludes_failed_iff (h : ∀ n, Tracks (moves n) (v.perform n task)) :
    (∃ left, Concludes moves c (.failed left)) ↔ Runs v task c.ahead .mismatch := by
  constructor
  · rintro ⟨left, _, n, hn⟩
    have hfollows := h n c
    have hruns : v.perform n task c.ahead ≠ .exhausted → Runs v task c.ahead _ := runs_perform
    rw [hn] at hfollows
    generalize v.perform n task c.ahead = o at hfollows hruns
    cases o with
    | exhausted => cases hfollows
    | mismatch => exact hruns (by simp)
    | parsed rest added => cases hfollows
  · intro hruns
    obtain ⟨n, hn⟩ := hruns.perform_eq
    have hfollows := h n c
    rw [hn n (Nat.le_refl n)] at hfollows
    obtain ⟨left, hleft, _⟩ := hfollows
    exact ⟨left, by simp, n, hleft⟩

end

/-! ## The earliest of the least -/

section
variable {v : Validator} {rule : String} {rest left : List PlacedToken} {added : List Violation}
  {best : Option (List PlacedToken × List Violation)} {candidates : List Branch}

/-- The branch adds no fewer violations than these, wherever it leads. -/
def AddsAtLeast (v : Validator) (rule : String) (rest : List PlacedToken) (count : Nat)
    (b : Branch) : Prop :=
  ∀ left added, Runs v (.symbols rule b.symbols) rest (.parsed left added) → count ≤ added.length

theorem Runs.addsAtLeast {b : Branch} {o : Outcome} {count : Nat}
    (h : Runs v (.symbols rule b.symbols) rest o)
    (hcount : ∀ left added, o = .parsed left added → count ≤ added.length) :
    AddsAtLeast v rule rest count b :=
  fun left added hruns => hcount left added (h.unique hruns)

/-- The new result is better than the best so far, or the best so far stays
and is no worse. -/
theorem better_cases (best : Option (List PlacedToken × List Violation))
    (left : List PlacedToken) (added : List Violation) :
    (better best left added = (left, added) ∧
        ∀ found, best = some found → added.length < found.2.length) ∨
      ∃ found, best = some found ∧ better best left added = found ∧
        found.2.length ≤ added.length := by
  cases best with
  | none => simp [better]
  | some found =>
    unfold better
    dsimp only
    split
    · next hless =>
      refine Or.inl ⟨rfl, ?_⟩
      rintro _ ⟨⟩
      exact hless
    · next hless => exact Or.inr ⟨found, rfl, rfl, Nat.not_lt.mp hless⟩

/-- A choice fails just if all its candidates do. -/
theorem Runs.choice_mismatch_iff :
    Runs v (.choice rule best candidates) rest .mismatch ↔
      best = none ∧ ∀ b ∈ candidates, Runs v (.symbols rule b.symbols) rest .mismatch := by
  induction candidates generalizing best with
  | nil =>
    constructor
    · intro h
      cases h
      simp
    · rintro ⟨rfl, _⟩
      exact .allFailed
  | cons b others ih =>
    rw [List.forall_mem_cons]
    constructor
    · intro h
      cases h with
      | failed first next =>
        obtain ⟨hbest, hothers⟩ := ih.mp next
        exact ⟨hbest, first, hothers⟩
      | compared first some_recorded next => cases (ih.mp next).1
    · rintro ⟨hbest, hb, hothers⟩
      exact .failed hb (ih.mpr ⟨hbest, hothers⟩)

/-- Where a choice leads, the best result so far or one of the candidates has
led, and it is the earliest of those that add least. The induction is over the
candidates; the best result so far is earlier than all of them. -/
theorem Runs.choice_parsed (h : Runs v (.choice rule best candidates) rest (.parsed left added))
    (hbest : ∀ found, best = some found → found.2 ≠ []) :
    (best = some (left, added) ∧ ∀ b ∈ candidates, AddsAtLeast v rule rest added.length b) ∨
      ∃ before b after, candidates = before ++ b :: after ∧
        Runs v (.symbols rule b.symbols) rest (.parsed left added) ∧
        (∀ other ∈ before, AddsAtLeast v rule rest (added.length + 1) other) ∧
        (∀ other ∈ after, AddsAtLeast v rule rest added.length other) ∧
        ∀ found, best = some found → added.length < found.2.length := by
  induction candidates generalizing best with
  | nil =>
    cases h
    exact Or.inl ⟨rfl, by simp⟩
  | cons b others ih =>
    cases h with
    | failed first next =>
      rcases ih next hbest with ⟨hsame, hothers⟩ | ⟨before, x, after, rfl, hx, hbefore, hrest⟩
      · refine Or.inl ⟨hsame, List.forall_mem_cons.mpr ⟨first.addsAtLeast ?_, hothers⟩⟩
        simp
      · refine Or.inr ⟨b :: before, x, after, rfl, hx, ?_, hrest⟩
        refine List.forall_mem_cons.mpr ⟨first.addsAtLeast ?_, hbefore⟩
        simp
    | clean first =>
      refine Or.inr ⟨[], b, others, rfl, first, by simp, ?_, fun found hfound => ?_⟩
      · exact fun other _ _ _ _ => Nat.zero_le _
      · exact List.length_pos_iff.mpr (hbest found hfound)
    | @compared _ _ _ _ _ tried more _ first some_recorded next =>
      rcases better_cases best tried more with ⟨hnew, hless⟩ | ⟨found, rfl, hold, hle⟩
      · rw [hnew] at next
        have hnonempty : ∀ found, some (tried, more) = some found → found.2 ≠ [] := by
          rintro _ ⟨⟩
          exact some_recorded
        rcases ih next hnonempty with ⟨hsame, hothers⟩ |
          ⟨before, x, after, rfl, hx, hbefore, hafter, hfewer⟩
        · obtain ⟨rfl, rfl⟩ := Prod.mk.inj (Option.some.inj hsame)
          exact Or.inr ⟨[], b, others, rfl, first, by simp, hothers, hless⟩
        · have hfewer := hfewer _ rfl
          refine Or.inr ⟨b :: before, x, after, rfl, hx, ?_, hafter, fun found hfound => ?_⟩
          · refine List.forall_mem_cons.mpr ⟨first.addsAtLeast ?_, hbefore⟩
            rintro _ _ ⟨⟩
            exact hfewer
          · exact Nat.lt_trans hfewer (hless found hfound)
      · rw [hold] at next
        rcases ih next hbest with ⟨hsame, hothers⟩ |
          ⟨before, x, after, rfl, hx, hbefore, hafter, hfewer⟩
        · obtain rfl := Option.some.inj hsame
          refine Or.inl ⟨rfl, List.forall_mem_cons.mpr ⟨first.addsAtLeast ?_, hothers⟩⟩
          rintro _ _ ⟨⟩
          exact hle
        · refine Or.inr ⟨b :: before, x, after, rfl, hx, ?_, hafter, hfewer⟩
          refine List.forall_mem_cons.mpr ⟨first.addsAtLeast ?_, hbefore⟩
          rintro _ _ ⟨⟩
          exact Nat.lt_of_lt_of_le (hfewer found rfl) hle

end

namespace Validator

variable {v : Validator} {rule : String} {candidates : List Branch} {c : Cursor}

theorem tracks_branch (v : Validator) (rule : String) (b : Branch) (n : Nat) :
    Tracks (v.moveBranch (v.moveRule n) rule b) (v.perform n (.symbols rule b.symbols)) :=
  tracks_symbols (tracks_rule v n) b.symbols

theorem restores_choice (v : Validator) (rule : String) (candidates : List Branch) (n : Nat)
    (c : Cursor) :
    Restores c (v.perform n (.choice rule none candidates) c.ahead)
      (v.moveChoice (v.moveRule n) rule candidates c) :=
  restores_tryAll (fun b => tracks_branch v rule b n) candidates c

theorem tracks_choice (v : Validator) (rule : String) (candidates : List Branch) (n : Nat) :
    Tracks (v.moveChoice (v.moveRule n) rule candidates)
      (v.perform n (.choice rule none candidates)) :=
  fun c => (restores_choice v rule candidates n c).follows

theorem eq_of_moveChoice_failed {n : Nat} {left : Cursor}
    (h : v.moveChoice (v.moveRule n) rule candidates c = .failed left) : left = c := by
  have hrestores := restores_choice v rule candidates n c
  rw [h] at hrestores
  generalize v.perform n (.choice rule none candidates) c.ahead = o at hrestores
  cases o with
  | exhausted => cases hrestores
  | mismatch => exact Attempt.failed.inj hrestores
  | parsed rest added => cases hrestores

end Validator

/-- A choice that comes to an end fails just if every candidate fails when it
is tried alone from the same cursor, and then the cursor is as it was. Else it
leaves the cursor as the earliest of the candidates does that add the fewest
violations, each tried alone from the same cursor; what was recorded before
stays in front. -/
theorem choice_earliest_least {v : Validator} {rule : String} {candidates : List Branch}
    {c : Cursor} {a : Attempt}
    (h : Concludes (fun n => v.moveChoice (v.moveRule n) rule candidates) c a) :
    ((∃ left, a = .failed left) ↔
      ∀ b ∈ candidates, ∃ left,
        Concludes (fun n => v.moveBranch (v.moveRule n) rule b) c (.failed left)) ∧
    (∀ left, a = .failed left → left = c) ∧
    ∀ next, a = .passed next → ∃ before b after, candidates = before ++ b :: after ∧
      Concludes (fun n => v.moveBranch (v.moveRule n) rule b) c (.passed next) ∧
      ∃ added, next.recorded = c.recorded ++ added ∧
        (∀ other ∈ before, ∀ found,
          Concludes (fun n => v.moveBranch (v.moveRule n) rule other) c (.passed found) →
          ∃ more, found.recorded = c.recorded ++ more ∧ added.length < more.length) ∧
        ∀ other ∈ after, ∀ found,
          Concludes (fun n => v.moveBranch (v.moveRule n) rule other) c (.passed found) →
          ∃ more, found.recorded = c.recorded ++ more ∧ added.length ≤ more.length := by
  have hchoice := Validator.tracks_choice v rule candidates
  have hbranch := Validator.tracks_branch v rule
  -- What a candidate adds when it is tried alone is what its run adds.
  have hadds : ∀ {count : Nat} {b : Branch}, AddsAtLeast v rule c.ahead count b →
      ∀ found, Concludes (fun n => v.moveBranch (v.moveRule n) rule b) c (.passed found) →
        ∃ more, found.recorded = c.recorded ++ more ∧ count ≤ more.length := by
    intro count b hb found hfound
    obtain ⟨rest, added, hruns, rfl⟩ := (concludes_passed_iff (hbranch b)).mp hfound
    exact ⟨added, rfl, hb rest added hruns⟩
  refine ⟨?_, ?_, ?_⟩
  · constructor
    · rintro ⟨left, rfl⟩ b hb
      have hruns := (concludes_failed_iff hchoice).mp ⟨left, h⟩
      exact (concludes_failed_iff (hbranch b)).mpr ((Runs.choice_mismatch_iff.mp hruns).2 b hb)
    · intro hall
      have hruns : Runs v (.choice rule none candidates) c.ahead .mismatch :=
        Runs.choice_mismatch_iff.mpr
          ⟨rfl, fun b hb => (concludes_failed_iff (hbranch b)).mp (hall b hb)⟩
      cases a with
      | exhausted => exact absurd rfl h.1
      | failed left => exact ⟨left, rfl⟩
      | passed next =>
        obtain ⟨_, _, hpassed, _⟩ := (concludes_passed_iff hchoice).mp h
        cases hruns.unique hpassed
  · rintro left rfl
    obtain ⟨_, n, hn⟩ := h
    exact Validator.eq_of_moveChoice_failed hn
  · rintro next rfl
    obtain ⟨rest, added, hruns, rfl⟩ := (concludes_passed_iff hchoice).mp h
    rcases hruns.choice_parsed (by simp) with ⟨hnone, _⟩ |
      ⟨before, b, after, heq, hb, hbefore, hafter, _⟩
    · cases hnone
    · refine ⟨before, b, after, heq, (concludes_passed_iff (hbranch b)).mpr ⟨rest, added, hb, rfl⟩,
        added, rfl, ?_, ?_⟩
      · exact fun other hother => hadds (hbefore other hother)
      · exact fun other hother => hadds (hafter other hother)

/-- A list that neither kind of item fits, after a violation elsewhere. -/
def sharedCursor : Cursor :=
  { ahead := (Node.sequence [.scalar "two", .scalar "three"]).tokensAt "/1"
    recorded := [{ path := "/0", found := "mapping", expected := ["'['"], rule := "list" }] }

/-- The first kind of item would add two violations, and the second adds one
after the violation elsewhere. -/
theorem shared_choice_earliest_least :
    ∃ v next, Validator.ofGrammar sharedGrammar = .ok v ∧
      Concludes (fun n => v.moveChoice (v.moveRule n) "item" (v.branchesOf "item")) sharedCursor
        (.passed next) ∧
      next.recorded.map Violation.path = ["/0", "/1/1"] ∧
      ∃ before b after, v.branchesOf "item" = before ++ b :: after ∧
        Concludes (fun n => v.moveBranch (v.moveRule n) "item" b) sharedCursor (.passed next) := by
  have hchoice : Concludes (fun n => (Validator.prepared sharedGrammar).moveChoice
      ((Validator.prepared sharedGrammar).moveRule n) "item"
      ((Validator.prepared sharedGrammar).branchesOf "item")) sharedCursor
      (.passed ⟨[], sharedCursor.recorded ++
        [{ path := "/1/1", found := "scalar \"three\"", expected := ["\"two\""]
           rule := "twos" }]⟩) :=
    ⟨by simp, 1, by decide +kernel⟩
  obtain ⟨before, b, after, heq, hb, _⟩ := (choice_earliest_least hchoice).2.2 _ rfl
  exact ⟨_, _, ofGrammar_shared, hchoice, rfl, before, b, after, heq, hb⟩

end TreeSchema.Validation
