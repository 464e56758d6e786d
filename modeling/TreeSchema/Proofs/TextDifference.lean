import TreeSchema.Conformance.Diff
import TreeSchema.Proofs.Placeholders
import TreeSchema.Proofs.Spacing
/-
  Differences between texts

  Texts are compared line by line, and cutting a text into lines loses how its
  lines end. Two texts have the same lines exactly when they are the same
  after every carriage return before a line feed has been left out, and a line
  feed added to a last line that has none (`Text.settled_eq_iff`). So a line
  that is named is the first at which the texts differ, but where no line is
  named they need not be the same up to the line feeds at their ends: a
  carriage return before a line feed is lost anywhere in a text.
-/

namespace TreeSchema

namespace Text

/-! ## Lines -/

/-- The text is the lines in order. A line ends with a line feed, or with a
carriage return and a line feed. The last one may have no such end, and is
then not empty. -/
inductive Lined : List (List Char) → List Char → Prop where
  | nil : Lined [] []
  | last {line : List Char} (nonempty : line ≠ []) (unbroken : '\n' ∉ line) : Lined [line] line
  | feed {line rest : List Char} {others : List (List Char)} (unbroken : '\n' ∉ line)
    (plain : line.getLast? ≠ some '\r') (more : Lined others rest) :
    Lined (line :: others) (line ++ '\n' :: rest)
  | returned {line rest : List Char} {others : List (List Char)} (unbroken : '\n' ∉ line)
    (more : Lined others rest) : Lined (line :: others) (line ++ '\r' :: '\n' :: rest)

theorem closeLine_returned (line : List Char) : closeLine (line ++ ['\r']).reverse = line := by
  rw [List.reverse_append, List.reverse_singleton, List.singleton_append, closeLine,
    List.reverse_reverse]

theorem closeLine_plain {line : List Char} (h : line.getLast? ≠ some '\r') :
    closeLine line.reverse = line := by
  unfold closeLine
  split
  · next rest hrest =>
    rw [List.reverse_eq_cons_iff] at hrest
    exact absurd (by rw [hrest, List.getLast?_concat]) h
  · exact List.reverse_reverse line

theorem lines_unbroken {line : List Char} (hne : line ≠ []) (h : '\n' ∉ line) :
    lines line = [line] := by
  have hread := linesFrom_append h [] []
  rw [List.append_nil, List.append_nil] at hread
  rw [lines, hread, linesFrom, List.reverse_reverse]
  exact fun hnil => hne (List.reverse_eq_nil_iff.mp hnil)

/-- Every text is its lines. -/
theorem lined_lines (text : List Char) : Lined (lines text) text := by
  -- The induction is on the length: what follows the first line is shorter.
  by_cases hfeed : '\n' ∈ text
  · obtain ⟨row, rest, rfl, hrow⟩ := List.eq_append_cons_of_mem hfeed
    have ih := lined_lines rest
    rw [lines_cons_feed hrow]
    by_cases hreturn : row.getLast? = some '\r'
    · obtain ⟨line, rfl⟩ := List.getLast?_eq_some_iff.mp hreturn
      rw [closeLine_returned, List.append_assoc]
      exact .returned (fun h => hrow (List.mem_append_left _ h)) ih
    · rw [closeLine_plain hreturn]
      exact .feed hrow hreturn ih
  · by_cases hempty : text = []
    · rw [hempty]
      exact .nil
    · rw [lines_unbroken hempty hfeed]
      exact .last hempty hfeed
termination_by text.length
decreasing_by
  subst_vars
  simp only [List.length_append, List.length_cons]
  omega

namespace Lined
variable {ls : List (List Char)} {text : List Char}

/-- No text is other lines than its own. -/
theorem lines_eq (h : Lined ls text) : lines text = ls := by
  induction h with
  | nil => rfl
  | last hne hline => exact lines_unbroken hne hline
  | feed hline hplain _ ih => rw [lines_cons_feed hline, closeLine_plain hplain, ih]
  | @returned line rest _ hline _ ih =>
    have hrow : '\n' ∉ line ++ ['\r'] := by simp [hline]
    have htext : line ++ '\r' :: '\n' :: rest = (line ++ ['\r']) ++ '\n' :: rest := by simp
    rw [htext, lines_cons_feed hrow, closeLine_returned, ih]

theorem feed_notMem (h : Lined ls text) {line : List Char} (hline : line ∈ ls) : '\n' ∉ line := by
  induction h with
  | nil => cases hline
  | last _ hunbroken =>
    rw [List.mem_singleton.mp hline]
    exact hunbroken
  | feed hunbroken _ _ ih | returned hunbroken _ ih =>
    rcases List.mem_cons.mp hline with rfl | hline
    · exact hunbroken
    · exact ih hline

end Lined

theorem lined_iff {ls : List (List Char)} {text : List Char} :
    Lined ls text ↔ lines text = ls := by
  constructor
  · exact Lined.lines_eq
  · rintro rfl
    exact lined_lines text

/-! ## Line ends -/

/-- The text without the carriage returns that stand before line feeds. -/
def unreturned (text : List Char) : List Char := replaceFrom ['\r', '\n'] ['\n'] 0 text

/-- The text with a line feed at the end of its last line. -/
def finished (text : List Char) : List Char :=
  if text = [] ∨ text.getLast? = some '\n' then text else text ++ ['\n']

/-- The text with every line ended by a line feed alone. -/
def settled (text : List Char) : List Char := finished (unreturned text)

theorem unreturned_cons {c : Char} {text : List Char}
    (h : ¬ (c = '\r' ∧ text.head? = some '\n')) :
    unreturned (c :: text) = c :: unreturned text := by
  rw [unreturned, replaceFrom, if_neg]
  · rfl
  · rw [afterPhrase_isSome_iff]
    rintro ⟨rest, hrest⟩
    cases hrest
    exact h ⟨rfl, rfl⟩

theorem unreturned_of_free {text : List Char} (h : ¬ ['\r', '\n'] <:+: text) :
    unreturned text = text := by
  induction text with
  | nil => rfl
  | cons c text ih =>
    have hkept : ¬ (c = '\r' ∧ text.head? = some '\n') := by
      rintro ⟨rfl, hhead⟩
      obtain ⟨rest, rfl⟩ := List.head?_eq_some_iff.mp hhead
      exact h ⟨[], rest, rfl⟩
    rw [unreturned_cons hkept, ih fun hinner => h (List.infix_cons hinner)]

/-- A line is kept unless the last carriage return in it is lost. -/
theorem unreturned_append {line : List Char} (hline : '\n' ∉ line) (rest : List Char)
    (h : line.getLast? = some '\r' → rest.head? ≠ some '\n') :
    unreturned (line ++ rest) = line ++ unreturned rest := by
  induction line with
  | nil => rfl
  | cons c line ih =>
    rw [List.mem_cons, not_or] at hline
    have hkept : ¬ (c = '\r' ∧ (line ++ rest).head? = some '\n') := by
      rintro ⟨rfl, hhead⟩
      cases line with
      | nil => exact h rfl hhead
      | cons d line =>
        cases hhead
        exact hline.2 List.mem_cons_self
    have hlater : line.getLast? = some '\r' → rest.head? ≠ some '\n' := by
      intro hlast
      apply h
      rw [List.getLast?_cons, hlast]
      rfl
    rw [List.cons_append, unreturned_cons hkept, ih hline.2 hlater]
    rfl

theorem finished_append_feed (line rest : List Char) :
    finished (line ++ '\n' :: rest) = line ++ '\n' :: finished rest := by
  have hlast : (line ++ '\n' :: rest).getLast? = some '\n' ↔
      rest = [] ∨ rest.getLast? = some '\n' := by
    rw [List.getLast?_append, List.getLast?_cons, ← List.getLast?_eq_none_iff]
    cases rest.getLast? <;> simp
  unfold finished
  by_cases hrest : rest = [] ∨ rest.getLast? = some '\n'
  · rw [if_pos (.inr (hlast.mpr hrest)), if_pos hrest]
  · rw [if_neg, if_neg hrest, List.append_assoc, List.cons_append]
    rintro (hnil | hfeed)
    · exact absurd hnil (by simp)
    · exact hrest (hlast.mp hfeed)

theorem finished_unbroken {line : List Char} (hne : line ≠ []) (h : '\n' ∉ line) :
    finished line = line ++ ['\n'] := by
  rw [finished, if_neg]
  rintro (hnil | hlast)
  · exact hne hnil
  · exact h (List.mem_of_getLast? hlast)

theorem settled_unbroken {line : List Char} (hne : line ≠ []) (h : '\n' ∉ line) :
    settled line = line ++ ['\n'] := by
  have hfree : ¬ ['\r', '\n'] <:+: line := fun hinner => h (hinner.subset (by simp))
  rw [settled, unreturned_of_free hfree, finished_unbroken hne h]

theorem settled_feed {line : List Char} (h : '\n' ∉ line) (hplain : line.getLast? ≠ some '\r')
    (rest : List Char) : settled (line ++ '\n' :: rest) = line ++ '\n' :: settled rest := by
  rw [settled, unreturned_append h _ (fun hlast => absurd hlast hplain),
    unreturned_cons (by simp), finished_append_feed]
  rfl

theorem settled_returned {line : List Char} (h : '\n' ∉ line) (rest : List Char) :
    settled (line ++ '\r' :: '\n' :: rest) = line ++ '\n' :: settled rest := by
  have hlost : unreturned ('\r' :: '\n' :: rest) = '\n' :: unreturned rest := rfl
  rw [settled, unreturned_append h _ (by simp), hlost, finished_append_feed]
  rfl

theorem Lined.settled_eq {ls : List (List Char)} {text : List Char} (h : Lined ls text) :
    settled text = ls.flatMap (· ++ ['\n']) := by
  induction h with
  | nil => rfl
  | last hne hline => rw [settled_unbroken hne hline, List.flatMap_singleton]
  | feed hline hplain _ ih =>
    rw [settled_feed hline hplain, ih, List.flatMap_cons, List.append_assoc]
    rfl
  | returned hline _ ih =>
    rw [settled_returned hline, ih, List.flatMap_cons, List.append_assoc]
    rfl

theorem rows_flatMap_feed {ls : List (List Char)} (h : ∀ line ∈ ls, '\n' ∉ line) :
    rows (ls.flatMap (· ++ ['\n'])) = ls ++ [[]] := by
  induction ls with
  | nil => rfl
  | cons line others ih =>
    obtain ⟨hline, hothers⟩ := List.forall_mem_cons.mp h
    rw [List.flatMap_cons, List.append_assoc, List.singleton_append, rows_cons_feed hline,
      ih hothers, List.cons_append]

/-- What cutting a text into lines loses is how the lines end. -/
theorem settled_eq_iff (text other : List Char) :
    settled text = settled other ↔ lines text = lines other := by
  have htext : Lined (lines text) text := lined_iff.mpr rfl
  have hother : Lined (lines other) other := lined_iff.mpr rfl
  rw [htext.settled_eq, hother.settled_eq]
  constructor
  · intro h
    have hrows := congrArg rows h
    rw [rows_flatMap_feed fun _ => htext.feed_notMem,
      rows_flatMap_feed fun _ => hother.feed_notMem] at hrows
    exact List.append_cancel_right hrows
  · intro h
    rw [h]

/-- The text without the line feeds at its end. -/
def stripped (text : List Char) : List Char := text.rdropWhile (· == '\n')

theorem stripped_finished (text : List Char) : stripped (finished text) = stripped text := by
  unfold finished
  split
  · rfl
  · exact List.rdropWhile_concat_pos _ _ _ (by decide)

/-- Texts whose lines end with a line feed alone are the same up to the line
feeds at their ends if their lines are. -/
theorem stripped_eq_of_settled {text other : List Char} (htext : ¬ ['\r', '\n'] <:+: text)
    (hother : ¬ ['\r', '\n'] <:+: other) (h : settled text = settled other) :
    stripped text = stripped other := by
  rw [settled, settled, unreturned_of_free htext, unreturned_of_free hother] at h
  rw [← stripped_finished text, ← stripped_finished other, h]

end Text

namespace Conformance

open Text

/-! ## The first difference -/

/-- The lines are the same, or the first at which they differ is named. -/
theorem differenceFrom_cases (line : Nat) (expected got : List (List Char)) :
    (expected = got ∧ differenceFrom line expected got = .lineEnds) ∨
    ∃ k, expected.take k = got.take k ∧ expected[k]? ≠ got[k]? ∧
      differenceFrom line expected got
        = .atLine (line + k) (expected[k]?.map String.ofList) (got[k]?.map String.ofList) := by
  fun_induction differenceFrom line expected got with
  | case1 line => exact .inl ⟨rfl, rfl⟩
  | case2 line e es => exact .inr ⟨0, rfl, by simp, rfl⟩
  | case3 line g gs => exact .inr ⟨0, rfl, by simp, rfl⟩
  | case4 line e es gs ih =>
    rcases ih with ⟨rfl, hends⟩ | ⟨k, htake, hdiffer, hline⟩
    · exact .inl ⟨rfl, hends⟩
    · refine .inr ⟨k + 1, ?_, ?_, ?_⟩
      · rw [List.take_succ_cons, List.take_succ_cons, htake]
      · rwa [List.getElem?_cons_succ, List.getElem?_cons_succ]
      · rw [hline, List.getElem?_cons_succ, List.getElem?_cons_succ, Nat.add_assoc, Nat.add_comm 1]
  | case5 line e es g gs hne => exact .inr ⟨0, rfl, by simpa using hne, rfl⟩

theorem message_atLine (line : Nat) (expected got : Option String) :
    ∃ rest, (Difference.atLine line expected got).message = "output mismatch at line " ++ rest := by
  refine ⟨toString line ++ ":\n  expected: " ++ expected.getD "<end of file>"
    ++ "\n  got:      " ++ got.getD "<end of file>", ?_⟩
  show "output mismatch at line " ++ toString line ++ ":\n  expected: "
    ++ expected.getD "<end of file>" ++ "\n  got:      " ++ got.getD "<end of file>" = _
  simp only [String.append_assoc]

theorem message_eq_lineEnds_iff (d : Difference) :
    d.message = Difference.lineEnds.message ↔ d = .lineEnds := by
  constructor
  · intro h
    cases d with
    | lineEnds => rfl
    | atLine line expected got =>
      obtain ⟨rest, hrest⟩ := message_atLine line expected got
      have hlist := congrArg String.toList (hrest.symm.trans h)
      rw [String.toList_append] at hlist
      have hno : ¬ "output mismatch at line ".toList <+: Difference.lineEnds.message.toList := by
        decide +kernel
      exact absurd ⟨rest.toList, hlist⟩ hno
  · intro h
    rw [h]

/-- No line is named exactly when the lines are the same, however they end. -/
theorem difference_eq_lineEnds_iff (expected got : String) :
    difference expected got = .lineEnds ↔ settled expected.toList = settled got.toList := by
  rw [settled_eq_iff, difference]
  rcases differenceFrom_cases 1 (lines expected.toList) (lines got.toList) with
    ⟨hsame, hends⟩ | ⟨k, _, hdiffer, hline⟩
  · exact ⟨fun _ => hsame, fun _ => hends⟩
  · rw [hline]
    constructor
    · intro h
      cases h
    · intro hsame
      exact absurd (by rw [hsame]) hdiffer

theorem exists_line_of_ne {expected got : String}
    (h : settled expected.toList ≠ settled got.toList) :
    ∃ es gs k, Lined es expected.toList ∧ Lined gs got.toList ∧ es.take k = gs.take k ∧
      es[k]? ≠ gs[k]? ∧ difference expected got
        = .atLine (k + 1) (es[k]?.map String.ofList) (gs[k]?.map String.ofList) := by
  rw [Ne, settled_eq_iff] at h
  rcases differenceFrom_cases 1 (lines expected.toList) (lines got.toList) with
    ⟨hsame, _⟩ | ⟨k, htake, hdiffer, hline⟩
  · exact absurd hsame h
  · refine ⟨_, _, k, lined_iff.mpr rfl, lined_iff.mpr rfl, htake, hdiffer, ?_⟩
    rw [difference, hline, Nat.add_comm 1 k]

/-- The texts are said to differ only in trailing newlines exactly when their
lines are the same, however they end. Otherwise the line that is named is the
first at which they differ. If no carriage return stands before a line feed,
what is said is true: without the line feeds at their ends the texts are the
same. -/
theorem difference_exact (expected got : String) :
    ((difference expected got).message = "output differs only in trailing newlines" ↔
      settled expected.toList = settled got.toList) ∧
    (settled expected.toList ≠ settled got.toList →
      ∃ es gs k, Lined es expected.toList ∧ Lined gs got.toList ∧ es.take k = gs.take k ∧
        es[k]? ≠ gs[k]? ∧
        (difference expected got).message
          = s!"output mismatch at line {k + 1}:\n  expected: "
            ++ (es[k]?.map String.ofList).getD "<end of file>"
            ++ "\n  got:      " ++ (gs[k]?.map String.ofList).getD "<end of file>") ∧
    (¬ ['\r', '\n'] <:+: expected.toList → ¬ ['\r', '\n'] <:+: got.toList →
      (difference expected got).message = "output differs only in trailing newlines" →
      stripped expected.toList = stripped got.toList) := by
  have hanswer : (difference expected got).message = Difference.lineEnds.message ↔
      settled expected.toList = settled got.toList := by
    rw [message_eq_lineEnds_iff, difference_eq_lineEnds_iff]
  refine ⟨hanswer, ?_, ?_⟩
  · intro hne
    obtain ⟨es, gs, k, hes, hgs, htake, hdiffer, hline⟩ := exists_line_of_ne hne
    refine ⟨es, gs, k, hes, hgs, htake, hdiffer, ?_⟩
    rw [hline]
    rfl
  · intro hexpected hgot h
    exact stripped_eq_of_settled hexpected hgot (hanswer.mp h)

/-- A text, and the same text with one more line feed at its end. -/
theorem feed_difference :
    ¬ ['\r', '\n'] <:+: "a\n\nb".toList ∧ ¬ ['\r', '\n'] <:+: "a\n\nb\n".toList ∧
      (difference "a\n\nb" "a\n\nb\n").message = "output differs only in trailing newlines" ∧
      stripped "a\n\nb".toList = stripped "a\n\nb\n".toList := by
  have hfirst : ¬ ['\r', '\n'] <:+: "a\n\nb".toList := by decide
  have hsecond : ¬ ['\r', '\n'] <:+: "a\n\nb\n".toList := by decide
  obtain ⟨hanswer, _, hstripped⟩ := difference_exact "a\n\nb" "a\n\nb\n"
  have hsaid := hanswer.mpr (by decide)
  exact ⟨hfirst, hsecond, hsaid, hstripped hfirst hsecond hsaid⟩

/-- A carriage return before a line feed is not seen: the texts are said to
differ only in trailing newlines, and differ on their first lines. -/
theorem return_unseen :
    "a\r\nb\n" ≠ "a\nb\n" ∧
      (difference "a\r\nb\n" "a\nb\n").message = "output differs only in trailing newlines" ∧
      stripped "a\r\nb\n".toList ≠ stripped "a\nb\n".toList := by
  decide +kernel

end Conformance

end TreeSchema
