import Mathlib.Data.List.DropRight
import TreeSchema.Proofs.Editing
/-
  White space

  What trimming and splitting into words do, said without the functions: a
  text is white space, its trimmed part and white space (`Text.exists_gaps`),
  and it is its words in order, set apart by white space
  (`Text.listed_words`). No other list of words is listed in it
  (`Text.words_of_listed`).

  The rows of a text are what stands between its line feeds. A carriage return
  before a line feed is white space at the end of its row, so that rows and
  lines are the same once they are trimmed (`Text.map_trim_rows`).
-/

namespace TreeSchema

/-! ## White space -/

/-- White space only, possibly none. -/
def IsGap (text : List Char) : Prop := ∀ c ∈ text, Text.isBlank c = true

theorem isGap_of_all {text : List Char} (h : text.all Text.isBlank = true) : IsGap text :=
  List.all_eq_true.mp h

theorem isGap_nil : IsGap [] := isGap_of_all rfl

theorem isGap_append {gap more : List Char} (h : IsGap gap) (hmore : IsGap more) :
    IsGap (gap ++ more) := by
  intro c hc
  rcases List.mem_append.mp hc with hc | hc
  · exact h c hc
  · exact hmore c hc

/-- No white space at all. -/
def IsSolid (text : List Char) : Prop := ∀ c ∈ text, Text.isBlank c = false

namespace Text
variable {lead trail text : List Char}

theorem trimStart_append (h : IsGap lead) (text : List Char) :
    trimStart (lead ++ text) = trimStart text :=
  List.dropWhile_append_of_pos h

theorem trimEnd_append_gap (h : IsGap trail) (text : List Char) :
    trimEnd (text ++ trail) = trimEnd text := by
  rw [trimEnd, List.reverse_append,
    List.dropWhile_append_of_pos fun c hc => h c (List.mem_reverse.mp hc)]
  rfl

theorem trimStart_of_gap (h : IsGap text) : trimStart text = [] := by
  have hstart := trimStart_append h []
  rwa [List.append_nil] at hstart

/-- The first run of characters of one class ends with the text or before a
character outside it. -/
theorem exists_run (p : Char → Bool) (text : List Char) :
    ∃ run rest, text = run ++ rest ∧ (∀ c ∈ run, p c = true) ∧
      (rest = [] ∨ ∃ c more, rest = c :: more ∧ p c = false) := by
  induction text with
  | nil => exact ⟨[], [], rfl, fun _ h => absurd h List.not_mem_nil, .inl rfl⟩
  | cons c text ih =>
    cases hc : p c with
    | false =>
      exact ⟨[], c :: text, rfl, fun _ h => absurd h List.not_mem_nil, .inr ⟨c, text, rfl, hc⟩⟩
    | true =>
      obtain ⟨run, rest, rfl, hrun, hrest⟩ := ih
      exact ⟨c :: run, rest, rfl, List.forall_mem_cons.mpr ⟨hc, hrun⟩, hrest⟩

theorem isGap_or_exists (text : List Char) :
    IsGap text ∨ ∃ gap c rest, IsGap gap ∧ isBlank c = false ∧ text = gap ++ c :: rest := by
  obtain ⟨gap, rest, rfl, hgap, hrest⟩ := exists_run isBlank text
  rcases hrest with rfl | ⟨c, more, rfl, hc⟩
  · exact .inl (by rwa [List.append_nil])
  · exact .inr ⟨gap, c, more, hgap, hc, rfl⟩

theorem trim_of_gap (h : IsGap text) : trim text = [] := by
  rw [trim, trimStart_of_gap h]
  rfl

/-- White space around a text is trimmed away. -/
theorem trim_append (hlead : IsGap lead) (htrail : IsGap trail) (text : List Char) :
    trim (lead ++ text ++ trail) = trim text := by
  rw [List.append_assoc, trim, trimStart_append hlead]
  rcases isGap_or_exists text with hgap | ⟨gap, c, rest, hgap, hc, rfl⟩
  · rw [trimStart_of_gap (isGap_append hgap htrail), trim_of_gap hgap]
    rfl
  · rw [List.append_assoc, List.cons_append, trimStart_append_cons hc, trim_append_cons hc,
      trimEnd_append_cons hc, trimEnd_append_gap htrail]

theorem trim_of_solid (h : IsSolid text) : trim text = text := by
  have hstart : trimStart text = text := by
    cases text with
    | nil => rfl
    | cons c rest => simp [trimStart, h c List.mem_cons_self]
  rw [trim, hstart]
  rcases List.eq_nil_or_concat text with rfl | ⟨body, last, rfl⟩
  · rfl
  · rw [List.concat_eq_append]
    exact trimEnd_append_cons (h last (by simp)) body []

/-- What is trimmed away is white space. -/
theorem exists_gaps (text : List Char) :
    ∃ lead trail, IsGap lead ∧ IsGap trail ∧ text = lead ++ trim text ++ trail := by
  refine ⟨text.takeWhile isBlank, ((trimStart text).reverse.takeWhile isBlank).reverse, ?_, ?_, ?_⟩
  · exact fun c hc => List.all_eq_true.mp List.all_takeWhile c hc
  · exact fun c hc => List.all_eq_true.mp List.all_takeWhile c (List.mem_reverse.mp hc)
  · have hend : trim text ++ ((trimStart text).reverse.takeWhile isBlank).reverse
        = trimStart text := by
      rw [trim, trimEnd, ← List.reverse_append, List.takeWhile_append_dropWhile,
        List.reverse_reverse]
    rw [List.append_assoc, hend, trimStart, List.takeWhile_append_dropWhile]

theorem trim_trimStart (text : List Char) : trim (trimStart text) = trim text := by
  rw [trim, trim, trimStart, trimStart, List.dropWhile_idempotent]

theorem splitFirst_eq_none {sep : Char} (h : sep ∉ text) : splitFirst sep text = none := by
  induction text with
  | nil => rfl
  | cons c rest ih =>
    rw [List.mem_cons, not_or] at h
    rw [splitFirst, if_neg fun heq => h.1 heq.symm, ih h.2]
    rfl

end Text

/-! ## Words -/

/-- The text is the words in order, with white space between any two of them
and possibly before the first and after the last. -/
inductive Listed : List (List Char) → List Char → Prop where
  | nil {gap : List Char} (hgap : IsGap gap) : Listed [] gap
  | cons {gap word rest : List Char} {words : List (List Char)} (hgap : IsGap gap)
    (hrest : Listed words rest)
    (hapart : words ≠ [] → ∃ c more, rest = c :: more ∧ Text.isBlank c = true) :
    Listed (word :: words) (gap ++ word ++ rest)

/-- What follows a word that is listed does not lengthen it. -/
theorem Listed.ends_or_blank {words : List (List Char)} {rest : List Char}
    (h : Listed words rest)
    (hapart : words ≠ [] → ∃ c more, rest = c :: more ∧ Text.isBlank c = true) :
    rest = [] ∨ ∃ c more, rest = c :: more ∧ Text.isBlank c = true := by
  cases h with
  | nil hgap =>
    cases rest with
    | nil => exact .inl rfl
    | cons c more => exact .inr ⟨c, more, rfl, hgap c List.mem_cons_self⟩
  | cons _ _ _ => exact .inr (hapart (List.cons_ne_nil _ _))

namespace Text

theorem words_append_gap {gap : List Char} (h : IsGap gap) (text : List Char) :
    words (gap ++ text) = words text := by
  induction gap with
  | nil => rfl
  | cons c gap ih =>
    obtain ⟨hc, hgap⟩ := List.forall_mem_cons.mp h
    rw [List.cons_append, words, wordsFrom, if_pos hc]
    exact ih hgap

theorem wordsFrom_append_solid {word : List Char} (h : IsSolid word) (current rest : List Char) :
    wordsFrom current (word ++ rest) = wordsFrom (word.reverse ++ current) rest := by
  induction word generalizing current with
  | nil => rfl
  | cons c word ih =>
    obtain ⟨hc, hword⟩ := List.forall_mem_cons.mp h
    rw [List.cons_append, wordsFrom, hc, if_neg Bool.false_ne_true, ih hword, List.reverse_cons,
      List.append_assoc]
    rfl

theorem closeWord_of_ne_nil {word : List Char} (h : word ≠ []) :
    closeWord word = [word.reverse] := by
  cases word with
  | nil => exact absurd rfl h
  | cons c rest => rfl

theorem words_append_solid {word rest : List Char} (h : IsSolid word) (hne : word ≠ [])
    (hrest : rest = [] ∨ ∃ c more, rest = c :: more ∧ isBlank c = true) :
    words (word ++ rest) = word :: words rest := by
  have hreverse : word.reverse ++ [] ≠ [] := by simpa using hne
  rw [words, wordsFrom_append_solid h]
  rcases hrest with rfl | ⟨c, more, rfl, hc⟩
  · rw [wordsFrom, closeWord_of_ne_nil hreverse, List.append_nil, List.reverse_reverse]
    rfl
  · rw [wordsFrom, if_pos hc, closeWord_of_ne_nil hreverse, List.append_nil, List.reverse_reverse,
      words, wordsFrom, if_pos hc]
    rfl

theorem words_of_gap {text : List Char} (h : IsGap text) : words text = [] := by
  have hwords := words_append_gap h []
  rwa [List.append_nil] at hwords

theorem words_of_listed {ws : List (List Char)} {text : List Char} (h : Listed ws text)
    (hwords : ∀ w ∈ ws, IsSolid w ∧ w ≠ []) : words text = ws := by
  induction h with
  | nil hgap => exact words_of_gap hgap
  | @cons gap word rest ws hgap hrest hapart ih =>
    obtain ⟨⟨hsolid, hne⟩, hothers⟩ := List.forall_mem_cons.mp hwords
    rw [List.append_assoc, words_append_gap hgap,
      words_append_solid hsolid hne (hrest.ends_or_blank hapart), ih hothers]

/-- A text is white space only, or has a first word. -/
theorem isGap_or_exists_word (text : List Char) :
    IsGap text ∨ ∃ gap word rest, text = gap ++ word ++ rest ∧ IsGap gap ∧ IsSolid word ∧
      word ≠ [] ∧ (rest = [] ∨ ∃ c more, rest = c :: more ∧ isBlank c = true) := by
  rcases isGap_or_exists text with hgap | ⟨gap, c, rest, hgap, hc, rfl⟩
  · exact .inl hgap
  · obtain ⟨run, after, rfl, hrun, hafter⟩ := exists_run (fun d => !isBlank d) rest
    refine .inr ⟨gap, c :: run, after, ?_, hgap, ?_, List.cons_ne_nil _ _, ?_⟩
    · simp
    · exact List.forall_mem_cons.mpr ⟨hc, fun d hd => by simpa using hrun d hd⟩
    · simpa using hafter

/-- Every text is its words, set apart by white space. -/
theorem listed_words (text : List Char) :
    Listed (words text) text ∧ ∀ w ∈ words text, IsSolid w ∧ w ≠ [] := by
  -- The induction is on the length: what follows the first word is shorter.
  rcases isGap_or_exists_word text with hgap | ⟨gap, word, rest, rfl, hgap, hword, hne, hrest⟩
  · rw [words_of_gap hgap]
    exact ⟨.nil hgap, fun _ h => absurd h List.not_mem_nil⟩
  · have hcut : words (gap ++ word ++ rest) = word :: words rest := by
      rw [List.append_assoc, words_append_gap hgap, words_append_solid hword hne hrest]
    obtain ⟨hlisted, hwords⟩ := listed_words rest
    rw [hcut]
    refine ⟨.cons hgap hlisted fun hmore => ?_, List.forall_mem_cons.mpr ⟨⟨hword, hne⟩, hwords⟩⟩
    rcases hrest with rfl | hblank
    · exact absurd rfl hmore
    · exact hblank
termination_by text.length
decreasing_by
  subst_vars
  have hlength := List.length_pos_iff.mpr hne
  simp only [List.length_append]
  omega

/-! ## Rows -/

/-- The text cut at its line feeds. -/
def rows (text : List Char) : List (List Char) := text.splitOn '\n'

theorem rows_of_not_mem {row : List Char} (h : '\n' ∉ row) : rows row = [row] :=
  List.splitOn_eq_singleton h

theorem rows_append_feed (before after : List Char) :
    rows (before ++ '\n' :: after) = rows before ++ rows after :=
  List.splitOn_append_cons_self before after

theorem rows_cons_feed {row : List Char} (h : '\n' ∉ row) (after : List Char) :
    rows (row ++ '\n' :: after) = row :: rows after := by
  rw [rows_append_feed, rows_of_not_mem h, List.singleton_append]

theorem linesFrom_append {row : List Char} (h : '\n' ∉ row) (current rest : List Char) :
    linesFrom current (row ++ rest) = linesFrom (row.reverse ++ current) rest := by
  induction row generalizing current with
  | nil => rfl
  | cons c row ih =>
    rw [List.mem_cons, not_or] at h
    have hstep : linesFrom current (c :: (row ++ rest)) = linesFrom (c :: current) (row ++ rest) :=
      if_neg fun heq => h.1 heq.symm
    rw [List.cons_append, hstep, ih h.2, List.reverse_cons, List.append_assoc]
    rfl

theorem lines_cons_feed {row : List Char} (h : '\n' ∉ row) (rest : List Char) :
    lines (row ++ '\n' :: rest) = closeLine row.reverse :: lines rest := by
  rw [lines, linesFrom_append h, List.append_nil]
  exact if_pos rfl

/-- A carriage return before a line feed is trimmed like other white space. -/
theorem trim_closeLine (row : List Char) : trim (closeLine row.reverse) = trim row := by
  rcases List.eq_nil_or_concat row with rfl | ⟨body, last, rfl⟩
  · rfl
  · rw [List.concat_eq_append, List.reverse_append, List.reverse_singleton, List.singleton_append]
    by_cases hreturn : last = '\r'
    · subst hreturn
      have hgap : IsGap ['\r'] := isGap_of_all (by decide)
      rw [closeLine, List.reverse_reverse]
      exact (trim_append isGap_nil hgap body).symm
    · unfold closeLine
      split
      · next heq => exact absurd (List.cons.inj heq).1 hreturn
      · simp

/-- Lines and rows differ in a carriage return at the end, and in a last row
that is empty. -/
theorem map_trim_rows (text : List Char) :
    (rows text).map trim = (lines text).map trim ∨
      (rows text).map trim = (lines text).map trim ++ [[]] := by
  by_cases hfeed : '\n' ∈ text
  · obtain ⟨row, rest, rfl, hrow⟩ := List.eq_append_cons_of_mem hfeed
    have ih := map_trim_rows rest
    rw [rows_cons_feed hrow, lines_cons_feed hrow, List.map_cons, List.map_cons, trim_closeLine,
      List.cons_append]
    rcases ih with ih | ih
    · exact .inl (by rw [ih])
    · exact .inr (by rw [ih])
  · have hlines := linesFrom_append hfeed [] []
    rw [List.append_nil, List.append_nil] at hlines
    rw [rows_of_not_mem hfeed, lines, hlines]
    cases hempty : text.reverse with
    | nil =>
      rw [List.reverse_eq_nil_iff.mp hempty]
      exact .inr rfl
    | cons c more =>
      rw [List.reverse_eq_cons_iff] at hempty
      left
      rw [hempty, linesFrom, List.reverse_cons]
      exact List.cons_ne_nil c more
termination_by text.length
decreasing_by
  subst_vars
  simp only [List.length_append, List.length_cons]
  omega

end Text

end TreeSchema
