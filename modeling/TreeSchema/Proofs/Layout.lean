import TreeSchema.Proofs.Renumbering
/-
  The layout of a schema text

  A text is laid out anew by adding idle lines, white space at the two ends
  of a line, and carriage returns before line feeds. Each step moves the lines
  to known places. The rows that say something are the same before and after,
  at their places, and with them all that a compilation depends on.

  An error names a line by its number of 32 bits. In a text of fewer lines
  that is the place of the line; behind so many line feeds a text reads as if
  it stood at the start (`compile_feeds_append`).
-/

namespace TreeSchema

/-! ## Rows of a text that changes -/

namespace Text

/-- What follows begins a line. -/
def EndsLine (before : List Char) : Prop := before = [] ∨ ∃ earlier, before = earlier ++ ['\n']

/-- What stands before ends a row. -/
def AtRowEnd (after : List Char) : Prop := after = [] ∨ ∃ later, after = '\n' :: later

/-- What stands before ends a line. -/
def AtLineEnd (after : List Char) : Prop :=
  after = [] ∨ ∃ later, after = '\n' :: later ∨ after = '\r' :: '\n' :: later

theorem length_rows (text : List Char) : (rows text).length = text.count '\n' + 1 := by
  induction text with
  | nil => rfl
  | cons c text ih =>
    by_cases hc : c = '\n'
    · subst hc
      have hfeed := rows_cons_feed List.not_mem_nil text
      rw [List.nil_append] at hfeed
      rw [hfeed, List.length_cons, ih, List.count_cons_self]
    · rw [rows, List.splitOn_cons_eq_if_modifyHead]
      simp only [beq_iff_eq, hc, if_false, List.length_modifyHead, List.count_cons]
      exact ih

/-- The rows before the start of a line are complete, whatever follows. -/
theorem exists_rows_before {before : List Char} (h : EndsLine before) :
    ∃ complete : List (List Char), complete.length = before.count '\n' ∧
      ∀ text, rows (before ++ text) = complete ++ rows text := by
  rcases h with rfl | ⟨earlier, rfl⟩
  · exact ⟨[], rfl, fun text => rfl⟩
  · refine ⟨rows earlier, ?_, fun text => ?_⟩
    · rw [length_rows, List.count_append]
      rfl
    · rw [List.append_assoc]
      exact rows_append_feed earlier text

/-- The rows after a row do not depend on it. -/
theorem exists_rows_after {after : List Char} (h : AtRowEnd after) :
    ∃ coming, ∀ row, '\n' ∉ row → rows (row ++ after) = row :: coming := by
  rcases h with rfl | ⟨later, rfl⟩
  · refine ⟨[], fun row hrow => ?_⟩
    rw [List.append_nil]
    exact rows_of_not_mem hrow
  · exact ⟨rows later, fun row hrow => rows_cons_feed hrow later⟩

theorem exists_first_row (text : List Char) :
    ∃ row after, text = row ++ after ∧ '\n' ∉ row ∧ AtRowEnd after := by
  by_cases hfeed : '\n' ∈ text
  · obtain ⟨row, later, rfl, hrow⟩ := List.eq_append_cons_of_mem hfeed
    exact ⟨row, _, rfl, hrow, .inr ⟨later, rfl⟩⟩
  · exact ⟨text, [], (List.append_nil text).symm, hfeed, .inl rfl⟩

theorem exists_last_row (text : List Char) :
    ∃ before row, text = before ++ row ∧ EndsLine before ∧ '\n' ∉ row := by
  obtain ⟨row, later, hreverse, hrow, hlater⟩ := exists_first_row text.reverse
  refine ⟨later.reverse, row.reverse, ?_, ?_, by simpa using hrow⟩
  · rw [← List.reverse_append, ← hreverse, List.reverse_reverse]
  · rcases hlater with rfl | ⟨earlier, rfl⟩
    · exact .inl rfl
    · exact .inr ⟨earlier.reverse, by simp⟩

/-- The rows with the white space at their ends cut off. -/
def trimmed (text : List Char) : List (List Char) := (rows text).map trim

/-- Only one row changes when something is changed inside it. -/
theorem trimmed_of_row {before row row' after : List Char} (hbefore : EndsLine before)
    (hafter : AtRowEnd after) (hrow : '\n' ∉ row) (hrow' : '\n' ∉ row')
    (htrim : trim row' = trim row) :
    trimmed (before ++ (row' ++ after)) = trimmed (before ++ (row ++ after)) := by
  obtain ⟨complete, _, hcomplete⟩ := exists_rows_before hbefore
  obtain ⟨coming, hcoming⟩ := exists_rows_after hafter
  unfold trimmed
  rw [hcomplete, hcomplete, hcoming row hrow, hcoming row' hrow']
  simp [htrim]

theorem trimmed_indent {before gap : List Char} (hbefore : EndsLine before) (hgap : IsGap gap)
    (hrow : '\n' ∉ gap) (after : List Char) :
    trimmed (before ++ (gap ++ after)) = trimmed (before ++ after) := by
  obtain ⟨row, later, rfl, hfirst, hlater⟩ := exists_first_row after
  have htrim : trim (gap ++ row) = trim row := by
    simpa using trim_append hgap isGap_nil row
  rw [← List.append_assoc gap]
  apply trimmed_of_row hbefore hlater hfirst _ htrim
  simp [hrow, hfirst]

theorem trimmed_pad {gap after : List Char} (hafter : AtLineEnd after) (hgap : IsGap gap)
    (hrow : '\n' ∉ gap) (before : List Char) :
    trimmed (before ++ (gap ++ after)) = trimmed (before ++ after) := by
  obtain ⟨earlier, row, rfl, hearlier, hlast⟩ := exists_last_row before
  -- The carriage return of a line end counts to the row, as more white space.
  have hend : ∃ trail later, after = trail ++ later ∧ IsGap trail ∧ '\n' ∉ trail ∧
      AtRowEnd later := by
    rcases hafter with rfl | ⟨later, rfl | rfl⟩
    · exact ⟨[], [], rfl, isGap_nil, List.not_mem_nil, .inl rfl⟩
    · exact ⟨[], _, rfl, isGap_nil, List.not_mem_nil, .inr ⟨later, rfl⟩⟩
    · exact ⟨['\r'], _, rfl, isGap_of_all (by decide), by decide, .inr ⟨later, rfl⟩⟩
  obtain ⟨trail, later, rfl, htrail, hreturn, hlater⟩ := hend
  have htrim : trim (row ++ (gap ++ trail)) = trim (row ++ trail) := by
    have hpadded := trim_append isGap_nil (isGap_append hgap htrail) row
    have hplain := trim_append isGap_nil htrail row
    rw [List.nil_append] at hpadded hplain
    rw [hpadded, hplain]
  have hsame : trimmed (earlier ++ (row ++ (gap ++ trail) ++ later))
      = trimmed (earlier ++ (row ++ trail ++ later)) := by
    apply trimmed_of_row hearlier hlater _ _ htrim
    · simp [hlast, hreturn]
    · simp [hlast, hrow, hreturn]
  simpa using hsame

end Text

namespace Schema

/-! ## Steps -/

/-- The places of lines after one has been inserted behind the first `count`. -/
def insertedAfter (count line : Nat) : Nat := if line ≤ count then line else line + 1

/-- One change of layout, with the place of each line after it. -/
inductive LayoutStep : (Nat → Nat) → List Char → List Char → Prop where
  /-- An idle line before another. -/
  | insertLine (before row after : List Char) (hbefore : Text.EndsLine before) (hidle : IsIdle row)
    (hrow : '\n' ∉ row) :
    LayoutStep (insertedAfter (before.count '\n')) (before ++ after)
      (before ++ (row ++ '\n' :: after))
  /-- An idle line after the last, which gets a line end. -/
  | appendLine (text row : List Char) (hidle : IsIdle row) (hrow : '\n' ∉ row) :
    LayoutStep id text (text ++ '\n' :: row)
  /-- An idle line after the last, which has a line end. -/
  | lastLine (text row : List Char) (htext : Text.EndsLine text) (hidle : IsIdle row)
    (hrow : '\n' ∉ row) : LayoutStep id text (text ++ row)
  /-- White space at the start of a line. -/
  | indent (before gap after : List Char) (hbefore : Text.EndsLine before) (hgap : IsGap gap)
    (hrow : '\n' ∉ gap) : LayoutStep id (before ++ after) (before ++ (gap ++ after))
  /-- White space at the end of a line. -/
  | pad (before gap after : List Char) (hafter : Text.AtLineEnd after) (hgap : IsGap gap)
    (hrow : '\n' ∉ gap) : LayoutStep id (before ++ after) (before ++ (gap ++ after))
  /-- A carriage return before a line feed. -/
  | carriageReturn (before after : List Char) :
    LayoutStep id (before ++ '\n' :: after) (before ++ '\r' :: '\n' :: after)

/-- Any number of changes of layout, with the place of each line after them. -/
inductive Relaid : (Nat → Nat) → List Char → List Char → Prop where
  | refl (text : List Char) : Relaid id text text
  | step {place move : Nat → Nat} {text middle text' : List Char}
    (earlier : Relaid place text middle) (last : LayoutStep move middle text') :
    Relaid (move ∘ place) text text'

namespace Declaration

/-! ## Rows that say something -/

section
variable {line : Nat} {texts more : List (List Char)}

theorem spoken_append : spoken line (texts ++ more)
    = spoken line texts ++ spoken (line + texts.length) more := by
  simp [spoken, List.zipIdx_append]

theorem spoken_cons_of_idle {row : List Char} (h : IsIdle row) :
    spoken line (row :: texts) = spoken (line + 1) texts := by
  have hnothing := saysNothing_trim_iff.mpr h
  simp [spoken, hnothing]

theorem spoken_of_trimmed {text text' : List Char} (h : Text.trimmed text' = Text.trimmed text) :
    spoken line (Text.rows text') = spoken line (Text.rows text) := by
  unfold Text.trimmed at h
  unfold spoken
  rw [h]

def moveRow (place : Nat → Nat) (r : List Char × Nat) : List Char × Nat := (r.1, place r.2)

theorem spoken_succ : spoken (line + 1) texts = (spoken line texts).map (moveRow (· + 1)) := by
  unfold spoken
  rw [List.zipIdx_succ, List.filter_map]
  rfl

/-- An idle row among others only moves those behind it. -/
theorem spoken_insert {row : List Char} (h : IsIdle row) :
    spoken 1 (texts ++ row :: more)
      = (spoken 1 (texts ++ more)).map (moveRow (insertedAfter texts.length)) := by
  have hbefore : (spoken 1 texts).map (moveRow (insertedAfter texts.length)) = spoken 1 texts := by
    have hstays : ∀ r ∈ spoken 1 texts, moveRow (insertedAfter texts.length) r = id r := by
      intro r hr
      have hposition := position_of_mem_spoken hr
      have hle : r.2 ≤ texts.length := by omega
      simp [moveRow, insertedAfter, hle]
    rw [List.map_congr_left hstays, List.map_id]
  have hbehind : (spoken (1 + texts.length) more).map (moveRow (insertedAfter texts.length))
      = spoken (1 + texts.length + 1) more := by
    rw [spoken_succ]
    apply List.map_congr_left
    intro r hr
    have hposition := position_of_mem_spoken hr
    have hgt : ¬ r.2 ≤ texts.length := by omega
    simp [moveRow, insertedAfter, hgt]
  rw [spoken_append, spoken_append, spoken_cons_of_idle h, List.map_append, hbefore, hbehind]

end

end Declaration

open Declaration
open Text (rows)

/-- Across a change of layout, the rows that say something are the same at
their new places. -/
theorem LayoutStep.spoken_eq {move : Nat → Nat} {text text' : List Char}
    (h : LayoutStep move text text') :
    spoken 1 (rows text') = (spoken 1 (rows text)).map (moveRow move) := by
  have hid : moveRow id = id := rfl
  cases h with
  | insertLine before row after hbefore hidle hrow =>
    obtain ⟨complete, hlength, hcomplete⟩ := Text.exists_rows_before hbefore
    rw [hcomplete, hcomplete, Text.rows_cons_feed hrow, ← hlength]
    exact spoken_insert hidle
  | appendLine _ row hidle hrow =>
    rw [hid, List.map_id, Text.rows_append_feed, Text.rows_of_not_mem hrow, spoken_append,
      spoken_cons_of_idle hidle]
    exact List.append_nil _
  | lastLine _ row htext hidle hrow =>
    obtain ⟨complete, _, hcomplete⟩ := Text.exists_rows_before htext
    have hempty : rows text = complete ++ [[]] := by
      have hnone := hcomplete []
      rwa [List.append_nil] at hnone
    rw [hid, List.map_id, hcomplete, Text.rows_of_not_mem hrow, hempty, spoken_append,
      spoken_append, spoken_cons_of_idle hidle, spoken_cons_of_idle (.inl isGap_nil)]
  | indent before gap after hbefore hgap hrow =>
    rw [hid, List.map_id]
    exact spoken_of_trimmed (Text.trimmed_indent hbefore hgap hrow after)
  | pad before gap after hafter hgap hrow =>
    rw [hid, List.map_id]
    exact spoken_of_trimmed (Text.trimmed_pad hafter hgap hrow before)
  | carriageReturn before after =>
    have hreturn : IsGap ['\r'] := isGap_of_all (by decide)
    rw [hid, List.map_id]
    exact spoken_of_trimmed (Text.trimmed_pad (.inr ⟨after, .inl rfl⟩) hreturn (by decide) before)

theorem Relaid.spoken_eq {place : Nat → Nat} {text text' : List Char}
    (h : Relaid place text text') :
    spoken 1 (rows text') = (spoken 1 (rows text)).map (moveRow place) := by
  induction h with
  | refl text => exact (List.map_id _).symm
  | step _ last ih =>
    rw [last.spoken_eq, ih, List.map_map]
    rfl

section
variable {place : Nat → Nat} {source source' : String}

end

/-- Line feeds before a text are idle lines. -/
theorem relaid_feeds (feeds : Nat) (text : List Char) :
    ∃ place, (∀ line, 0 < line → place line = line + feeds) ∧
      Relaid place text (List.replicate feeds '\n' ++ text) := by
  induction feeds with
  | zero => exact ⟨id, fun _ _ => rfl, .refl text⟩
  | succ feeds ih =>
    obtain ⟨place, hplace, hrelaid⟩ := ih
    refine ⟨insertedAfter 0 ∘ place, fun line hline => ?_, ?_⟩
    · have hpos : ¬ place line ≤ 0 := by
        rw [hplace line hline]
        omega
      rw [Function.comp_apply, insertedAfter, if_neg hpos, hplace line hline, Nat.add_assoc]
    · exact hrelaid.step (.insertLine [] [] _ (.inl rfl) (.inl isGap_nil) List.not_mem_nil)

theorem readAll_feeds_append {feeds : Nat} (h : UInt32.size ∣ feeds) (file source : String) :
    readAll file (String.ofList (List.replicate feeds '\n') ++ source) = readAll file source := by
  obtain ⟨place, hplace, hrelaid⟩ := relaid_feeds feeds source.toList
  have hsame : ∀ r ∈ spoken 1 (rows source.toList),
      ofRow file (moveRow place r) = ofRow file r := by
    intro r hr
    have hpos := (position_of_mem_spoken hr).1
    have hnumber : UInt32.ofNat (place r.2) = UInt32.ofNat r.2 := by
      rw [hplace r.2 hpos, Text.ofNat_add_of_dvd h]
    unfold ofRow moveRow
    dsimp only
    rw [hnumber]
  rw [readAll_eq_mapM, readAll_eq_mapM, String.toList_append, String.toList_ofList,
    hrelaid.spoken_eq]
  generalize spoken 1 (rows source.toList) = spokenRows at hsame
  induction spokenRows with
  | nil => rfl
  | cons r others ih =>
    obtain ⟨hfirst, hothers⟩ := List.forall_mem_cons.mp hsame
    rw [List.map_cons, List.mapM_cons, List.mapM_cons, hfirst, ih hothers]

/-- A text compiles to the same, the numbers in its errors included, behind
2 ^ 32 line feeds. -/
theorem compile_feeds_append {feeds : Nat} (h : UInt32.size ∣ feeds) (file source : String)
    (options : Options) :
    compile file (String.ofList (List.replicate feeds '\n') ++ source) options
      = compile file source options := by
  unfold compile compileGrammar resolveSource readEntities
  rw [readAll_feeds_append h]

/-- So an error can name a line that is not the place of the fault. -/
theorem exists_misnamed_line :
    ∃ place source source' e, Relaid place source.toList source'.toList ∧
      compile "x" source {} = .error e ∧ compile "x" source' {} = .error e ∧
      e.line? = some 1 ∧ place 1 = 1 + UInt32.size := by
  obtain ⟨feeds, hfeeds⟩ : ∃ feeds, feeds = UInt32.size := ⟨_, rfl⟩
  obtain ⟨place, hplace, hrelaid⟩ := relaid_feeds feeds "x".toList
  have hsource : compile "x" "x" {} = .error (.syntaxFault "x" 1 (.missingColon "x")) := by
    decide +kernel
  refine ⟨place, "x", String.ofList (List.replicate feeds '\n') ++ "x",
    .syntaxFault "x" 1 (.missingColon "x"), ?_, hsource, ?_, rfl, ?_⟩
  · rwa [String.toList_append, String.toList_ofList (l := List.replicate feeds '\n')]
  · rw [compile_feeds_append ⟨1, hfeeds.trans (Nat.mul_one _).symm⟩, hsource]
  · rw [hplace 1 Nat.one_pos, hfeeds]

end Schema

end TreeSchema
