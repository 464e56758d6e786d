import Mathlib.Data.List.Sort
import TreeSchema.Proofs.Spacing
/-
  The lines of a schema

  What the text of a schema looks like, said without its reader. The text is
  cut into rows at its line feeds. A row that is blank or begins with a hash
  sign is idle; every other row of a readable text writes one declaration:
  sigil and name, a colon, and the words of the items, with white space where
  it may stand. Reading gives back the declarations that the rows write, each
  with the number of its row, and refuses every other text. Numbers have 32
  bits, and tell the rows of a text that has fewer lines than that.
-/

namespace TreeSchema.Schema

theorem mapM_eq_ok_iff {α β ε : Type} {f : α → Except ε β} {l : List α} {k : List β} :
    l.mapM f = .ok k ↔ List.Forall₂ (fun a b => f a = .ok b) l k := by
  induction l generalizing k with
  | nil =>
    rw [List.mapM_nil, List.forall₂_nil_left_iff]
    exact ⟨fun h => (Except.ok.inj h).symm, fun h => h ▸ rfl⟩
  | cons a l ih =>
    rw [List.mapM_cons, bind_eq_ok_iff, List.forall₂_cons_left_iff]
    constructor
    · rintro ⟨b, hb, h⟩
      obtain ⟨others, hothers, h⟩ := bind_eq_ok_iff.mp h
      cases h
      exact ⟨b, others, hb, ih.mp hothers, rfl⟩
    · rintro ⟨b, others, hb, hothers, rfl⟩
      exact ⟨b, hb, bind_eq_ok_iff.mpr ⟨others, ih.mpr hothers, rfl⟩⟩

/-! ## Items -/

theorem isBlank_of_isNameChar {c : Char} (h : isNameChar c = true) : Text.isBlank c = false :=
  Grammar.Token.isBlank_of_isIdentifierChar (isIdentifierChar_of_isNameChar h)

theorem IsName.solid {name : String} (h : IsName name) : IsSolid name.toList :=
  fun c hc => isBlank_of_isNameChar (h.2 c hc)

theorem IsName.not_mem {name : String} (h : IsName name) {c : Char} (hc : isNameChar c = false) :
    c ∉ name.toList := by
  intro hmem
  rw [h.2 c hmem] at hc
  cases hc

theorem checkName_eq_ok_iff {chars : List Char} {name : String} :
    checkName chars = .ok name ↔ IsName name ∧ chars = name.toList := by
  constructor
  · intro h
    refine ⟨isName_of_checkName h, ?_⟩
    unfold checkName at h
    split at h
    · cases h
    · split at h
      · cases h
      · cases h
        exact String.toList_ofList.symm
  · rintro ⟨⟨hne, hchars⟩, rfl⟩
    have hfind : name.toList.find? (fun c => !isNameChar c) = none :=
      List.find?_eq_none.mpr fun c hc => by simp [hchars c hc]
    have hempty : name.toList.isEmpty = false := by simpa using hne
    rw [checkName, hempty, if_neg Bool.false_ne_true, hfind, String.ofList_toList]

namespace Kind

theorem isBlank_sigil (k : Kind) : Text.isBlank k.sigil = false := by
  cases k <;> decide

theorem sigil_ne (k : Kind) {c : Char} (hc : ofSigil? c = none) : k.sigil ≠ c := by
  rintro rfl
  rw [ofSigil?_sigil] at hc
  cases hc

end Kind

namespace Item

/-- The names in the item are names, and a literal is one or more characters
other than white space. -/
def WellFormed : Item → Prop
  | reference _ name => IsName name
  | literal value => value.toList ≠ [] ∧ IsSolid value.toList
  | aliased _ key target => IsName key ∧ IsName target
  | text => True

section
variable {kind : Kind} {shown : String} {chars : List Char} {item : Item}

theorem spelled_of_ofReference (h : ofReference kind shown chars = .ok item) :
    item.WellFormed ∧ kind.sigil :: chars = item.word := by
  unfold ofReference at h
  split at h
  · next inside =>
    by_cases hclose : ')' ∈ inside
    · obtain ⟨key, target, rfl, hkey⟩ := List.eq_append_cons_of_mem hclose
      rw [Text.splitFirst_append_cons hkey] at h
      dsimp only at h
      split at h
      · cases h
      · obtain ⟨k, hk, h⟩ := bind_eq_ok_iff.mp h
        obtain ⟨t, ht, h⟩ := bind_eq_ok_iff.mp h
        cases h
        obtain ⟨hkname, rfl⟩ := checkName_eq_ok_iff.mp hk
        obtain ⟨htname, rfl⟩ := checkName_eq_ok_iff.mp ht
        exact ⟨⟨hkname, htname⟩, rfl⟩
    · rw [Text.splitFirst_eq_none hclose] at h
      cases h
  · obtain ⟨name, hname, h⟩ := bind_eq_ok_iff.mp h
    cases h
    obtain ⟨hisName, rfl⟩ := checkName_eq_ok_iff.mp hname
    exact ⟨hisName, rfl⟩

theorem ofReference_name {name : String} (h : IsName name) :
    ofReference kind shown name.toList = .ok (.reference kind name) := by
  unfold ofReference
  split
  · next heq =>
    have hparen : '(' ∉ name.toList := h.not_mem (by decide)
    rw [heq] at hparen
    exact absurd List.mem_cons_self hparen
  · rw [checkName_eq_ok_iff.mpr ⟨h, rfl⟩]
    rfl

theorem ofReference_alias {key target : String} (hkey : IsName key) (htarget : IsName target) :
    ofReference kind shown ('(' :: (key.toList ++ ')' :: target.toList))
      = .ok (.aliased kind key target) := by
  have hclose : ')' ∉ key.toList := hkey.not_mem (by decide)
  have hempty : key.toList.isEmpty = false := by simpa using hkey.1
  rw [ofReference, Text.splitFirst_append_cons hclose]
  dsimp only
  rw [hempty, if_neg Bool.false_ne_true, checkName_eq_ok_iff.mpr ⟨hkey, rfl⟩,
    checkName_eq_ok_iff.mpr ⟨htarget, rfl⟩]
  rfl

theorem ofWord_sigil (kind : Kind) (rest : List Char) :
    ofWord (kind.sigil :: rest)
      = ofReference kind (String.ofList (kind.sigil :: rest)) rest := by
  have htext : kind.sigil :: rest ≠ "TEXT".toList := by
    intro h
    exact kind.sigil_ne (c := 'T') (by decide) (List.cons.inj h).1
  rw [ofWord, if_neg htext]
  dsimp only [List.headD_cons, List.tail_cons]
  rw [if_neg (kind.sigil_ne (by decide)), Kind.ofSigil?_sigil]

theorem ofWord_literal {value : List Char} (h : value ≠ []) :
    ofWord ('\'' :: value) = .ok (.literal (String.ofList value)) := by
  have htext : '\'' :: value ≠ "TEXT".toList := by
    intro h
    exact absurd (List.cons.inj h).1 (by decide)
  have hempty : value.isEmpty = false := by simpa using h
  rw [ofWord, if_neg htext]
  dsimp only [List.headD_cons, List.tail_cons]
  rw [if_pos rfl, hempty, if_neg Bool.false_ne_true]

/-- A word that can be read is the text marker, or begins with a quote or a
sigil. -/
theorem spelled_of_ofWord {word : List Char} (hsolid : IsSolid word)
    (h : ofWord word = .ok item) : item.WellFormed ∧ word = item.word := by
  cases word with
  | nil => cases h
  | cons first rest =>
    cases hkind : Kind.ofSigil? first with
    | some kind =>
      rw [Kind.ofSigil?_eq_some_iff] at hkind
      subst hkind
      rw [ofWord_sigil] at h
      exact spelled_of_ofReference h
    | none =>
      unfold ofWord at h
      dsimp only [List.headD_cons, List.tail_cons] at h
      rw [hkind] at h
      split at h
      · next htext =>
        cases h
        exact ⟨trivial, htext⟩
      · split at h
        · next hquote =>
          subst hquote
          split at h
          · cases h
          · next hrest =>
            cases h
            have hvalue := (List.forall_mem_cons.mp hsolid).2
            have hne : rest ≠ [] := by simpa using hrest
            simp only [WellFormed, Item.word, String.toList_ofList]
            exact ⟨⟨hne, hvalue⟩, trivial⟩
        · cases h

theorem WellFormed.ofWord_word (h : item.WellFormed) : ofWord item.word = .ok item := by
  cases item with
  | text => rfl
  | literal value =>
    rw [Item.word, ofWord_literal h.1, String.ofList_toList]
  | reference kind name =>
    rw [Item.word, ofWord_sigil]
    exact ofReference_name h
  | aliased kind key target =>
    rw [Item.word, List.cons_append, List.cons_append, ofWord_sigil]
    exact ofReference_alias h.1 h.2

theorem WellFormed.word_solid (h : item.WellFormed) : IsSolid item.word ∧ item.word ≠ [] := by
  cases item with
  | text =>
    have hall : (Item.word .text).all (fun c => !Text.isBlank c) = true := by decide
    exact ⟨by simpa [IsSolid] using hall, List.cons_ne_nil _ _⟩
  | literal value =>
    exact ⟨List.forall_mem_cons.mpr ⟨by decide, h.2⟩, List.cons_ne_nil _ _⟩
  | reference kind name =>
    exact ⟨List.forall_mem_cons.mpr ⟨kind.isBlank_sigil, IsName.solid h⟩, List.cons_ne_nil _ _⟩
  | aliased kind key target =>
    refine ⟨?_, List.cons_ne_nil _ _⟩
    intro c hc
    simp only [Item.word, List.mem_append, List.mem_cons] at hc
    rcases hc with (rfl | rfl | hc) | rfl | hc
    · exact kind.isBlank_sigil
    · decide
    · exact h.1.solid c hc
    · decide
    · exact h.2.solid c hc

end

theorem ofWords_eq_ok_iff_spelled {words : List (List Char)} (hsolid : ∀ w ∈ words, IsSolid w)
    {items : List Item} :
    ofWords words = .ok items ↔
      (∀ item ∈ items, item.WellFormed) ∧ words = items.map Item.word := by
  rw [ofWords_eq_ok_iff]
  constructor
  · intro h
    induction h with
    | nil => exact ⟨fun _ h => absurd h List.not_mem_nil, rfl⟩
    | cons hword _ ih =>
      obtain ⟨hfirst, hrest⟩ := List.forall_mem_cons.mp hsolid
      obtain ⟨hitem, rfl⟩ := spelled_of_ofWord hfirst hword
      obtain ⟨hitems, rfl⟩ := ih hrest
      exact ⟨List.forall_mem_cons.mpr ⟨hitem, hitems⟩, rfl⟩
  · rintro ⟨hitems, rfl⟩
    rw [List.forall₂_map_left_iff, List.forall₂_same]
    intro item hitem
    exact (hitems item hitem).ofWord_word

/-- The items of a line are the words they spell, set apart by white space. -/
theorem ofWords_words_iff {after : List Char} {items : List Item} :
    ofWords (Text.words after) = .ok items ↔
      (∀ item ∈ items, item.WellFormed) ∧ Listed (items.map Item.word) after := by
  obtain ⟨hlisted, hwords⟩ := Text.listed_words after
  rw [ofWords_eq_ok_iff_spelled fun w hw => (hwords w hw).1]
  constructor
  · rintro ⟨hitems, heq⟩
    rw [heq] at hlisted
    exact ⟨hitems, hlisted⟩
  · rintro ⟨hitems, h⟩
    refine ⟨hitems, Text.words_of_listed h fun w hw => ?_⟩
    obtain ⟨item, hitem, rfl⟩ := List.mem_map.mp hw
    exact (hitems item hitem).word_solid

end Item

/-! ## Lines -/

/-- A row that declares nothing: white space only, or a hash sign first. -/
def IsIdle (row : List Char) : Prop :=
  IsGap row ∨ ∃ gap rest, IsGap gap ∧ row = gap ++ '#' :: rest

namespace Declaration
variable {d : Declaration} {file : String} {line : UInt32} {position : Nat} {row : List Char}

theorem saysNothing_trim_iff : saysNothing (Text.trim row) = true ↔ IsIdle row := by
  constructor
  · intro h
    rcases Text.isGap_or_exists row with hgap | ⟨gap, c, rest, hgap, hc, rfl⟩
    · exact .inl hgap
    · rw [Text.trim_append_cons hc, Text.trimStart_of_gap hgap] at h
      have hhash : c = '#' := by simpa [saysNothing] using h
      exact .inr ⟨gap, rest, hgap, by rw [hhash]⟩
  · rintro (hgap | ⟨gap, rest, hgap, rfl⟩)
    · rw [Text.trim_of_gap hgap]
      rfl
    · rw [Text.trim_append_cons (by decide), Text.trimStart_of_gap hgap]
      rfl

/-- The name and the items of the declaration are well formed. -/
structure WellFormed (d : Declaration) : Prop where
  name : IsName d.name
  items : ∀ item ∈ d.items, item.WellFormed

/-- The row writes the declaration: sigil and name, a colon, and the items,
with white space around each of the three. -/
def Written (d : Declaration) (row : List Char) : Prop :=
  ∃ lead gap items, IsGap lead ∧ IsGap gap ∧ Listed (d.items.map Item.word) items ∧
    row = lead ++ d.kind.sigil :: d.name.toList ++ gap ++ ':' :: items

theorem header_iff {header : List Char} :
    Kind.ofSigil? ((Text.trim (Text.trimStart header)).headD ' ') = some d.kind ∧
        checkName (Text.trim (Text.trimStart header)).tail = .ok d.name ↔
      IsName d.name ∧ ∃ lead gap, IsGap lead ∧ IsGap gap ∧
        header = lead ++ d.kind.sigil :: d.name.toList ++ gap := by
  rw [Text.trim_trimStart, Kind.ofSigil?_eq_some_iff, checkName_eq_ok_iff]
  constructor
  · rintro ⟨hsigil, hname, htail⟩
    obtain ⟨lead, gap, hlead, hgap, hheader⟩ := Text.exists_gaps header
    refine ⟨hname, lead, gap, hlead, hgap, ?_⟩
    have hcut : Text.trim header = d.kind.sigil :: d.name.toList := by
      cases hcut : Text.trim header with
      | nil =>
        rw [hcut] at hsigil
        exact absurd hsigil.symm (d.kind.sigil_ne (by decide))
      | cons c rest =>
        rw [hcut] at hsigil htail
        exact congrArg₂ List.cons hsigil htail
    rwa [hcut] at hheader
  · rintro ⟨hname, lead, gap, hlead, hgap, rfl⟩
    have hsolid : IsSolid (d.kind.sigil :: d.name.toList) :=
      List.forall_mem_cons.mpr ⟨d.kind.isBlank_sigil, hname.solid⟩
    rw [Text.trim_append hlead hgap, Text.trim_of_solid hsolid]
    exact ⟨rfl, hname, rfl⟩

theorem colon_not_mem_header {lead gap : List Char} (hlead : IsGap lead) (hgap : IsGap gap)
    (hname : IsName d.name) : ':' ∉ lead ++ d.kind.sigil :: d.name.toList ++ gap := by
  have houtside : ∀ text, IsGap text → ':' ∉ text := fun text htext hmem =>
    absurd (htext ':' hmem) (by decide)
  simp only [List.mem_append, List.mem_cons, not_or]
  exact ⟨⟨houtside lead hlead, (d.kind.sigil_ne (by decide)).symm, hname.not_mem (by decide)⟩,
    houtside gap hgap⟩

/-- A line is read as the well-formed declaration that it writes. -/
theorem ofText_eq_ok_iff :
    ofText line (Text.trim row) = .ok d ↔ d.WellFormed ∧ d.Written row ∧ d.line = line := by
  constructor
  · intro h
    by_cases hcolon : ':' ∈ row
    · obtain ⟨header, after, rfl, hheader⟩ := List.eq_append_cons_of_mem hcolon
      obtain ⟨hkind, hname, hitems, hline⟩ := (ofText_colon_iff hheader).mp h
      obtain ⟨hisName, lead, gap, hlead, hgap, rfl⟩ := header_iff.mp ⟨hkind, hname⟩
      obtain ⟨hwell, hlisted⟩ := Item.ofWords_words_iff.mp hitems
      exact ⟨⟨hisName, hwell⟩, ⟨lead, gap, after, hlead, hgap, hlisted, rfl⟩, hline⟩
    · obtain ⟨lead, trail, _, _, hrow⟩ := Text.exists_gaps row
      have htrim : ':' ∉ Text.trim row := by
        intro hmem
        rw [hrow] at hcolon
        exact hcolon (List.mem_append_left _ (List.mem_append_right _ hmem))
      rw [ofText, Text.splitFirst_eq_none htrim] at h
      cases h
  · rintro ⟨⟨hname, hitems⟩, ⟨lead, gap, after, hlead, hgap, hlisted, rfl⟩, hline⟩
    obtain ⟨hkind, hcheck⟩ := header_iff.mpr ⟨hname, lead, gap, hlead, hgap, rfl⟩
    exact (ofText_colon_iff (colon_not_mem_header hlead hgap hname)).mpr
      ⟨hkind, hcheck, Item.ofWords_words_iff.mpr ⟨hitems, hlisted⟩, hline⟩

theorem Written.not_idle (h : d.Written row) : saysNothing (Text.trim row) = false := by
  obtain ⟨lead, gap, items, hlead, _, _, rfl⟩ := h
  have hhash : d.kind.sigil ≠ '#' := d.kind.sigil_ne (by decide)
  rw [List.append_assoc, List.append_assoc, List.cons_append,
    Text.trim_append_cons d.kind.isBlank_sigil, Text.trimStart_of_gap hlead]
  simpa [saysNothing] using hhash

/-! ## Rows -/

/-- The trimmed texts of the rows that are not idle, with their positions. -/
def spoken (position : Nat) (rows : List (List Char)) : List (List Char × Nat) :=
  ((rows.map Text.trim).zipIdx position).filter fun row => !saysNothing row.1

/-- Reads the trimmed text of a row that is not idle. -/
def ofRow (file : String) (row : List Char × Nat) : Except Error Declaration :=
  (ofText (.ofNat row.2) row.1).mapError (Error.syntaxFault file (.ofNat row.2))

theorem ofLines_eq_mapM (file : String) (position : Nat) (rows : List (List Char)) :
    ofLines file position rows = (spoken position rows).mapM (ofRow file) := by
  induction rows generalizing position with
  | nil => rfl
  | cons row rest ih =>
    unfold spoken at ih ⊢
    rw [ofLines, List.map_cons, List.zipIdx_cons, List.filter_cons]
    dsimp only
    cases hidle : saysNothing (Text.trim row) with
    | true => exact ih (position + 1)
    | false =>
      rw [if_neg Bool.false_ne_true, ih (position + 1), Bool.not_false, if_pos rfl,
        List.mapM_cons, ofRow]
      cases ofText (.ofNat position) (Text.trim row) with
      | error fault => rfl
      | ok d => rfl

theorem spoken_lines (position : Nat) (text : List Char) :
    spoken position (Text.lines text) = spoken position (Text.rows text) := by
  unfold spoken
  rcases Text.map_trim_rows text with hrows | hrows
  · rw [hrows]
  · simp [hrows, List.zipIdx_append, saysNothing]

theorem readAll_eq_mapM (file source : String) :
    readAll file source = (spoken 1 (Text.rows source.toList)).mapM (ofRow file) := by
  rw [readAll, ofLines_eq_mapM, spoken_lines]

theorem position_of_mem_spoken {texts : List (List Char)} {r : List Char × Nat}
    (h : r ∈ spoken position texts) : position ≤ r.2 ∧ r.2 < position + texts.length := by
  have hmem := List.mem_of_mem_filter h
  have hlow := List.le_snd_of_mem_zipIdx hmem
  have hhigh := List.snd_lt_add_of_mem_zipIdx hmem
  rw [List.length_map] at hhigh
  omega

/-- In a text of fewer than 2 ^ 32 lines the number of a line tells its
position. -/
theorem toNat_of_mem_spoken {text : List Char} (htext : (Text.lines text).length < UInt32.size)
    {r : List Char × Nat} (h : r ∈ spoken 1 (Text.rows text)) :
    (UInt32.ofNat r.2).toNat = r.2 := by
  rw [← spoken_lines] at h
  have hposition := position_of_mem_spoken h
  have hlt : r.2 < UInt32.size := by omega
  exact UInt32.toNat_ofNat_of_lt' hlt

/-! ## Layouts -/

theorem ofRow_eq_ok_iff : ofRow file (Text.trim row, position) = .ok d ↔
    d.WellFormed ∧ d.Written row ∧ d.line = .ofNat position := by
  rw [← ofText_eq_ok_iff, ofRow]
  dsimp only
  cases ofText (.ofNat position) (Text.trim row) with
  | error fault =>
    constructor
    all_goals
      intro h
      cases h
  | ok e =>
    rw [Except.mapError, Except.ok.injEq, Except.ok.injEq]

theorem mem_spoken_iff {text : List Char} {texts : List (List Char)} {first : Nat} :
    (text, position) ∈ spoken first texts ↔
      ∃ row, (row, position) ∈ texts.zipIdx first ∧ text = Text.trim row ∧
        saysNothing text = false := by
  unfold spoken
  rw [List.mem_filter, List.zipIdx_map, List.mem_map]
  constructor
  · rintro ⟨⟨⟨row, n⟩, hmem, heq⟩, hidle⟩
    cases heq
    exact ⟨row, hmem, rfl, by simpa using hidle⟩
  · rintro ⟨row, hmem, rfl, hidle⟩
    exact ⟨⟨(row, position), hmem, rfl⟩, by simpa using hidle⟩

/-- The declarations stand on the rows with the numbers of their lines, and
every other row is idle. -/
structure LaidOut (ds : List Declaration) (rows : List (List Char)) : Prop where
  declared : ∀ d ∈ ds, ∃ row, (row, d.line.toNat) ∈ rows.zipIdx 1 ∧ d.Written row
  idle : ∀ row position, (row, position) ∈ rows.zipIdx 1 →
    (∀ d ∈ ds, d.line.toNat ≠ position) → IsIdle row

theorem pairwise_spoken (first : Nat) (texts : List (List Char)) :
    ((spoken first texts).map Prod.snd).Pairwise (· < ·) := by
  have hall : (((texts.map Text.trim).zipIdx first).map Prod.snd).Pairwise (· < ·) := by
    rw [List.zipIdx_map_snd]
    exact List.pairwise_lt_range'
  exact hall.sublist (List.filter_sublist.map _)

theorem row_unique {texts : List (List Char)} {first : Nat} {row' : List Char}
    (h : (row, position) ∈ texts.zipIdx first) (h' : (row', position) ∈ texts.zipIdx first) :
    row = row' := by
  obtain ⟨_, hrow⟩ := List.mk_mem_zipIdx_iff_le_and_getElem?_sub.mp h
  obtain ⟨_, hrow'⟩ := List.mk_mem_zipIdx_iff_le_and_getElem?_sub.mp h'
  rw [hrow] at hrow'
  exact Option.some.inj hrow'

/-- The number of a line is handed on and not looked at. -/
theorem ofText_renumber (line number : UInt32) (text : List Char) :
    ofText number text = (fun d => { d with line := number }) <$> ofText line text := by
  unfold ofText
  split
  · rfl
  · next before after _ =>
    dsimp only
    split
    · rfl
    · cases checkName (Text.trim before).tail with
      | error fault => rfl
      | ok name =>
        cases Item.ofWords (Text.words after) with
        | error fault => rfl
        | ok items => rfl

theorem line_of_ofRow {r : List Char × Nat} (h : ofRow file r = .ok d) :
    d.line = .ofNat r.2 := by
  unfold ofRow at h
  rw [ofText_renumber 0] at h
  cases htext : ofText 0 r.1 with
  | error fault =>
    rw [htext] at h
    cases h
  | ok e =>
    rw [htext] at h
    cases h
    rfl

section
variable {ds : List Declaration} {texts : List (List Char)}
  (hnumbers : ∀ r ∈ spoken 1 texts, (UInt32.ofNat r.2).toNat = r.2)

include hnumbers in
theorem laidOut_of_read
    (h : List.Forall₂ (fun r d => ofRow file r = .ok d) (spoken 1 texts) ds) :
    LaidOut ds texts where
  declared d hd := by
    obtain ⟨⟨text, n⟩, hr, hread⟩ := exists_left_of_forall₂ h hd
    obtain ⟨row, hrow, rfl, _⟩ := mem_spoken_iff.mp hr
    obtain ⟨_, hwritten, hline⟩ := ofRow_eq_ok_iff.mp hread
    refine ⟨row, ?_, hwritten⟩
    rw [hline, hnumbers _ hr]
    exact hrow
  idle row position hrow hfree := by
    by_contra hspeaks
    rw [← saysNothing_trim_iff, Bool.not_eq_true] at hspeaks
    have hr : (Text.trim row, position) ∈ spoken 1 texts :=
      mem_spoken_iff.mpr ⟨row, hrow, rfl, hspeaks⟩
    obtain ⟨d, hd, hread⟩ := exists_right_of_forall₂ h hr
    apply hfree d hd
    rw [(ofRow_eq_ok_iff.mp hread).2.2, hnumbers _ hr]

include hnumbers in
theorem map_line_of_read
    (h : List.Forall₂ (fun r d => ofRow file r = .ok d) (spoken 1 texts) ds) :
    (spoken 1 texts).map Prod.snd = ds.map (·.line.toNat) := by
  have hboth := (List.forall₂_and_left _ _).mpr ⟨hnumbers, h⟩
  refine map_eq_of_forall₂ hboth fun r d hr => ?_
  rw [line_of_ofRow hr.2, hr.1]

/-- The rows that are not idle are those with the lines of the declarations:
both lists of numbers go up, and they have the same members. -/
theorem positions_of_laidOut (hlines : (ds.map (·.line.toNat)).Pairwise (· < ·))
    (h : LaidOut ds texts) : (spoken 1 texts).map Prod.snd = ds.map (·.line.toNat) := by
  refine (pairwise_spoken 1 texts).eq_of_mem_iff hlines fun position => ?_
  rw [List.mem_map, List.mem_map]
  constructor
  · rintro ⟨⟨text, n⟩, hr, rfl⟩
    obtain ⟨row, hrow, rfl, hspeaks⟩ := mem_spoken_iff.mp hr
    by_contra hfree
    have hidle := h.idle row n hrow fun d hd heq => hfree ⟨d, hd, heq⟩
    rw [← saysNothing_trim_iff, hspeaks] at hidle
    cases hidle
  · rintro ⟨d, hd, rfl⟩
    obtain ⟨row, hrow, hwritten⟩ := h.declared d hd
    exact ⟨(Text.trim row, d.line.toNat),
      mem_spoken_iff.mpr ⟨row, hrow, rfl, hwritten.not_idle⟩, rfl⟩

theorem read_of_laidOut (hwell : ∀ d ∈ ds, d.WellFormed)
    (hlines : (ds.map (·.line.toNat)).Pairwise (· < ·)) (h : LaidOut ds texts) :
    List.Forall₂ (fun r d => ofRow file r = .ok d) (spoken 1 texts) ds := by
  have hsame := positions_of_laidOut hlines h
  have hpaired : List.Forall₂ (fun r d => r.2 = d.line.toNat) (spoken 1 texts) ds := by
    rwa [← List.forall₂_eq_eq_eq, List.forall₂_map_left_iff, List.forall₂_map_right_iff] at hsame
  rw [List.forall₂_iff_zip] at hpaired ⊢
  refine ⟨hpaired.1, fun {r d} hmem => ?_⟩
  obtain ⟨hr, hd⟩ := List.of_mem_zip hmem
  obtain ⟨text, n⟩ := r
  obtain rfl : n = d.line.toNat := hpaired.2 hmem
  obtain ⟨row, hrow, rfl, _⟩ := mem_spoken_iff.mp hr
  obtain ⟨row', hrow', hwritten⟩ := h.declared d hd
  cases row_unique hrow hrow'
  exact ofRow_eq_ok_iff.mpr ⟨hwell d hd, hwritten, UInt32.ofNat_toNat.symm⟩

end

/-- Of the texts of fewer than 2 ^ 32 lines, reading accepts exactly the layouts
of lists of well-formed declarations with increasing lines, and gives the list
that is laid out. -/
theorem readAll_eq_ok_iff_laidOut {source : String}
    (hsource : (Text.lines source.toList).length < UInt32.size) (file : String)
    (ds : List Declaration) :
    readAll file source = .ok ds ↔
      (∀ d ∈ ds, d.WellFormed) ∧ (ds.map (·.line.toNat)).Pairwise (· < ·) ∧
        LaidOut ds (Text.rows source.toList) := by
  have hnumbers := fun r => @toNat_of_mem_spoken _ hsource r
  rw [readAll_eq_mapM, mapM_eq_ok_iff]
  constructor
  · intro h
    refine ⟨fun d hd => ?_, ?_, laidOut_of_read hnumbers h⟩
    · obtain ⟨⟨text, n⟩, hr, hread⟩ := exists_left_of_forall₂ h hd
      obtain ⟨row, _, rfl, _⟩ := mem_spoken_iff.mp hr
      exact (ofRow_eq_ok_iff.mp hread).1
    · rw [← map_line_of_read hnumbers h]
      exact pairwise_spoken 1 _
  · rintro ⟨hwell, hlines, hlaid⟩
    exact read_of_laidOut hwell hlines hlaid

/-- A literal may hold a colon, a hash sign or a sigil, and a carriage return
is white space. -/
def notedSource : String := "# note\n\t$a : 'x:# TEXT\r\n\n%m:$(k)a"

def notedDeclarations : List Declaration :=
  [⟨.scalar, "a", [.literal "x:#", .text], 2⟩, ⟨.mapping, "m", [.aliased .scalar "k" "a"], 4⟩]

theorem noted_laidOut :
    readAll "notes" notedSource = .ok notedDeclarations ∧
      LaidOut notedDeclarations (Text.rows notedSource.toList) := by
  have hread : readAll "notes" notedSource = .ok notedDeclarations := by decide +kernel
  have hlines : (Text.lines notedSource.toList).length < UInt32.size := by decide
  exact ⟨hread, ((readAll_eq_ok_iff_laidOut hlines _ _).mp hread).2.2⟩

end Declaration

end TreeSchema.Schema
