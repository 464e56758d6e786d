import Mathlib.Data.List.Induction
import TreeSchema.Proofs.Reachability
/-
  Editing the items of a schema

  Two schema texts that differ only in what stands after the colons of some
  lines. A line is cut at its first colon and the items are the words after
  it, so that the header of an edited line is read as before, with the items
  that its words now stand for. If every declaration still has a shape, the
  edited text compiles whenever the text does, under the same root.
-/

namespace TreeSchema

/-! ## Cutting a line at its colon -/

namespace Text

theorem trimStart_append_cons {c : Char} (hc : isBlank c = false) (before after : List Char) :
    trimStart (before ++ c :: after) = trimStart before ++ c :: after := by
  induction before with
  | nil => simp [trimStart, hc]
  | cons b before ih =>
    simp only [trimStart, List.cons_append] at ih ⊢
    by_cases hb : isBlank b = true
    · simp [hb, ih]
    · simp [hb]

theorem trimEnd_append_cons {c : Char} (hc : isBlank c = false) (before after : List Char) :
    trimEnd (before ++ c :: after) = before ++ c :: trimEnd after := by
  have hreverse : (before ++ c :: after).reverse = after.reverse ++ c :: before.reverse := by simp
  have hstart := trimStart_append_cons hc after.reverse before.reverse
  rw [trimStart] at hstart
  rw [trimEnd, hreverse, hstart]
  simp [trimEnd, trimStart]

theorem trim_append_cons {c : Char} (hc : isBlank c = false) (before after : List Char) :
    trim (before ++ c :: after) = trimStart before ++ c :: trimEnd after := by
  rw [trim, trimStart_append_cons hc, trimEnd_append_cons hc]

theorem wordsFrom_append_blank {c : Char} (hc : isBlank c = true) (current text : List Char) :
    wordsFrom current (text ++ [c]) = wordsFrom current text := by
  induction text generalizing current with
  | nil => simp [wordsFrom, hc, closeWord]
  | cons b text ih =>
    simp only [List.cons_append, wordsFrom]
    split
    · rw [ih]
    · exact ih _

theorem words_trimEnd (text : List Char) : words (trimEnd text) = words text := by
  induction text using List.reverseRecOn with
  | nil => rfl
  | append_singleton text c ih =>
    by_cases hc : isBlank c = true
    · have htrim : trimEnd (text ++ [c]) = trimEnd text := by simp [trimEnd, hc]
      rw [htrim, ih, words, words, wordsFrom_append_blank hc]
    · rw [trimEnd_append_cons (Bool.eq_false_iff.mpr hc)]
      rfl

theorem splitFirst_append_cons {sep : Char} {before : List Char} (h : sep ∉ before)
    (after : List Char) : splitFirst sep (before ++ sep :: after) = some (before, after) := by
  induction before with
  | nil => simp [splitFirst]
  | cons c before ih =>
    rw [List.mem_cons, not_or] at h
    rw [List.cons_append, splitFirst, if_neg (fun heq => h.1 heq.symm), ih h.2]
    rfl

end Text

namespace Schema

theorem Item.ofWords_eq_ok_iff {words : List (List Char)} {items : List Item} :
    ofWords words = .ok items ↔ List.Forall₂ (fun w i => ofWord w = .ok i) words items := by
  induction words generalizing items with
  | nil =>
    rw [ofWords, List.forall₂_nil_left_iff, Except.ok.injEq]
    exact eq_comm
  | cons word rest ih =>
    rw [ofWords, bind_eq_ok_iff, List.forall₂_cons_left_iff]
    constructor
    · rintro ⟨item, hitem, h⟩
      obtain ⟨others, hothers, h⟩ := bind_eq_ok_iff.mp h
      cases h
      exact ⟨item, others, hitem, ih.mp hothers, rfl⟩
    · rintro ⟨item, others, hitem, hothers, rfl⟩
      exact ⟨item, hitem, bind_eq_ok_iff.mpr ⟨others, ih.mpr hothers, rfl⟩⟩

/-- Two lines with one header, where the words after the colon are related. -/
def ItemsEdited (R : List (List Char) → List (List Char) → Prop) (raw raw' : List Char) : Prop :=
  ∃ header after after', ':' ∉ header ∧ raw = header ++ ':' :: after ∧
    raw' = header ++ ':' :: after' ∧ R (Text.words after) (Text.words after')

namespace Declaration

/-- A line with a colon is read as its header and its items. -/
theorem ofText_colon_iff {line : UInt32} {header after : List Char} (hcolon : ':' ∉ header)
    {d : Declaration} :
    ofText line (Text.trim (header ++ ':' :: after)) = .ok d ↔
      Kind.ofSigil? ((Text.trim (Text.trimStart header)).headD ' ') = some d.kind ∧
        checkName (Text.trim (Text.trimStart header)).tail = .ok d.name ∧
        Item.ofWords (Text.words after) = .ok d.items ∧ d.line = line := by
  have hstart : ':' ∉ Text.trimStart header :=
    fun hmem => hcolon ((List.dropWhile_sublist _).mem hmem)
  unfold ofText
  rw [Text.trim_append_cons (by decide), Text.splitFirst_append_cons hstart]
  dsimp only
  rw [Text.words_trimEnd]
  generalize Text.trim (Text.trimStart header) = cut
  cases hkind : Kind.ofSigil? (cut.headD ' ') with
  | none => simp
  | some kind =>
    dsimp only
    rw [bind_eq_ok_iff]
    constructor
    · rintro ⟨name, hname, h⟩
      obtain ⟨items, hitems, h⟩ := bind_eq_ok_iff.mp h
      cases h
      exact ⟨rfl, hname, hitems, rfl⟩
    · rintro ⟨hd, hname, hitems, rfl⟩
      cases hd
      exact ⟨d.name, hname, bind_eq_ok_iff.mpr ⟨d.items, hitems, rfl⟩⟩

theorem saysNothing_colon (header after after' : List Char) :
    saysNothing (Text.trim (header ++ ':' :: after))
      = saysNothing (Text.trim (header ++ ':' :: after')) := by
  rw [Text.trim_append_cons (by decide), Text.trim_append_cons (by decide)]
  cases Text.trimStart header <;> rfl

/-- The second line says something just if the first does, and then declares
something related. -/
def LineReads (E : Declaration → Declaration → Prop) (raw raw' : List Char) : Prop :=
  saysNothing (Text.trim raw') = saysNothing (Text.trim raw) ∧
    ∀ line d, ofText line (Text.trim raw) = .ok d →
      ∃ d', ofText line (Text.trim raw') = .ok d' ∧ E d d'

theorem LineReads.of_eq {E : Declaration → Declaration → Prop} (hE : ∀ d, E d d)
    (raw : List Char) : LineReads E raw raw :=
  ⟨rfl, fun _ d hd => ⟨d, hd, hE d⟩⟩

theorem LineReads.of_itemsEdited {R : List (List Char) → List (List Char) → Prop}
    {E : Declaration → Declaration → Prop} {raw raw' : List Char} (h : ItemsEdited R raw raw')
    (hE : ∀ line d words words', ofText line (Text.trim raw) = .ok d → R words words' →
      Item.ofWords words = .ok d.items →
      ∃ items, Item.ofWords words' = .ok items ∧ E d { d with items }) : LineReads E raw raw' := by
  obtain ⟨header, after, after', hcolon, rfl, rfl, hR⟩ := h
  refine ⟨saysNothing_colon _ _ _, fun line d hd => ?_⟩
  obtain ⟨hkind, hname, hitems, hline⟩ := (ofText_colon_iff hcolon).mp hd
  obtain ⟨items, hitems', hrel⟩ := hE line d _ _ hd hR hitems
  exact ⟨{ d with items }, (ofText_colon_iff hcolon).mpr ⟨hkind, hname, hitems', hline⟩, hrel⟩

theorem ofLines_of_lineReads {E : Declaration → Declaration → Prop}
    {lines lines' : List (List Char)} (h : List.Forall₂ (LineReads E) lines lines')
    {file : String} {position : Nat} {ds : List Declaration}
    (hds : ofLines file position lines = .ok ds) :
    ∃ ds', ofLines file position lines' = .ok ds' ∧ List.Forall₂ E ds ds' := by
  induction h generalizing position ds with
  | nil =>
    cases hds
    exact ⟨[], rfl, .nil⟩
  | @cons raw raw' rest rest' hline _ ih =>
    obtain ⟨hsame, hreads⟩ := hline
    unfold ofLines at hds ⊢
    dsimp only at hds ⊢
    rw [hsame]
    split at hds
    · next hnothing =>
      rw [if_pos hnothing]
      exact ih hds
    · next hsomething =>
      rw [if_neg hsomething]
      split at hds
      · cases hds
      · next d hd =>
        obtain ⟨others, hothers, hds⟩ := bind_eq_ok_iff.mp hds
        cases hds
        obtain ⟨d', hd', hrel⟩ := hreads (.ofNat position) d hd
        obtain ⟨others', hothers', hrest⟩ := ih hothers
        rw [hd']
        exact ⟨d' :: others', bind_eq_ok_iff.mpr ⟨others', hothers', rfl⟩, .cons hrel hrest⟩

end Declaration

/-! ## Compiling an edited text -/

/-- The second declaration is of the same name and legal if the first is, and
what the two ask of a tree is related. -/
structure Declaration.Revises (Q : Pattern Reference → Pattern Reference → Prop)
    (d d' : Declaration) : Prop where
  reference : d'.reference = d.reference
  shape : ∀ s, d.shape = .ok s → ∃ s', d'.shape = .ok s'
  pattern : Q (patternOf d.kind d.items) (patternOf d'.kind d'.items)

theorem Declaration.Revises.refl {Q : Pattern Reference → Pattern Reference → Prop}
    (hQ : ∀ p, Q p p) (d : Declaration) : d.Revises Q d :=
  ⟨rfl, fun s hs => ⟨s, hs⟩, hQ _⟩

section
variable {Q : Pattern Reference → Pattern Reference → Prop} {file : String}
  {ds ds' : List Declaration}

theorem map_reference_of_revises (h : List.Forall₂ (Declaration.Revises Q) ds ds') :
    ds'.map Declaration.reference = ds.map Declaration.reference :=
  (map_eq_of_forall₂ h fun _ _ hrev => hrev.reference.symm).symm

theorem declaredMeaning_of_revises (hQ : ∀ p, Q p p)
    (h : List.Forall₂ (Declaration.Revises Q) ds ds') (r : Reference) :
    Q (declaredMeaning ds r) (declaredMeaning ds' r) := by
  unfold declaredMeaning itemsDeclaring
  induction h with
  | nil => exact hQ _
  | @cons d d' rest rest' hrev _ ih =>
    obtain ⟨hkind, hname⟩ := Reference.mk.inj hrev.reference
    rw [List.find?_cons, List.find?_cons, hkind, hname]
    by_cases hcalled : d.kind = r.kind ∧ d.name = r.name
    · rw [decide_eq_true hcalled]
      have hpattern := hrev.pattern
      rw [hkind, hcalled.1] at hpattern
      exact hpattern
    · rw [decide_eq_false hcalled]
      exact ih

theorem exists_assemble {es : List Entity} (h : List.Forall₂ (Declaration.Revises Q) ds ds')
    (hes : assemble file ds = .ok es) : ∃ es', assemble file ds' = .ok es' := by
  induction h generalizing es with
  | nil => exact ⟨[], rfl⟩
  | @cons d d' _ _ hrel _ ih =>
    rw [assemble_eq_ok_iff, List.forall₂_cons_left_iff] at hes
    obtain ⟨e, others, he, hothers, rfl⟩ := hes
    obtain ⟨s, hs, rfl⟩ := Declaration.entity_eq_ok_iff.mp he
    obtain ⟨s', hs'⟩ := hrel.shape s hs
    obtain ⟨others', hothers'⟩ := ih (assemble_eq_ok_iff.mpr hothers)
    have hentity : d'.entity file = .ok _ := Declaration.entity_eq_ok_iff.mpr ⟨s', hs', rfl⟩
    exact ⟨_, assemble_eq_ok_iff.mpr (.cons hentity (assemble_eq_ok_iff.mp hothers'))⟩

theorem isSome_line_of_assemble {es : List Entity} (hes : assemble file ds = .ok es) :
    ∀ e ∈ es, e.line.isSome := by
  intro e he
  obtain ⟨d, _, hentity⟩ := exists_left_of_forall₂ (assemble_eq_ok_iff.mp hes) he
  obtain ⟨s, _, rfl⟩ := Declaration.entity_eq_ok_iff.mp hentity
  rfl

/-- Whether declarations that can be assembled compile depends only on the
kinds and names they declare. -/
theorem exists_compile_of_references {source' : String} {options : Options} {s : Resolved}
    {es es' : List Entity} (hcloses : s.Closes es options.root)
    (hds' : Declaration.readAll file source' = .ok ds') (hes' : assemble file ds' = .ok es')
    (href : es'.map Entity.reference = es.map Entity.reference) :
    ∃ text', compile file source' options = .ok text' := by
  obtain ⟨e, he, _, hroot⟩ := hcloses.root
  have hnodup : (es'.map Entity.reference).Nodup := by
    rw [href]
    exact hcloses.nodup_references
  have htable : SymbolTable.ofEntities file es' = .ok (.holding es') :=
    SymbolTable.ofEntities_eq_ok_iff.mpr ⟨rfl, hnodup⟩
  have hresolve : ∃ s', (SymbolTable.holding es').resolve file options.root = .ok s' := by
    apply SymbolTable.exists_resolve (r := e.reference) (SymbolTable.agrees_holding hnodup)
    · rw [SymbolTable.entities_holding]
      exact isSome_line_of_assemble hes'
    · rw [SymbolTable.references_holding, href]
      exact hroot
    · rw [SymbolTable.references_holding, href]
      exact List.mem_map_of_mem he
  obtain ⟨s', hs'⟩ := hresolve
  have hresolved : resolveEntities file es' options.root = .ok s' :=
    bind_eq_ok_iff.mpr ⟨_, htable, hs'⟩
  have hentities : readEntities file source' = .ok es' := bind_eq_ok_iff.mpr ⟨ds', hds', hes'⟩
  exact exists_compile options hentities (by rw [hresolved]; rfl)

/-- A text whose lines revise those of a text that compiles compiles too, and
what the two sets of declarations ask under each name is related. -/
theorem exists_compile_of_revises {source source' text : String} {options : Options}
    (hQ : ∀ p, Q p p) (h : compile file source options = .ok text)
    (hlines : List.Forall₂ (Declaration.LineReads (Declaration.Revises Q))
      (Text.lines source.toList) (Text.lines source'.toList)) :
    ∃ text', compile file source' options = .ok text' ∧
      ∀ ds ds', Declaration.readAll file source = .ok ds →
        Declaration.readAll file source' = .ok ds' →
        ds'.map Declaration.reference = ds.map Declaration.reference ∧
          ∀ r, Q (declaredMeaning ds r) (declaredMeaning ds' r) := by
  obtain ⟨g, hg, _⟩ := bind_eq_ok_iff.mp h
  obtain ⟨s, hs, _⟩ := compileGrammar_eq_ok_iff.mp hg
  obtain ⟨ds, es, hds, hes, hcloses, _⟩ := resolveSource_eq_ok hs
  obtain ⟨ds', hds', hrev⟩ := Declaration.ofLines_of_lineReads hlines hds
  obtain ⟨es', hes'⟩ := exists_assemble hrev hes
  have href := map_reference_of_revises hrev
  have hsame : es'.map Entity.reference = es.map Entity.reference := by
    rw [map_reference_of_assemble hes', map_reference_of_assemble hes, href]
  obtain ⟨text', htext'⟩ := exists_compile_of_references hcloses hds' hes' hsame
  refine ⟨text', htext', fun read read' hread hread' => ?_⟩
  rw [hds] at hread
  cases hread
  rw [Declaration.readAll, hds'] at hread'
  cases hread'
  exact ⟨href, declaredMeaning_of_revises hQ hrev⟩

end

end Schema

end TreeSchema
