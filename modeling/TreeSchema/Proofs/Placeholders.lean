import Mathlib.Data.List.Nodup
import TreeSchema.Proofs.Emission
import TreeSchema.Program.GrammarCompiler
/-
  Filling in placeholders

  The arguments of a grammar compiler are filled in by two replacements, one
  after the other, and what the first puts in is there when the second looks
  for its placeholder. Still the two come to one pass over the argument
  (`Text.Substituted.comp`). Nothing that is put in for the path opens a
  placeholder, because it holds no brace. No placeholder of the argument that
  is cut in two by the other closes behind it, because the path between the
  two pieces holds a slash, which no placeholder does.

  A placeholder holds no brace inside. So no two of them overlap, wherever one
  stands it is replaced (`Text.Substituted.around`), and what comes out is
  determined (`Text.Substituted.unique`).
-/

namespace TreeSchema

namespace Text

/-! ## Phrases in a text -/

theorem afterPhrase_isSome_iff (pattern text : List Char) :
    (afterPhrase pattern text).isSome = true ↔ pattern <+: text := by
  induction pattern generalizing text with
  | nil => simp [afterPhrase]
  | cons p pattern ih =>
    cases text with
    | nil => simp [afterPhrase]
    | cons c text =>
      rw [afterPhrase, List.cons_prefix_cons, ← ih]
      split
      · next h => simp [h]
      · next h => simp [h]

theorem contains_iff (pattern text : List Char) :
    contains pattern text = true ↔ pattern <:+: text := by
  induction text with
  | nil => simp [contains]
  | cons c rest ih =>
    rw [contains, Bool.or_eq_true, afterPhrase_isSome_iff, ih, List.infix_cons_iff]

theorem replaceFrom_length (pattern replacement before rest : List Char) :
    replaceFrom pattern replacement before.length (before ++ rest)
      = replaceFrom pattern replacement 0 rest := by
  induction before with
  | nil => rfl
  | cons c before ih => rw [List.length_cons, List.cons_append, replaceFrom, ih]

/-! ## One pass over a text -/

/-- In one pass from left to right, every phrase of the table gives way to its
replacement, and a character where no phrase begins is kept. What is put in
is not looked at again. -/
inductive Substituted (table : List (List Char × List Char)) : List Char → List Char → Prop where
  | nil : Substituted table [] []
  | phrase {phrase replacement rest out : List Char} (mem : (phrase, replacement) ∈ table)
    (tail : Substituted table rest out) : Substituted table (phrase ++ rest) (replacement ++ out)
  | keep {c : Char} {rest out : List Char} (free : ∀ e ∈ table, ¬ e.1 <+: c :: rest)
    (tail : Substituted table rest out) : Substituted table (c :: rest) (c :: out)

/-- Replacing a phrase is a pass with this phrase only. -/
theorem substituted_replaceFrom {pattern : List Char} (h : pattern ≠ [])
    (replacement text : List Char) :
    Substituted [(pattern, replacement)] text (replaceFrom pattern replacement 0 text) := by
  induction hn : text.length using Nat.strongRecOn generalizing text with
  | ind n ih =>
    cases text with
    | nil => exact .nil
    | cons c rest =>
      by_cases hbegins : pattern <+: c :: rest
      · obtain ⟨after, hafter⟩ := hbegins
        obtain ⟨p, body, rfl⟩ := List.exists_cons_of_ne_nil h
        rw [List.cons_append] at hafter
        obtain ⟨rfl, rfl⟩ := List.cons.inj hafter
        have hsome := (afterPhrase_isSome_iff (p :: body) (p :: (body ++ after))).mpr ⟨after, rfl⟩
        have hlength : (p :: body).length - 1 = body.length := by simp
        rw [replaceFrom, if_pos hsome, hlength, replaceFrom_length]
        refine .phrase (List.mem_singleton_self _) (ih after.length ?_ after rfl)
        simp only [List.length_cons, List.length_append] at hn
        omega
      · rw [replaceFrom, if_neg (fun hsome => hbegins ((afterPhrase_isSome_iff _ _).mp hsome))]
        refine .keep ?_ (ih rest.length ?_ rest rfl)
        · intro e he
          rw [List.mem_singleton.mp he]
          exact hbegins
        · rw [List.length_cons] at hn
          omega

theorem substituted_replaceAll (pattern : String) (h : pattern ≠ "") (replacement text : String) :
    Substituted [(pattern.toList, replacement.toList)] text.toList
      (replaceAll pattern replacement text).toList := by
  have hne : pattern.toList ≠ [] := fun hnil => h (String.toList_eq_nil_iff.mp hnil)
  rw [replaceAll, String.toList_ofList]
  exact substituted_replaceFrom hne _ _

/-- A phrase in braces that holds no brace. -/
def IsPlaceholder (phrase : List Char) : Prop :=
  ∃ word, phrase = '\x7b' :: (word ++ ['\x7d']) ∧ '\x7b' ∉ word ∧ '\x7d' ∉ word

/-- Of two placeholders neither begins with the other. -/
theorem IsPlaceholder.eq_of_begins {a b text : List Char} (ha : IsPlaceholder a)
    (hb : IsPlaceholder b) (hat : a <+: text) (hbt : b <+: text) : a = b := by
  obtain ⟨v, rfl, _, hv⟩ := ha
  obtain ⟨w, rfl, _, hw⟩ := hb
  obtain ⟨u, rfl⟩ := hat
  obtain ⟨u', hu'⟩ := hbt
  simp only [List.cons_append, List.append_assoc, List.cons.injEq, true_and] at hu'
  obtain ⟨rfl, _⟩ := Schema.append_inj_of_not_mem hw hv (Or.inr rfl) (Or.inr rfl) hu'
  rfl

/-- A placeholder opens at its head and nowhere else. -/
theorem IsPlaceholder.exists_cons {phrase : List Char} (h : IsPlaceholder phrase) :
    ∃ body, phrase = '\x7b' :: body ∧ '\x7b' ∉ body := by
  obtain ⟨word, rfl, hword, _⟩ := h
  exact ⟨word ++ ['\x7d'], rfl, by simp [hword]⟩

namespace Substituted
variable {table : List (List Char × List Char)} {text out : List Char}

/-- What a pass does first. -/
theorem first_step (h : Substituted table text out) :
    (text = [] ∧ out = []) ∨
    (∃ phrase replacement rest more, (phrase, replacement) ∈ table ∧ text = phrase ++ rest ∧
      out = replacement ++ more ∧ Substituted table rest more) ∨
    ∃ c rest more, (∀ e ∈ table, ¬ e.1 <+: c :: rest) ∧ text = c :: rest ∧ out = c :: more ∧
      Substituted table rest more := by
  cases h with
  | nil => exact Or.inl ⟨rfl, rfl⟩
  | phrase mem tail => exact Or.inr (Or.inl ⟨_, _, _, _, mem, rfl, rfl, tail⟩)
  | keep free tail => exact Or.inr (Or.inr ⟨_, _, _, free, rfl, rfl, tail⟩)

section
variable (htable : ∀ e ∈ table, IsPlaceholder e.1)
include htable

theorem eq_nil (h : Substituted table [] out) : out = [] := by
  rcases h.first_step with ⟨_, hout⟩ | ⟨phrase, _, rest, _, mem, htext, _⟩ | ⟨_, _, _, _, htext, _⟩
  · exact hout
  · obtain ⟨body, rfl, _⟩ := (htable _ mem).exists_cons
    cases htext
  · cases htext

/-- A character that opens nothing is kept. -/
theorem of_cons {c : Char} {rest : List Char} (hc : c ≠ '\x7b')
    (h : Substituted table (c :: rest) out) :
    ∃ more, out = c :: more ∧ Substituted table rest more := by
  rcases h.first_step with ⟨htext, _⟩ | ⟨phrase, _, _, _, mem, htext, _⟩ |
    ⟨_, _, more, _, htext, hout, htail⟩
  · cases htext
  · obtain ⟨body, rfl, _⟩ := (htable _ mem).exists_cons
    exact absurd (List.cons.inj htext).1 hc
  · cases htext
    exact ⟨more, hout, htail⟩

/-- A text in which nothing opens is kept. -/
theorem of_append {kept rest : List Char} (hopen : '\x7b' ∉ kept)
    (h : Substituted table (kept ++ rest) out) :
    ∃ more, out = kept ++ more ∧ Substituted table rest more := by
  induction kept generalizing out with
  | nil => exact ⟨out, rfl, h⟩
  | cons c kept ih =>
    rw [List.mem_cons, not_or] at hopen
    obtain ⟨later, rfl, hlater⟩ := of_cons htable (Ne.symm hopen.1) h
    obtain ⟨more, rfl, hmore⟩ := ih hopen.2 hlater
    exact ⟨more, rfl, hmore⟩

/-- A pass has one outcome. -/
theorem unique (hdistinct : (table.map Prod.fst).Nodup) {out' : List Char}
    (h : Substituted table text out) (h' : Substituted table text out') : out = out' := by
  induction h generalizing out' with
  | nil => exact (eq_nil htable h').symm
  | @phrase phrase replacement rest out mem _ ih =>
    rcases h'.first_step with ⟨htext, _⟩ | ⟨other, _, _, _, mem', htext, hout, htail⟩ |
      ⟨_, _, _, free, htext, _, _⟩
    · obtain ⟨body, rfl, _⟩ := (htable _ mem).exists_cons
      cases htext
    · have hphrase : phrase = other := IsPlaceholder.eq_of_begins (htable _ mem) (htable _ mem')
        (List.prefix_append _ _) ⟨_, htext.symm⟩
      subst hphrase
      obtain ⟨_, rfl⟩ := Prod.mk.inj (List.inj_on_of_nodup_map hdistinct mem mem' rfl)
      rw [← List.append_cancel_left htext] at htail
      rw [hout, ih htail]
    · exact absurd ⟨rest, htext⟩ (free _ mem)
  | @keep c rest out free _ ih =>
    rcases h'.first_step with ⟨htext, _⟩ | ⟨_, _, after, _, mem, htext, _⟩ |
      ⟨_, _, more, _, htext, hout, htail⟩
    · cases htext
    · exact absurd ⟨after, htext.symm⟩ (free _ mem)
    · cases htext
      rw [hout, ih htail]

/-- Wherever a placeholder stands it is replaced, and what stands before and
after it goes on as if it stood alone. -/
theorem around {before after x y phrase replacement : List Char}
    (mem : (phrase, replacement) ∈ table) (hbefore : Substituted table before x)
    (hafter : Substituted table after y) :
    Substituted table (before ++ (phrase ++ after)) (x ++ (replacement ++ y)) := by
  induction hbefore with
  | nil =>
    rw [List.nil_append, List.nil_append]
    exact .phrase mem hafter
  | phrase mem' _ ih =>
    rw [List.append_assoc, List.append_assoc]
    exact .phrase mem' ih
  | @keep c rest out free _ ih =>
    rw [List.cons_append, List.cons_append]
    refine .keep (fun e he hbegins => ?_) ih
    obtain ⟨later, hlater⟩ := hbegins
    rw [← List.cons_append, List.append_eq_append_iff] at hlater
    rcases hlater with ⟨x, hx, _⟩ | ⟨x, hx, hrest⟩
    · exact free e he ⟨x, hx.symm⟩
    -- A placeholder that reaches into the one behind holds the brace that opens it.
    · obtain ⟨inner, rfl, _⟩ := (htable _ mem).exists_cons
      obtain ⟨body, hbody, hopen⟩ := (htable e he).exists_cons
      cases x with
      | nil => exact free e he ⟨[], by rw [List.append_nil, hx, List.append_nil]⟩
      | cons d x =>
        obtain ⟨rfl, _⟩ := List.cons.inj hrest
        rw [hbody] at hx
        have htail : body = rest ++ '\x7b' :: x := (List.cons.inj hx).2
        exact hopen (by simp [htail])

end

end Substituted

/-! ## Two passes -/

section
variable {phrase path word : List Char}

/-- A path is not part of what closes a brace behind a text without slash. -/
theorem append_close_ne {rest more : List Char} (hword : '/' ∉ word) (hslash : '/' ∈ path)
    (hclose : '\x7d' ∉ path) : word ++ '\x7d' :: rest ≠ path ++ more := by
  intro h
  rcases List.append_eq_append_iff.mp h with ⟨x, rfl, hx⟩ | ⟨x, rfl, _⟩
  · cases x with
    | nil => exact hword (by simpa using hslash)
    | cons d x =>
      obtain ⟨rfl, _⟩ := List.cons.inj hx
      exact hclose (by simp)
  · exact hword (List.mem_append_left _ hslash)

theorem Substituted.exists_kept {rest out : List Char} (hword : '/' ∉ word) (hslash : '/' ∈ path)
    (hclose : '\x7d' ∉ path) (h : Substituted [(phrase, path)] rest (word ++ '\x7d' :: out)) :
    ∃ c before more, rest = c :: before ∧ word ++ '\x7d' :: out = c :: more ∧
      Substituted [(phrase, path)] before more := by
  rcases h.first_step with ⟨_, hout⟩ | ⟨_, _, _, more, mem, _, hout, _⟩ |
    ⟨c, before, more, _, hrest, hout, htail⟩
  · simp at hout
  · cases List.mem_singleton.mp mem
    exact absurd hout (append_close_ne hword hslash hclose)
  · exact ⟨c, before, more, hrest, hout, htail⟩

/-- What closes a brace behind a text without slash was there before a path was
put in. -/
theorem Substituted.of_closing {rest out : List Char} (hword : '/' ∉ word) (hslash : '/' ∈ path)
    (hclose : '\x7d' ∉ path) (h : Substituted [(phrase, path)] rest (word ++ '\x7d' :: out)) :
    ∃ before, rest = word ++ '\x7d' :: before ∧ Substituted [(phrase, path)] before out := by
  induction word generalizing rest with
  | nil =>
    obtain ⟨c, before, more, rfl, hout, htail⟩ := h.exists_kept hword hslash hclose
    cases hout
    exact ⟨before, rfl, htail⟩
  | cons d word ih =>
    obtain ⟨c, before, more, rfl, hout, htail⟩ := h.exists_kept hword hslash hclose
    rw [List.cons_append] at hout
    obtain ⟨rfl, rfl⟩ := List.cons.inj hout
    obtain ⟨start, rfl, hstart⟩ := ih (fun hmem => hword (List.mem_cons_of_mem _ hmem)) htail
    exact ⟨start, rfl, hstart⟩

/-- A placeholder of the text is still there after the first pass, which opens
nothing inside it. -/
theorem Substituted.begins_of_begins {c : Char} {rest more : List Char}
    (hphrase : IsPlaceholder phrase) (hword : '\x7b' ∉ word)
    (h : Substituted [(phrase, path)] rest more)
    (hbegins : '\x7b' :: (word ++ ['\x7d']) <+: c :: rest) :
    '\x7b' :: (word ++ ['\x7d']) <+: c :: more := by
  obtain ⟨later, hlater⟩ := hbegins
  rw [List.cons_append] at hlater
  obtain ⟨rfl, rfl⟩ := List.cons.inj hlater
  have hopen : '\x7b' ∉ word ++ ['\x7d'] := by simp [hword]
  obtain ⟨kept, rfl, _⟩ := of_append (by simpa using hphrase) hopen h
  exact ⟨kept, rfl⟩

/-- A pass that puts in a path and then a pass that puts in a name are one pass
that puts in both. -/
theorem Substituted.comp (word : List Char) {name text between out : List Char}
    (hphrase : IsPlaceholder phrase) (hwordOpen : '\x7b' ∉ word) (hwordClose : '\x7d' ∉ word)
    (hwordSlash : '/' ∉ word) (hslash : '/' ∈ path) (hopen : '\x7b' ∉ path)
    (hclose : '\x7d' ∉ path) (hfirst : Substituted [(phrase, path)] text between)
    (hsecond : Substituted [('\x7b' :: (word ++ ['\x7d']), name)] between out) :
    Substituted [(phrase, path), ('\x7b' :: (word ++ ['\x7d']), name)] text out := by
  have hword : IsPlaceholder ('\x7b' :: (word ++ ['\x7d'])) :=
    ⟨word, rfl, hwordOpen, hwordClose⟩
  have htable : ∀ e ∈ [('\x7b' :: (word ++ ['\x7d']), name)], IsPlaceholder e.1 := by
    simpa using hword
  -- A name put in takes several characters at once, so the induction is on the length.
  induction hn : text.length using Nat.strongRecOn generalizing text between out with
  | ind n ih =>
    rcases hfirst.first_step with ⟨rfl, rfl⟩ | ⟨_, _, rest, more, mem, rfl, rfl, htail⟩ |
      ⟨c, rest, more, free, rfl, rfl, htail⟩
    · rw [eq_nil htable hsecond]
      exact .nil
    · cases List.mem_singleton.mp mem
      obtain ⟨later, rfl, hlater⟩ := of_append htable hopen hsecond
      obtain ⟨body, rfl, _⟩ := hphrase.exists_cons
      refine .phrase List.mem_cons_self (ih rest.length ?_ htail hlater rfl)
      simp only [List.length_append, List.length_cons] at hn
      omega
    · rcases hsecond.first_step with ⟨hnil, _⟩ | ⟨_, _, after, later, mem, htext, rfl, hlater⟩ |
        ⟨_, _, later, free', htext, rfl, hlater⟩
      · cases hnil
      · cases List.mem_singleton.mp mem
        rw [List.cons_append, List.append_assoc] at htext
        obtain ⟨rfl, rfl⟩ := List.cons.inj htext
        obtain ⟨before, rfl, hbefore⟩ := htail.of_closing hwordSlash hslash hclose
        have htext : '\x7b' :: (word ++ '\x7d' :: before)
            = '\x7b' :: (word ++ ['\x7d']) ++ before := by simp
        rw [htext]
        refine .phrase (by simp) (ih before.length ?_ hbefore hlater rfl)
        simp only [List.length_append, List.length_cons] at hn
        omega
      · cases htext
        refine .keep ?_ (ih rest.length ?_ htail hlater rfl)
        · have hpath := free _ (List.mem_singleton_self _)
          have hname := free' _ (List.mem_singleton_self _)
          simp only [List.mem_cons, List.not_mem_nil, or_false, forall_eq_or_imp, forall_eq]
          exact ⟨hpath, fun hbegins => hname (htail.begins_of_begins hphrase hwordOpen hbegins)⟩
        · rw [List.length_cons] at hn
          omega

end

end Text

namespace Program

open Text

/-! ## Arguments -/

/-- What the placeholders of an argument give way to. -/
def placeholders (path name : String) : List (List Char × List Char) :=
  [(pathPlaceholder.toList, path.toList), (namePlaceholder.toList, name.toList)]

theorem isPlaceholder_path : IsPlaceholder pathPlaceholder.toList :=
  ⟨['g', 'r', 'a', 'm', 'm', 'a', 'r'], rfl, by decide, by decide⟩

theorem isPlaceholder_name : IsPlaceholder namePlaceholder.toList :=
  ⟨['n', 'a', 'm', 'e'], rfl, by decide, by decide⟩

theorem isPlaceholder_of_mem (path name : String) :
    ∀ e ∈ placeholders path name, IsPlaceholder e.1 := by
  simp only [placeholders, List.mem_cons, List.not_mem_nil, or_false, forall_eq_or_imp, forall_eq]
  exact ⟨isPlaceholder_path, isPlaceholder_name⟩

theorem asksForPath_iff (argument : String) :
    asksForPath argument = true ↔ pathPlaceholder.toList <:+: argument.toList :=
  contains_iff _ _

section
variable {path : String} (hslash : '/' ∈ path.toList) (hopen : '\x7b' ∉ path.toList)
  (hclose : '\x7d' ∉ path.toList)
include hslash hopen hclose

/-- An argument is filled in in one pass. -/
theorem substituted_fillArgument (name argument : String) :
    Substituted (placeholders path name) argument.toList
      (fillArgument path name argument).toList := by
  have hfirst := substituted_replaceAll pathPlaceholder (by decide) path argument
  have hsecond := substituted_replaceAll namePlaceholder (by decide) name
    (replaceAll pathPlaceholder path argument)
  exact Substituted.comp ['n', 'a', 'm', 'e'] isPlaceholder_path (by decide) (by decide)
    (by decide) hslash hopen hclose hfirst hsecond

theorem eq_fillArgument {name argument out : String}
    (h : Substituted (placeholders path name) argument.toList out.toList) :
    out = fillArgument path name argument := by
  have hdistinct : ((placeholders path name).map Prod.fst).Nodup := by
    show [pathPlaceholder.toList, namePlaceholder.toList].Nodup
    decide
  exact String.toList_injective (Substituted.unique (isPlaceholder_of_mem path name) hdistinct h
    (substituted_fillArgument hslash hopen hclose name argument))

/-- Wherever a placeholder stands in an argument, it gives way. -/
theorem fillArgument_around {name phrase replacement : String}
    (mem : (phrase.toList, replacement.toList) ∈ placeholders path name) (before after : String) :
    fillArgument path name (before ++ phrase ++ after)
      = fillArgument path name before ++ replacement ++ fillArgument path name after := by
  have haround := Substituted.around (isPlaceholder_of_mem path name) mem
    (substituted_fillArgument hslash hopen hclose name before)
    (substituted_fillArgument hslash hopen hclose name after)
  refine (eq_fillArgument hslash hopen hclose ?_).symm
  simpa only [String.toList_append, List.append_assoc] using haround

theorem forall₂_substituted_iff {name : String} {args filled : List String} :
    List.Forall₂ (fun argument out =>
        Substituted (placeholders path name) argument.toList out.toList) args filled ↔
      filled = args.map (fillArgument path name) := by
  induction args generalizing filled with
  | nil => rw [List.forall₂_nil_left_iff, List.map_nil]
  | cons argument rest ih =>
    rw [List.forall₂_cons_left_iff, List.map_cons]
    constructor
    · intro h
      obtain ⟨out, others, hout, hothers, rfl⟩ := h
      rw [eq_fillArgument hslash hopen hclose hout, ih.mp hothers]
    · intro h
      exact ⟨_, _, substituted_fillArgument hslash hopen hclose name argument, ih.mpr rfl, h⟩

/-- Some argument holds the path. -/
theorem exists_holding_path (name : String) (args : List String) :
    ∃ argument ∈ expandArgs path name args, path.toList <:+: argument.toList := by
  by_cases hasks : args.any asksForPath = true
  · obtain ⟨argument, hmem, hargument⟩ := List.any_eq_true.mp hasks
    obtain ⟨before, after, hsplit⟩ := (asksForPath_iff argument).mp hargument
    have hargument : argument
        = String.ofList before ++ pathPlaceholder ++ String.ofList after := by
      apply String.toList_injective
      rw [String.toList_append, String.toList_append, String.toList_ofList (l := before),
        String.toList_ofList (l := after), hsplit]
    refine ⟨fillArgument path name argument,
      List.mem_append_left _ (List.mem_map_of_mem hmem), ?_⟩
    rw [hargument, fillArgument_around hslash hopen hclose List.mem_cons_self, String.toList_append,
      String.toList_append]
    exact List.infix_append _ _ _
  · refine ⟨path, List.mem_append_right _ ?_, List.infix_rfl⟩
    rw [if_neg hasks]
    exact List.mem_singleton_self _

end

/-- Under a path that holds a slash and no brace, the arguments come out filled
in, each in one pass over the argument as it was given, and the path follows
them just if no argument asks for it. Wherever a placeholder stands, it gives
way to the path or the name, and some argument holds the path. -/
theorem expandArgs_simultaneous (path name : String) (args : List String)
    (hslash : '/' ∈ path.toList) (hopen : '\x7b' ∉ path.toList) (hclose : '\x7d' ∉ path.toList) :
    (∀ result, expandArgs path name args = result ↔
      ∃ filled, List.Forall₂ (fun argument out =>
          Substituted (placeholders path name) argument.toList out.toList) args filled ∧
        ((∃ argument ∈ args, pathPlaceholder.toList <:+: argument.toList) ∧ result = filled ∨
          (∀ argument ∈ args, ¬ pathPlaceholder.toList <:+: argument.toList) ∧
            result = filled ++ [path])) ∧
    (∀ before after, fillArgument path name (before ++ pathPlaceholder ++ after)
      = fillArgument path name before ++ path ++ fillArgument path name after) ∧
    (∀ before after, fillArgument path name (before ++ namePlaceholder ++ after)
      = fillArgument path name before ++ name ++ fillArgument path name after) ∧
    ∃ argument ∈ expandArgs path name args, path.toList <:+: argument.toList := by
  refine ⟨fun result => ?_, fillArgument_around hslash hopen hclose List.mem_cons_self,
    fillArgument_around hslash hopen hclose (List.mem_cons_of_mem _ List.mem_cons_self),
    exists_holding_path hslash hopen hclose name args⟩
  simp only [forall₂_substituted_iff hslash hopen hclose, exists_eq_left, ← asksForPath_iff]
  by_cases hasks : ∃ argument ∈ args, asksForPath argument = true
  · have hexpand : expandArgs path name args = args.map (fillArgument path name) := by
      rw [expandArgs, if_pos (List.any_eq_true.mpr hasks), List.append_nil]
    have hnone : ¬ ∀ argument ∈ args, ¬ asksForPath argument = true := by
      obtain ⟨argument, hmem, hargument⟩ := hasks
      exact fun hnone => hnone argument hmem hargument
    rw [hexpand]
    simp only [hasks, hnone, true_and, false_and, or_false]
    exact eq_comm
  · have hexpand : expandArgs path name args = args.map (fillArgument path name) ++ [path] := by
      rw [expandArgs, if_neg fun hany => hasks (List.any_eq_true.mp hany)]
    have hnone : ∀ argument ∈ args, ¬ asksForPath argument = true :=
      fun argument hmem hargument => hasks ⟨argument, hmem, hargument⟩
    rw [hexpand]
    simp only [hasks, false_and, false_or]
    exact ⟨fun hresult => ⟨hnone, hresult.symm⟩, fun hresult => hresult.2.symm⟩

/-- Arguments in which the pieces of one placeholder stand around the other. -/
def splitArgs : List String := ["\x7bname\x7d", "\x7bna\x7bgrammar\x7dme\x7d"]

theorem splitArgs_simultaneous :
    expandArgs "/tmp/g" "\x7bgrammar\x7d" splitArgs = ["\x7bgrammar\x7d", "\x7bna/tmp/gme\x7d"] ∧
      List.Forall₂ (fun argument out =>
          Substituted (placeholders "/tmp/g" "\x7bgrammar\x7d") argument.toList out.toList)
        splitArgs ["\x7bgrammar\x7d", "\x7bna/tmp/gme\x7d"] ∧
      ∃ argument ∈ ["\x7bgrammar\x7d", "\x7bna/tmp/gme\x7d"],
        "/tmp/g".toList <:+: argument.toList := by
  have hresult : expandArgs "/tmp/g" "\x7bgrammar\x7d" splitArgs
      = ["\x7bgrammar\x7d", "\x7bna/tmp/gme\x7d"] := by decide
  obtain ⟨hpass, _, _, hpath⟩ := expandArgs_simultaneous "/tmp/g" "\x7bgrammar\x7d" splitArgs
    (by decide) (by decide) (by decide)
  rw [hresult] at hpath
  obtain ⟨filled, hfilled, ⟨_, rfl⟩ | ⟨hnone, _⟩⟩ := (hpass _).mp hresult
  · exact ⟨hresult, hfilled, hpath⟩
  · have hasks : asksForPath "\x7bna\x7bgrammar\x7dme\x7d" = true := by decide
    exact absurd ((asksForPath_iff _).mp hasks)
      (hnone _ (List.mem_cons_of_mem _ List.mem_cons_self))

end Program

end TreeSchema
