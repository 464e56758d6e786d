import TreeSchema.Proofs.GrammarForm
import TreeSchema.Proofs.Termination
/-
  Grammars under any name

  The name of a grammar is written into its text as it is, and may hold
  anything: directives, quote marks, the beginning of a comment. Still the
  text of a compiled schema is either refused or read with the rules that
  were written, whatever the name is (`Schema.compileGrammar_of_read`).

  A token lies on one line, so that only a comment can lead from the name
  into the lines after it (`scan_append_feed`). Slashes stand there only
  inside quoted strings, so the comment would end inside one. What follows is
  scanned from within the string, up to the closing quote mark, which opens a
  string that does not end on its line; or another comment begins, of which
  the same is true (`unscannable_encode`).
-/

namespace TreeSchema

namespace Grammar

open Quoted (encode encodeChar)

/-! ## Comments that reach into the text -/

/-- No scan of the text comes to its end. -/
def Unscannable (text : List Char) : Prop := ∀ line stream, scan line text ≠ .ok stream

/-- Whatever comes after a comment that ends in the text cannot be scanned. -/
def Swallowed (text : List Char) : Prop :=
  ∀ feeds after, skipComment text = some (feeds, after) → Unscannable after

theorem swallowed_nil : Swallowed [] := by
  intro feeds after h
  cases h

theorem Swallowed.cons {c : Char} {text : List Char} (h : Swallowed text)
    (hc : ¬(c = '*' ∧ text.head? = some '/')) : Swallowed (c :: text) := by
  intro feeds after hskip
  rw [skipComment_cons hc] at hskip
  obtain ⟨⟨earlier, rest⟩, hrest, hpair⟩ := Option.map_eq_some_iff.mp hskip
  cases hpair
  exact h _ _ hrest

/-- A comment goes on through text without slashes. -/
theorem Swallowed.append {plain text : List Char} (h : Swallowed text) (hplain : '/' ∉ plain)
    (htext : text.head? ≠ some '/') : Swallowed (plain ++ text) := by
  induction plain with
  | nil => exact h
  | cons c plain ih =>
    rw [List.mem_cons, not_or] at hplain
    refine (ih hplain.2).cons ?_
    rintro ⟨_, hhead⟩
    cases plain with
    | nil => exact htext hhead
    | cons d plain =>
      rw [List.cons_append, List.head?_cons] at hhead
      exact hplain.2 (Option.some.inj hhead ▸ List.mem_cons_self)

/-! ## Tokens -/

namespace Token

theorem exists_decode_of_read {text after : List Char} {token : Token}
    (h : Token.read '"' text = .ok (token, after)) :
    ∃ value, Quoted.decode text = .ok (value, after) := by
  have hstring : readString text = .ok (token, after) := h
  unfold readString at hstring
  split at hstring
  · next value rest hdecode =>
    cases hstring
    exact ⟨value, hdecode⟩
  · cases hstring
  · cases hstring

/-- A character that ends no string and no line, and escapes no other. -/
def IsPlain (c : Char) : Prop := c ≠ '"' ∧ c ≠ '\\' ∧ c ≠ '\n'

theorem isPlain_of_isIdentifierChar {c : Char} (h : isIdentifierChar c = true) : IsPlain c := by
  refine ⟨?_, ?_, ?_⟩
  all_goals
    rintro rfl
    exact absurd h (by decide)

theorem isPlain_of_bracket {c : Char} {b : Bracket} (h : Bracket.ofChar? c = some b) :
    IsPlain c := by
  refine ⟨?_, ?_, ?_⟩
  all_goals
    rintro rfl
    cases h

section
variable {P : List Char → Prop} (hP : ∀ d tail, IsPlain d → P (d :: tail) → P tail)
include hP

theorem dropWhile_within {p : Char → Bool} (hp : ∀ d, p d = true → IsPlain d) {text : List Char}
    (htext : P text) : P (text.dropWhile p) := by
  induction text with
  | nil => exact htext
  | cons d text ih =>
    cases hd : p d with
    | true =>
      rw [List.dropWhile_cons_of_pos hd]
      exact ih (hP d text (hp d hd) htext)
    | false =>
      rw [List.dropWhile_cons_of_neg (by rw [hd]; decide)]
      exact htext

/-- A token that is no string takes plain characters only, so it stays within
any part of the text that ends with another. -/
theorem read_within {c : Char} {text after : List Char} {token : Token} (hc : c ≠ '"')
    (h : Token.read c text = .ok (token, after)) (htext : P text) : P after := by
  unfold Token.read at h
  rw [if_neg hc] at h
  split at h
  · unfold readPercent at h
    split at h
    · cases h
      exact hP '%' _ ⟨by decide, by decide, by decide⟩ htext
    · cases h
      refine dropWhile_within hP (fun d hd => ?_) htext
      exact isPlain_of_isIdentifierChar (isIdentifierChar_of_isLetter hd)
  · split at h
    · unfold readBracket at h
      split at h
      · next d rest =>
        split at h
        · next hb =>
          cases h
          exact hP '\'' _ ⟨by decide, by decide, by decide⟩ (hP d _ (isPlain_of_bracket hb) htext)
        · cases h
      · cases h
    · split at h
      · cases h
        exact htext
      · split at h
        · cases h
          exact dropWhile_within hP (fun _ => isPlain_of_isIdentifierChar) htext
        · cases h

end

end Token

/-! ## Scanning from within a string -/

theorem unscannable_blank {c : Char} {text : List Char} (hblank : Text.isBlank c = true)
    (h : Unscannable text) : Unscannable (c :: text) := by
  intro line stream hscan
  by_cases hfeed : c = '\n'
  · rw [hfeed, scan_feed] at hscan
    exact h _ _ hscan
  · rw [scan_blank hblank hfeed] at hscan
    exact h _ _ hscan

theorem unscannable_comment {text : List Char} (h : Swallowed text) :
    Unscannable ('/' :: '*' :: text) := by
  intro line stream hscan
  rw [scan, if_neg (by decide), if_neg (by decide), if_pos ⟨rfl, rfl⟩] at hscan
  split at hscan
  · cases hscan
  · next hskip => exact h _ _ hskip _ _ hscan

theorem unscannable_token {c : Char} {text : List Char} (hblank : Text.isBlank c = false)
    (hcomment : ¬(c = '/' ∧ text.head? = some '*'))
    (h : ∀ token after, Token.read c text = .ok (token, after) → Unscannable after) :
    Unscannable (c :: text) := by
  intro line stream hscan
  have hfeed : c ≠ '\n' := by
    rintro rfl
    cases hblank
  rw [scan, if_neg hfeed, if_neg (by rw [hblank]; decide), if_neg hcomment] at hscan
  split at hscan
  · cases hscan
  · next hread =>
    obtain ⟨later, hlater, _⟩ := bind_eq_ok_iff.mp hscan
    exact h _ _ hread _ _ hlater

/-- What stands for a character between quotes begins with a backslash, or is
the character itself. -/
theorem encodeChar_cases (c : Char) :
    (∃ d, encodeChar c = ['\\', d] ∧ d ≠ '*' ∧ d ≠ '/') ∨
      (encodeChar c = [c] ∧ c ≠ '"' ∧ c ≠ '\\' ∧ c ≠ '\n') := by
  unfold encodeChar
  by_cases hquote : c = '"'
  · exact Or.inl ⟨'"', by rw [if_pos hquote], by decide, by decide⟩
  · by_cases hslash : c = '\\'
    · exact Or.inl ⟨'\\', by rw [if_neg hquote, if_pos hslash], by decide, by decide⟩
    · by_cases hfeed : c = '\n'
      · exact Or.inl ⟨'n', by rw [if_neg hquote, if_neg hslash, if_pos hfeed], by decide, by decide⟩
      · by_cases htab : c = '\t'
        · refine Or.inl ⟨'t', ?_, by decide, by decide⟩
          rw [if_neg hquote, if_neg hslash, if_neg hfeed, if_pos htab]
        · refine Or.inr ⟨?_, hquote, hslash, hfeed⟩
          rw [if_neg hquote, if_neg hslash, if_neg hfeed, if_neg htab]

theorem encode_cons (c : Char) (value : List Char) :
    encode (c :: value) = encodeChar c ++ encode value := rfl

/-- A character of the quoted text that needs no backslash is one of the
string. -/
theorem encode_eq_cons {value rest tail : List Char} {d : Char} (hquote : d ≠ '"')
    (hslash : d ≠ '\\') (h : encode value ++ '"' :: rest = d :: tail) :
    ∃ more, value = d :: more ∧ tail = encode more ++ '"' :: rest := by
  cases value with
  | nil => exact absurd (List.cons.inj h).1.symm hquote
  | cons c more =>
    rw [encode_cons] at h
    rcases encodeChar_cases c with ⟨e, hchar, _⟩ | ⟨hchar, _⟩
    · rw [hchar] at h
      exact absurd (List.cons.inj h).1.symm hslash
    · rw [hchar] at h
      obtain ⟨rfl, rfl⟩ := List.cons.inj h
      exact ⟨more, rfl, rfl⟩

/-- A token that begins within a string and is no string itself ends
there. -/
theorem read_encode {c : Char} {value rest after : List Char} {token : Token} (hc : c ≠ '"')
    (h : Token.read c (encode value ++ '"' :: rest) = .ok (token, after)) :
    ∃ more, more.length ≤ value.length ∧ after = encode more ++ '"' :: rest := by
  refine Token.read_within
    (P := fun text => ∃ more, more.length ≤ value.length ∧ text = encode more ++ '"' :: rest)
    ?_ hc h ⟨value, Nat.le_refl _, rfl⟩
  rintro d tail ⟨hquote, hslash, _⟩ ⟨more, hlength, htext⟩
  obtain ⟨last, rfl, rfl⟩ := encode_eq_cons hquote hslash htext.symm
  exact ⟨last, Nat.le_of_succ_le hlength, rfl⟩

theorem unscannable_backslash (text : List Char) : Unscannable ('\\' :: text) := by
  refine unscannable_token (by decide) (fun h => absurd h.1 (by decide)) ?_
  intro token after hread
  cases hread

/-- From within a string no scan comes to the end, if none does from its
closing quote mark on. -/
theorem unscannable_encode {rest : List Char} (hopen : Unscannable ('"' :: rest))
    (hswallowed : Swallowed ('"' :: rest)) (value : List Char) :
    Unscannable (encode value ++ '"' :: rest) ∧ Swallowed (encode value ++ '"' :: rest) := by
  -- A comment may pass over several characters, so the induction is on the length.
  induction hlength : value.length using Nat.strong_induction_on generalizing value with
  | _ n ih =>
    subst hlength
    cases value with
    | nil => exact ⟨hopen, hswallowed⟩
    | cons c more =>
      have hmore := ih more.length (Nat.lt_succ_self _) more rfl
      rw [encode_cons, List.append_assoc]
      rcases encodeChar_cases c with ⟨d, hchar, hstar, _⟩ | ⟨hchar, hquote, _, _⟩
      · rw [hchar]
        refine ⟨unscannable_backslash _, ?_⟩
        exact (hmore.2.cons fun h => hstar h.1).cons fun h => absurd h.1 (by decide)
      · rw [hchar, List.singleton_append]
        constructor
        · cases hblank : Text.isBlank c with
          | true => exact unscannable_blank hblank hmore.1
          | false =>
            by_cases hcomment : c = '/' ∧ (encode more ++ '"' :: rest).head? = some '*'
            · obtain ⟨tail, htail⟩ := List.head?_eq_some_iff.mp hcomment.2
              obtain ⟨last, rfl, rfl⟩ := encode_eq_cons (by decide) (by decide) htail
              rw [hcomment.1, htail]
              have hlast := ih last.length (by simp only [List.length_cons]; omega) last rfl
              exact unscannable_comment hlast.2
            · refine unscannable_token hblank hcomment ?_
              intro token after hread
              obtain ⟨last, hle, rfl⟩ := read_encode hquote hread
              exact (ih last.length (Nat.lt_succ_of_le hle) last rfl).1
        · by_cases hends : c = '*' ∧ (encode more ++ '"' :: rest).head? = some '/'
          · obtain ⟨tail, htail⟩ := List.head?_eq_some_iff.mp hends.2
            obtain ⟨last, rfl, rfl⟩ := encode_eq_cons (by decide) (by decide) htail
            rw [hends.1, htail]
            intro feeds after hskip
            cases hskip
            exact (ih last.length (by simp only [List.length_cons]; omega) last rfl).1
          · exact hmore.2.cons hends

/-! ## Lines with one quoted string -/

theorem decode_unclosed {line text : List Char} (hquote : '"' ∉ line) (hslash : '\\' ∉ line)
    (r : List Char × List Char) : Quoted.decode (line ++ '\n' :: text) ≠ .ok r := by
  induction line generalizing r with
  | nil =>
    intro h
    cases h
  | cons c line ih =>
    rw [List.mem_cons, not_or] at hquote hslash
    intro h
    by_cases hfeed : c = '\n'
    · rw [hfeed] at h
      cases h
    · rw [List.cons_append, Quoted.decode_cons (Ne.symm hquote.1) (Ne.symm hslash.1) hfeed] at h
      obtain ⟨rest, hrest, _⟩ := bind_eq_ok_iff.mp h
      exact ih hquote.2 hslash.2 rest hrest

/-- A string that does not end on its line. -/
theorem unscannable_unclosed {line text : List Char} (hquote : '"' ∉ line) (hslash : '\\' ∉ line) :
    Unscannable ('"' :: (line ++ '\n' :: text)) := by
  refine unscannable_token (by decide) (fun h => absurd h.1 (by decide)) ?_
  intro token after hread
  obtain ⟨value, hdecode⟩ := Token.exists_decode_of_read hread
  exact absurd hdecode (decode_unclosed hquote hslash _)

/-- A text on which a comment that reaches it does not end, or not so that
the text after it can be scanned. -/
def Shut (text : List Char) : Prop := Swallowed text ∧ text.head? ≠ some '/'

/-- What keeps a text shut when it stands before it. -/
def Conceals (part : List Char) : Prop := ∀ text, Shut text → Shut (part ++ text)

namespace Conceals

theorem of_not_mem {plain : List Char} (h : '/' ∉ plain) : Conceals plain := by
  intro text htext
  refine ⟨htext.1.append h htext.2, ?_⟩
  cases plain with
  | nil => exact htext.2
  | cons c plain =>
    rw [List.cons_append, List.head?_cons]
    rintro ⟨⟩
    exact h List.mem_cons_self

theorem append {part more : List Char} (h : Conceals part) (hmore : Conceals more) :
    Conceals (part ++ more) := by
  intro text htext
  rw [List.append_assoc]
  exact h _ (hmore _ htext)

theorem flatMap {α : Type} {chars : α → List Char} {parts : List α}
    (h : ∀ a ∈ parts, Conceals (chars a)) : Conceals (parts.flatMap chars) := by
  induction parts with
  | nil => exact of_not_mem (by simp)
  | cons a others ih =>
    rw [List.flatMap_cons]
    exact (h a List.mem_cons_self).append (ih fun b hb => h b (List.mem_cons_of_mem a hb))

/-- A quoted string with the rest of its line. -/
theorem quote (value : String) {line : List Char} (hline : '/' ∉ line) (hquote : '"' ∉ line)
    (hslash : '\\' ∉ line) : Conceals (Quoted.quote value ++ (line ++ ['\n'])) := by
  intro text htext
  have hrest : Swallowed ('"' :: (line ++ '\n' :: text)) := by
    have hplain : '/' ∉ '"' :: (line ++ ['\n']) := by simp [hline]
    have hshut := (of_not_mem hplain text htext).1
    rwa [List.cons_append, List.append_assoc, List.singleton_append] at hshut
  have hstring := (unscannable_encode (unscannable_unclosed hquote hslash) hrest value.toList).2
  rw [Quoted.quote]
  simp only [List.append_assoc, List.cons_append, List.nil_append]
  exact ⟨hstring.cons fun h => absurd h.1 (by decide), by simp⟩

theorem rule {r : Rule} (hlhs : '/' ∉ r.lhs.toList)
    (h : ∀ symbols ∈ r.alternatives, Conceals (alternativeChars symbols)) : Conceals r.chars := by
  have hname : Conceals ('\n' :: r.lhs.toList ++ ['\n']) := of_not_mem (by simp [hlhs])
  have hend : Conceals "    ;\n".toList := of_not_mem (by decide)
  have hbody : Conceals (alternativesChars r.alternatives) := by
    cases hall : r.alternatives with
    | nil => exact of_not_mem List.not_mem_nil
    | cons first others =>
      rw [hall] at h
      rw [alternativesChars_cons]
      have hfirst := h first List.mem_cons_self
      have hothers : Conceals
          (others.flatMap fun symbols => "    |".toList ++ alternativeChars symbols) :=
        flatMap fun symbols hs =>
          (of_not_mem (by decide)).append (h symbols (List.mem_cons_of_mem first hs))
      exact ((of_not_mem (by decide)).append hfirst).append hothers
  have hall := (hname.append hbody).append hend
  rw [List.append_assoc ('\n' :: r.lhs.toList), List.singleton_append] at hall
  exact hall

end Conceals

/-! ## The line of the name -/

section
variable {name text after : List Char}

/-- A comment ends before the line does, or reaches into the text after it. -/
theorem skipComment_append_feed {feeds : Nat}
    (h : skipComment (name ++ '\n' :: text) = some (feeds, after)) :
    (∃ more, more.length ≤ name.length ∧ after = more ++ '\n' :: text) ∨
      ∃ feeds, skipComment ('\n' :: text) = some (feeds, after) := by
  induction name generalizing feeds with
  | nil => exact Or.inr ⟨feeds, h⟩
  | cons c name ih =>
    by_cases hends : c = '*' ∧ (name ++ '\n' :: text).head? = some '/'
    · obtain ⟨rfl, hhead⟩ := hends
      cases name with
      | nil => cases hhead
      | cons d name =>
        cases hhead
        cases h
        exact Or.inl ⟨name, by simp only [List.length_cons]; omega, rfl⟩
    · rw [List.cons_append, skipComment_cons hends] at h
      obtain ⟨⟨earlier, rest⟩, hrest, hpair⟩ := Option.map_eq_some_iff.mp h
      cases hpair
      rcases ih hrest with ⟨more, hlength, hmore⟩ | hreaches
      · exact Or.inl ⟨more, Nat.le_succ_of_le hlength, hmore⟩
      · exact Or.inr hreaches

/-- A string ends before the line does. -/
theorem decode_append_feed {value : List Char}
    (h : Quoted.decode (name ++ '\n' :: text) = .ok (value, after)) :
    ∃ more, more.length ≤ name.length ∧ after = more ++ '\n' :: text := by
  -- A backslash takes the next character with it, so the induction is on the length.
  induction hlength : name.length using Nat.strong_induction_on generalizing name value with
  | _ n ih =>
    subst hlength
    cases name with
    | nil => cases h
    | cons c name =>
      have hlater : ∀ {last value}, last.length ≤ name.length →
          Quoted.decode (last ++ '\n' :: text) = .ok (value, after) →
          ∃ more, more.length ≤ (c :: name).length ∧ after = more ++ '\n' :: text := by
        intro last value hle hdecode
        obtain ⟨more, hmore, hafter⟩ := ih last.length (Nat.lt_succ_of_le hle) hdecode rfl
        exact ⟨more, Nat.le_succ_of_le (Nat.le_trans hmore hle), hafter⟩
      by_cases hquote : c = '"'
      · subst hquote
        cases h
        exact ⟨name, Nat.le_succ _, rfl⟩
      · by_cases hfeed : c = '\n'
        · subst hfeed
          cases h
        · by_cases hslash : c = '\\'
          · subst hslash
            cases name with
            | nil => cases h
            | cons d name =>
              cases hd : Quoted.unescape? d with
              | none =>
                rw [List.cons_append, List.cons_append, Quoted.decode, hd] at h
                cases h
              | some e =>
                rw [List.cons_append, List.cons_append, Quoted.decode_escape hd] at h
                obtain ⟨⟨_, rest⟩, hrest, hpair⟩ := bind_eq_ok_iff.mp h
                cases hpair
                exact hlater (Nat.le_succ _) hrest
          · rw [List.cons_append, Quoted.decode_cons hquote hslash hfeed] at h
            obtain ⟨⟨_, rest⟩, hrest, hpair⟩ := bind_eq_ok_iff.mp h
            cases hpair
            exact hlater (Nat.le_refl _) hrest

/-- A token ends before the line does. -/
theorem read_append_feed {c : Char} {token : Token}
    (h : Token.read c (name ++ '\n' :: text) = .ok (token, after)) :
    ∃ more, more.length ≤ name.length ∧ after = more ++ '\n' :: text := by
  by_cases hc : c = '"'
  · subst hc
    obtain ⟨value, hdecode⟩ := Token.exists_decode_of_read h
    exact decode_append_feed hdecode
  · refine Token.read_within
      (P := fun rest => ∃ more, more.length ≤ name.length ∧ rest = more ++ '\n' :: text)
      ?_ hc h ⟨name, Nat.le_refl _, rfl⟩
    rintro d tail ⟨_, _, hfeed⟩ ⟨more, hlength, htail⟩
    cases more with
    | nil => exact absurd (List.cons.inj htail).1 hfeed
    | cons e more =>
      obtain ⟨rfl, rfl⟩ := List.cons.inj htail
      exact ⟨more, Nat.le_of_succ_le hlength, rfl⟩

/-- Whatever the name is, the lines after it are scanned from their
beginning. -/
theorem scan_append_feed (htext : Swallowed ('\n' :: text)) {line : UInt32} {stream : TokenStream}
    (h : scan line (name ++ '\n' :: text) = .ok stream) :
    ∃ (earlier : List LineToken) (next : UInt32) (later : TokenStream),
      scan next ('\n' :: text) = .ok later ∧ stream.tokens = earlier ++ later.tokens := by
  induction hlength : name.length using Nat.strong_induction_on
    generalizing name line stream with
  | _ n ih =>
    subst hlength
    cases name with
    | nil => exact ⟨[], line, stream, h, rfl⟩
    | cons c name =>
      rw [List.cons_append, scan] at h
      by_cases hfeed : c = '\n'
      · rw [if_pos hfeed] at h
        exact ih name.length (Nat.lt_succ_self _) h rfl
      · rw [if_neg hfeed] at h
        cases hblank : Text.isBlank c with
        | true =>
          rw [if_pos hblank] at h
          exact ih name.length (Nat.lt_succ_self _) h rfl
        | false =>
          rw [if_neg (by rw [hblank]; decide)] at h
          by_cases hcomment : c = '/' ∧ (name ++ '\n' :: text).head? = some '*'
          · rw [if_pos hcomment] at h
            split at h
            · cases h
            · next feeds after hskip =>
              cases name with
              | nil => cases hcomment.2
              | cons d name =>
                rcases skipComment_append_feed hskip with ⟨more, hle, rfl⟩ | ⟨_, hreaches⟩
                · exact ih more.length (by simp only [List.length_cons]; omega) h rfl
                · exact absurd h (htext _ _ hreaches _ _)
          · rw [if_neg hcomment] at h
            split at h
            · cases h
            · next token after hread =>
              obtain ⟨rest, hrest, hstream⟩ := bind_eq_ok_iff.mp h
              cases hstream
              obtain ⟨more, hle, rfl⟩ := read_append_feed hread
              obtain ⟨earlier, next, later, hlater, htokens⟩ :=
                ih more.length (Nat.lt_succ_of_le hle) hrest rfl
              refine ⟨{ token, line } :: earlier, next, later, hlater, ?_⟩
              rw [htokens]
              rfl

end

/-! ## The tokens after the name -/

theorem separator_notMem_symbol (s : Symbol) : Token.separator ∉ s.words := by
  induction s with
  | terminal t =>
    cases t with
    | key name => cases name <;> simp [Symbol.words, Terminal.words]
    | _ => simp [Symbol.words, Terminal.words]
  | nonterminal name => simp [Symbol.words]
  | repeated inner ih => simp [Symbol.words, ih]

theorem separator_notMem_rules (rules : List Rule) :
    Token.separator ∉ rules.flatMap Rule.words := by
  have halternative : ∀ symbols, Token.separator ∉ alternativeWords symbols := by
    simp [alternativeWords, separator_notMem_symbol]
  intro hmem
  obtain ⟨⟨lhs, alternatives⟩, _, hmem⟩ := List.mem_flatMap.mp hmem
  cases alternatives with
  | nil => simp [Rule.words] at hmem
  | cons first others => simp [Rule.words, othersWords, halternative] at hmem

theorem separator_notMem_directives (ds : List Directive) :
    Token.separator ∉ ds.flatMap Directive.words := by
  intro hmem
  obtain ⟨d, _, hmem⟩ := List.mem_flatMap.mp hmem
  cases d <;> simp [Directive.words] at hmem

/-- The last directive gives the start symbol, if it is one for it. -/
theorem givenBy_start {ds : List Directive} {earlier : List Token} {start : String}
    (h : ds.flatMap Directive.words = earlier ++ (Directive.start start).words) :
    (Reader.givenBy ds).start = some start := by
  rcases List.eq_nil_or_concat ds with rfl | ⟨others, d, rfl⟩
  · simp [Directive.words] at h
  · rw [List.concat_eq_append, List.flatMap_append, List.flatMap_singleton] at h
    have hlast : d.words = (Directive.start start).words :=
      (List.append_inj' h (by cases d <;> rfl)).2
    rw [List.concat_eq_append, Reader.givenBy_append]
    cases d with
    | name value => simp [Directive.words] at hlast
    | start value =>
      cases hlast
      rfl

/-- The lines of a grammar after that with its name. -/
def bodyChars (g : Grammar) : List Char :=
  "%start ".toList ++ g.start.toList ++ "\n\n%%\n".toList ++ g.rules.flatMap Rule.chars

theorem spells_body {g : Grammar} (hstart : isIdentifier g.start = true)
    (hrules : ∀ r ∈ g.rules, r.WellFormed) :
    Spells g.bodyChars
      ((Directive.start g.start).words ++ .separator :: g.rules.flatMap Rule.words) := by
  have hfeed : ∀ text, Boundary ('\n' :: text) := boundary_blank (Or.inr rfl)
  obtain ⟨hspells, hbound⟩ := Spells.flatMap (fun r hr => spells_rule (hrules r hr))
  have hseparator : Spells "\n\n%%\n".toList [.separator] :=
    .blank (by decide) (.blank (by decide)
      (Spells.cons (t := .separator) trivial (.blank (by decide) .nil) (hfeed [])))
  have hstarts := Spells.cons (t := .identifier g.start) hstart
    (hseparator.append hspells hbound) (hfeed _)
  have hdirective := Spells.cons (t := .directive "start") (by decide)
    (.blank (c := ' ') (by decide) hstarts) (boundary_blank (Or.inl rfl) _)
  have hchars : g.bodyChars = (Token.directive "start").chars ++ ' ' ::
      ((Token.identifier g.start).chars ++
        ("\n\n%%\n".toList ++ g.rules.flatMap Rule.chars)) := by
    unfold bodyChars
    rw [List.append_assoc, List.append_assoc]
    rfl
  rw [hchars]
  exact hdirective

theorem conceals_body {g : Grammar} (hstart : isIdentifier g.start = true)
    (hrules : ∀ r ∈ g.rules, Conceals r.chars) : Conceals g.bodyChars := by
  have hname : '/' ∉ g.start.toList := fun hmem =>
    absurd ((isIdentifierChar_of_isIdentifier hstart).2 _ hmem) (by decide)
  have hfront : '/' ∉ "%start ".toList ++ g.start.toList ++ "\n\n%%\n".toList := by
    simp [hname]
  exact (Conceals.of_not_mem hfront).append (Conceals.flatMap hrules)

theorem chars_eq_append_body (g : Grammar) :
    g.chars = banner.toList ++ '\n' :: ((Token.directive "grammar").chars
      ++ ((' ' :: g.name.toList) ++ '\n' :: g.bodyChars)) := by
  unfold chars headerChars bodyChars
  rw [List.append_assoc, List.append_assoc, List.append_assoc, List.append_assoc,
    List.append_assoc, List.append_assoc, List.append_assoc]
  rfl

/-- Under any name, a grammar whose lines shut comments out is read back
from its text but for the name, unless it is refused. -/
theorem eq_of_read_text {g g' : Grammar} (hstart : isIdentifier g.start = true)
    (hrules : ∀ r ∈ g.rules, r.WellFormed ∧ Conceals r.chars) (h : read g.text = .ok g') :
    g' = { g with name := g'.name } := by
  obtain ⟨stream, hstream, h⟩ := bind_eq_ok_iff.mp h
  obtain ⟨ds, hgiven, _, hreadable, hwords⟩ := Reader.wordsOf_of_ofTokens h
  -- The directive before the name, and the lines after it.
  have hdirective : Spells (banner.toList ++ '\n' :: (Token.directive "grammar").chars)
      [.directive "grammar"] :=
    spells_banner (.blank (c := '\n') (by decide) (Spells.token (by decide)))
  obtain ⟨scanned, next, _, hscan⟩ := hdirective 1 ((' ' :: g.name.toList) ++ '\n' :: g.bodyChars)
    (boundary_blank (Or.inl rfl) _)
  rw [List.append_assoc, List.cons_append, ← chars_eq_append_body] at hscan
  rw [tokens, text, String.toList_ofList, hscan] at hstream
  obtain ⟨rest, hrest, rfl⟩ := map_eq_ok_iff.mp hstream
  have hbody : Swallowed g.bodyChars := by
    have hshut := conceals_body hstart (fun r hr => (hrules r hr).2) [] ⟨swallowed_nil, by simp⟩
    rw [List.append_nil] at hshut
    exact hshut.1
  obtain ⟨earlier, line, later, hlater, htokens⟩ :=
    scan_append_feed (hbody.cons fun h => absurd h.1 (by decide)) hrest
  obtain ⟨last, _, hlast, hscanLast⟩ := (spells_body hstart (fun r hr => (hrules r hr).1)).blank
    (c := '\n') (by decide) line [] (fun c hc => by cases hc)
  rw [List.append_nil, hlater, scan] at hscanLast
  cases hscanLast
  -- What has been read has one separator, which is that before the rules.
  have hsplit : ds.flatMap Directive.words ++ .separator :: g'.rules.flatMap Rule.words
      = ((scanned ++ earlier).map LineToken.token ++ (Directive.start g.start).words)
        ++ .separator :: g.rules.flatMap Rule.words := by
    rw [← hwords, TokenStream.prepend, Reader.wordsOf, htokens, TokenStream.prepend,
      List.append_nil, List.map_append, List.map_append, hlast, List.map_append]
    simp only [List.append_assoc]
  obtain ⟨hdirectives, _, hsame⟩ := (List.append_cons_inj_of_notMem
    (separator_notMem_directives ds) (separator_notMem_rules g'.rules)).mp hsplit
  have hg' : g'.start = g.start :=
    Option.some.inj (hgiven.symm.trans (givenBy_start hdirectives))
  have hg'rules : g'.rules = g.rules :=
    rules_inj hreadable (fun r hr => (Rule.wellFormed_iff.mp (hrules r hr).1).1) hsame
  rw [← hg', ← hg'rules]

end Grammar

/-! ## Compiled schemas -/

def Symbol.isQuoted : Symbol → Bool
  | terminal (.literal _) | terminal (.key (some _)) => true
  | repeated inner => inner.isQuoted
  | _ => false

/-- What holds no string is written without slashes. -/
theorem Symbol.slash_notMem {s : Symbol} (h : s.WellFormed) (hquoted : s.isQuoted = false) :
    '/' ∉ s.chars := by
  induction s with
  | terminal t =>
    cases t with
    | literal value => cases hquoted
    | key name =>
      cases name with
      | none => decide
      | some name => cases hquoted
    | _ => decide
  | nonterminal name =>
    intro hmem
    exact absurd ((Grammar.isIdentifierChar_of_isIdentifier h.1).2 _ hmem) (by decide)
  | repeated inner ih => simp [chars, ih h.2 hquoted]

namespace Schema

/-- An alternative in the rules of a pattern is a literal, or a key with what
belongs to it, or holds no string. -/
theorem alternative_of_mem_patternRules {ι : Type} {label : ι → String} {lhs : String}
    {p : Pattern ι} {r : Rule} (hr : r ∈ patternRules label lhs p) {symbols : List Symbol}
    (hsymbols : symbols ∈ r.alternatives) :
    (∃ value, symbols = [.terminal (.literal value)]) ∨
      (∃ key name, symbols = [.terminal (.key (some key)), .nonterminal name]) ∨
      ∀ s ∈ symbols, s.isQuoted = false := by
  cases p with
  | anyScalar =>
    cases List.mem_singleton.mp hr
    cases List.mem_singleton.mp hsymbols
    exact Or.inr (Or.inr (by simp [Symbol.isQuoted]))
  | oneOf values =>
    cases List.mem_singleton.mp hr
    obtain ⟨value, _, rfl⟩ := List.mem_map.mp hsymbols
    exact Or.inl ⟨value, rfl⟩
  | array members =>
    rcases List.mem_cons.mp hr with rfl | hr
    · cases List.mem_singleton.mp hsymbols
      refine Or.inr (Or.inr ?_)
      cases members <;> simp [Symbol.isQuoted, itemSymbol]
    · split at hr
      · cases hr
      · cases List.mem_singleton.mp hr
        obtain ⟨m, _, rfl⟩ := List.mem_map.mp hsymbols
        exact Or.inr (Or.inr (by simp [Symbol.isQuoted]))
  | mapping members =>
    rcases List.mem_cons.mp hr with rfl | hr
    · cases List.mem_singleton.mp hsymbols
      exact Or.inr (Or.inr (by simp [Symbol.isQuoted]))
    · cases List.mem_singleton.mp hr
      cases members with
      | nil =>
        cases List.mem_singleton.mp hsymbols
        exact Or.inr (Or.inr (by simp [Symbol.isQuoted]))
      | cons m rest =>
        obtain ⟨k, _, rfl⟩ := List.mem_map.mp hsymbols
        exact Or.inr (Or.inl ⟨k.1, label k.2, rfl⟩)

open Grammar (Conceals Token)

theorem conceals_of_mem_patternRules {ι : Type} {label : ι → String} {lhs : String}
    {p : Pattern ι} {r : Rule} (hr : r ∈ patternRules label lhs p) (h : r.WellFormed) :
    Conceals r.chars := by
  have hlhs : '/' ∉ r.lhs.toList := fun hmem =>
    absurd ((Grammar.isIdentifierChar_of_isIdentifier h.1).2 _ hmem) (by decide)
  refine Conceals.rule hlhs fun symbols hs => ?_
  have hwellFormed := (h.2.2 symbols hs).2
  rcases alternative_of_mem_patternRules hr hs with ⟨value, rfl⟩ | ⟨key, name, rfl⟩ | hplain
  · have hchars : alternativeChars [.terminal (.literal value)]
        = [' '] ++ (Grammar.Quoted.quote value ++ ([] ++ ['\n'])) := by
      rw [alternativeChars, List.flatMap_singleton]
      rfl
    rw [hchars]
    exact (Conceals.of_not_mem (by decide)).append
      (Conceals.quote value (by simp) (by simp) (by simp))
  · have hchars : alternativeChars [.terminal (.key (some key)), .nonterminal name]
        = (' ' :: "KEY(".toList) ++
          (Grammar.Quoted.quote key ++ ((')' :: ' ' :: name.toList) ++ ['\n'])) := by
      rw [alternativeChars, List.flatMap_cons, List.flatMap_singleton, List.append_assoc]
      show ' ' :: (("KEY(".toList ++ Grammar.Quoted.quote key ++ [')']) ++ _) = _
      rw [List.append_assoc, List.append_assoc]
      rfl
    have hname : ∀ c ∈ name.toList, Token.isIdentifierChar c = true :=
      (Grammar.isIdentifierChar_of_isIdentifier (hwellFormed (.nonterminal name) (by simp)).1).2
    have hnone : ∀ c, c ≠ ')' → c ≠ ' ' → Token.isIdentifierChar c = false →
        c ∉ ')' :: ' ' :: name.toList := by
      intro c hclose hspace hc hmem
      simp only [List.mem_cons, hclose, hspace, false_or] at hmem
      rw [hname c hmem] at hc
      cases hc
    rw [hchars]
    refine (Conceals.of_not_mem (by decide)).append (Conceals.quote key ?_ ?_ ?_)
    all_goals exact hnone _ (by decide) (by decide) (by decide)
  · apply Conceals.of_not_mem
    have hsymbols : ∀ s ∈ symbols, '/' ∉ s.chars :=
      fun s hmem => Symbol.slash_notMem (hwellFormed s hmem) (hplain s hmem)
    simpa [alternativeChars] using hsymbols

section
variable {file source text : String} {options : Options}

/-- Whatever the name, the text of a compiled schema is refused, or it is read
as the grammar that the schema compiles to under the name that was read. -/
theorem compileGrammar_of_read {g g' : Grammar} (h : compileGrammar file source options = .ok g)
    (hread : Grammar.read g.text = .ok g') :
    compileGrammar file source { options with name := g'.name } = .ok g' := by
  obtain ⟨s, hs, rfl⟩ := compileGrammar_eq_ok_iff.mp h
  obtain ⟨_, _, _, _, hcloses, hproper⟩ := resolveSource_eq_ok hs
  have hdesc := Resolved.describes_grammar hcloses hproper options.name
  -- The start symbol and the rules are the same under every name.
  obtain ⟨_, hstart, hrules⟩ : (s.grammar "G").WellFormed :=
    Resolved.wellFormed_grammar hcloses hproper (by decide)
  have hstart : Grammar.isIdentifier (s.grammar options.name).start = true := hstart
  have hconceals : ∀ r ∈ (s.grammar options.name).rules, r.WellFormed ∧ Conceals r.chars := by
    intro r hr
    obtain ⟨id, _, hrid⟩ := (hdesc.rules r).mp hr
    exact ⟨hrules r hr, conceals_of_mem_patternRules hrid (hrules r hr)⟩
  have hsame := Grammar.eq_of_read_text hstart hconceals hread
  exact compileGrammar_eq_ok_iff.mpr ⟨s, hs, hsame⟩

/-- Every document has a verdict, under any name that the text is accepted
with. -/
theorem exists_violations {v : Validation.Validator} (h : compile file source options = .ok text)
    (hv : Validation.Validator.ofText text = .ok v) (document : Node) :
    ∃ found, v.violations? document = some found := by
  obtain ⟨g, hg, h⟩ := bind_eq_ok_iff.mp h
  obtain rfl : g.text = text := Except.ok.inj h
  obtain ⟨g', hread, hv⟩ := bind_eq_ok_iff.mp hv
  have hleft := (not_leftRecursive_of_compileGrammar (compileGrammar_of_read hg hread)).1
  rw [← Validation.Validator.grammar_of_ofGrammar hv] at hleft
  obtain ⟨found, hfound⟩ := Validation.Validator.exists_validates hleft document
  exact ⟨found, Validation.Validator.validates_iff.mp hfound⟩

end

end Schema

end TreeSchema
