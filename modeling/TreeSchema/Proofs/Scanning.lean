import TreeSchema.Grammar.Scan
import TreeSchema.Proofs.Steps
/-
  Scanning

  How a token is spelled, and that scanning a spelled token gives it back
  wherever the text after it cannot lengthen it (`scan_chars`). White space
  and comments between tokens are passed over. `Spells` says that a text is
  scanned into certain tokens, whatever follows it, and texts that spell
  tokens can be put after one another.

  Every identifier among scanned tokens is one (`isIdentifier_of_scan`).
-/

namespace TreeSchema.Grammar

/-! ## Quoted strings -/

namespace Quoted

theorem decode_cons {c : Char} (hquote : c ≠ '"') (hslash : c ≠ '\\') (hfeed : c ≠ '\n')
    (text : List Char) :
    decode (c :: text) = decode text >>= fun r => .ok (c :: r.1, r.2) := by
  rw [decode]
  · rfl
  · exact hquote
  · exact hfeed
  · exact fun h _ => hslash h
  · exact fun _ _ h _ => hslash h

theorem decode_escape {c d : Char} (h : unescape? c = some d) (text : List Char) :
    decode ('\\' :: c :: text) = decode text >>= fun r => .ok (d :: r.1, r.2) := by
  rw [decode, h]
  rfl

/-- A character inside the quotes is read back. -/
theorem decode_encodeChar (c : Char) (text : List Char) :
    decode (encodeChar c ++ text) = decode text >>= fun r => .ok (c :: r.1, r.2) := by
  unfold encodeChar
  by_cases hquote : c = '"'
  · rw [if_pos hquote, hquote]
    exact decode_escape rfl text
  · rw [if_neg hquote]
    by_cases hslash : c = '\\'
    · rw [if_pos hslash, hslash]
      exact decode_escape rfl text
    · rw [if_neg hslash]
      by_cases hfeed : c = '\n'
      · rw [if_pos hfeed, hfeed]
        exact decode_escape rfl text
      · rw [if_neg hfeed]
        by_cases htab : c = '\t'
        · rw [if_pos htab, htab]
          exact decode_escape rfl text
        · rw [if_neg htab]
          exact decode_cons hquote hslash hfeed text

/-- Any string is read back from between its quotes. -/
theorem decode_encode (value text : List Char) :
    decode (encode value ++ '"' :: text) = .ok (value, text) := by
  induction value with
  | nil => rw [encode, List.flatMap_nil, List.nil_append, decode]
  | cons c rest ih =>
    rw [encode, List.flatMap_cons, List.append_assoc, decode_encodeChar]
    show decode (encode rest ++ '"' :: text) >>= _ = _
    rw [ih]
    rfl

end Quoted

/-! ## Spelling tokens -/

def isIdentifier (name : String) : Bool :=
  match name.toList with
  | [] => false
  | c :: rest => Token.isIdentifierStart c && rest.all Token.isIdentifierChar

namespace Token

def chars : Token → List Char
  | directive name => '%' :: name.toList
  | separator => ['%', '%']
  | identifier name => name.toList
  | string value => Quoted.quote value
  | bracket b => ['\'', b.char, '\'']
  | colon => [':']
  | bar => ['|']
  | semicolon => [';']
  | star => ['*']
  | openParen => ['(']
  | closeParen => [')']

/-- The names in a token are such as can be scanned. -/
def Valid : Token → Prop
  | directive name => ∀ c ∈ name.toList, isLetter c = true
  | identifier name => isIdentifier name = true
  | _ => True

instance : DecidablePred Valid
  | directive name => List.decidableBAll (fun c => isLetter c = true) name.toList
  | identifier name => inferInstanceAs (Decidable (isIdentifier name = true))
  | separator | string _ | bracket _ | colon | bar | semicolon | star | openParen | closeParen =>
    .isTrue trivial

end Token

/-- No token that ends before the text goes on into it. -/
def Boundary (text : List Char) : Prop :=
  ∀ c, text.head? = some c → Token.isIdentifierChar c = false ∧ c ≠ '%'

theorem boundary_cons {c : Char} {text : List Char} (hc : Token.isIdentifierChar c = false)
    (hpercent : c ≠ '%') : Boundary (c :: text) := by
  intro d hd
  rw [List.head?_cons] at hd
  cases hd
  exact ⟨hc, hpercent⟩

theorem boundary_append {text rest : List Char} (h : Boundary text) (hrest : Boundary rest) :
    Boundary (text ++ rest) := by
  cases text with
  | nil => exact hrest
  | cons c text => exact h

theorem isIdentifierChar_of_isLetter {c : Char} (h : Token.isLetter c = true) :
    Token.isIdentifierChar c = true := by
  simp [Token.isIdentifierChar, h]

/-- A run of characters of a class ends where the class ends. -/
theorem takeWhile_dropWhile_append {p : Char → Bool} {run rest : List Char}
    (hrun : ∀ c ∈ run, p c = true) (hrest : ∀ c, rest.head? = some c → p c = false) :
    (run ++ rest).takeWhile p = run ∧ (run ++ rest).dropWhile p = rest := by
  have hstop : rest.takeWhile p = [] ∧ rest.dropWhile p = rest := by
    cases rest with
    | nil => exact ⟨rfl, rfl⟩
    | cons c rest =>
      have hc : ¬ p c = true := by
        rw [hrest c rfl]
        exact Bool.false_ne_true
      exact ⟨List.takeWhile_cons_of_neg hc, List.dropWhile_cons_of_neg hc⟩
  rw [List.takeWhile_append_of_pos hrun, List.dropWhile_append_of_pos hrun, hstop.1, hstop.2,
    List.append_nil]
  exact ⟨rfl, rfl⟩

namespace Token

theorem readPercent_directive {name : String} (hname : ∀ c ∈ name.toList, isLetter c = true)
    {rest : List Char} (hrest : Boundary rest) :
    readPercent (name.toList ++ rest) = (directive name, rest) := by
  have hstop : ∀ c, rest.head? = some c → isLetter c = false := by
    intro c hc
    rw [Bool.eq_false_iff]
    intro hletter
    have hchar := isIdentifierChar_of_isLetter hletter
    rw [(hrest c hc).1] at hchar
    cases hchar
  obtain ⟨htake, hdrop⟩ := takeWhile_dropWhile_append hname hstop
  -- A second percent sign would make it a separator.
  have hne : ∀ after, name.toList ++ rest ≠ '%' :: after := by
    intro after h
    cases hlist : name.toList with
    | nil =>
      rw [hlist, List.nil_append] at h
      exact (hrest '%' (by rw [h]; rfl)).2 rfl
    | cons c more =>
      rw [hlist, List.cons_append] at h
      have hletter := hname c (by rw [hlist]; exact List.mem_cons_self)
      rw [(List.cons.inj h).1] at hletter
      exact absurd hletter (by decide)
  rw [readPercent, htake, hdrop, String.ofList_toList]
  exact hne

theorem toNat_of_isIdentifierChar {c : Char} (h : isIdentifierChar c = true) :
    0x2D ≤ c.toNat ∧ c.toNat ≤ 0x7A := by
  simp only [isIdentifierChar, isLetter, Bool.or_eq_true, Bool.and_eq_true, decide_eq_true_eq,
    Char.le_def, UInt32.le_iff_toNat_le] at h
  show 0x2D ≤ c.val.toNat ∧ c.val.toNat ≤ 0x7A
  rcases h with ((((h | h) | h) | rfl) | rfl) | rfl
  · have ha : 'a'.val.toNat = 97 := rfl
    have hz : 'z'.val.toNat = 122 := rfl
    omega
  · have ha : 'A'.val.toNat = 65 := rfl
    have hz : 'Z'.val.toNat = 90 := rfl
    omega
  · have h0 : '0'.val.toNat = 48 := rfl
    have h9 : '9'.val.toNat = 57 := rfl
    omega
  · decide
  · decide
  · decide

theorem isBlank_of_isIdentifierChar {c : Char} (h : isIdentifierChar c = true) :
    Text.isBlank c = false := by
  obtain ⟨hlow, hhigh⟩ := toNat_of_isIdentifierChar h
  simp only [Text.isBlank, Bool.or_eq_false_iff, Bool.and_eq_false_iff, decide_eq_false_iff_not,
    beq_eq_false_iff_ne]
  omega

theorem isIdentifierChar_of_isIdentifierStart {c : Char} (h : isIdentifierStart c = true) :
    isIdentifierChar c = true := by
  rcases Bool.or_eq_true_iff.mp h with hletter | hunderscore
  · exact isIdentifierChar_of_isLetter hletter
  · simp [isIdentifierChar, of_decide_eq_true hunderscore]

/-- The character neither is passed over nor opens a comment. -/
def Opens (c : Char) : Prop := c ≠ '\n' ∧ Text.isBlank c = false ∧ c ≠ '/'

instance : DecidablePred Opens := fun c =>
  inferInstanceAs (Decidable (c ≠ '\n' ∧ Text.isBlank c = false ∧ c ≠ '/'))

theorem opens_of_isIdentifierStart {c : Char} (h : isIdentifierStart c = true) : Opens c := by
  refine ⟨?_, isBlank_of_isIdentifierChar (isIdentifierChar_of_isIdentifierStart h), ?_⟩
  · intro hc
    rw [hc] at h
    exact absurd h (by decide)
  · intro hc
    rw [hc] at h
    exact absurd h (by decide)

theorem read_identifier {c : Char} (h : isIdentifierStart c = true) {more rest : List Char}
    (hmore : ∀ d ∈ more, isIdentifierChar d = true) (hrest : Boundary rest) :
    read c (more ++ rest) = .ok (identifier (String.ofList (c :: more)), rest) := by
  have hne : ∀ d, isIdentifierStart d = false → c ≠ d := by
    intro d hd hcd
    rw [hcd, hd] at h
    cases h
  have hmark : ofMark? c = none := by
    simp [ofMark?, hne ':' (by decide), hne '|' (by decide), hne ';' (by decide),
      hne '*' (by decide), hne '(' (by decide), hne ')' (by decide)]
  obtain ⟨htake, hdrop⟩ := takeWhile_dropWhile_append hmore (fun d hd => (hrest d hd).1)
  rw [read, if_neg (hne '%' (by decide)), if_neg (hne '"' (by decide)),
    if_neg (hne '\'' (by decide)), hmark]
  dsimp only
  rw [if_pos h, htake, hdrop]

/-- A token that has been spelled is read back. -/
theorem read_chars {t : Token} (ht : t.Valid) {rest : List Char} (hrest : Boundary rest) :
    ∃ c more, t.chars = c :: more ∧ Opens c ∧ read c (more ++ rest) = .ok (t, rest) := by
  cases t with
  | directive name =>
    refine ⟨'%', name.toList, rfl, by decide, ?_⟩
    rw [read, if_pos rfl, readPercent_directive ht hrest]
  | identifier name =>
    have hname : isIdentifier name = true := ht
    unfold isIdentifier at hname
    split at hname
    · cases hname
    · next c more hlist =>
      obtain ⟨hc, hmore⟩ := Bool.and_eq_true_iff.mp hname
      refine ⟨c, more, hlist, opens_of_isIdentifierStart hc, ?_⟩
      rw [read_identifier hc (List.all_eq_true.mp hmore) hrest, ← hlist, String.ofList_toList]
  | string value =>
    refine ⟨'"', Quoted.encode value.toList ++ ['"'], rfl, by decide, ?_⟩
    have hdecode := Quoted.decode_encode value.toList rest
    rw [List.append_assoc, List.singleton_append, read, if_neg (by decide), if_pos rfl, readString,
      hdecode]
    dsimp only
    rw [String.ofList_toList]
  | bracket b =>
    refine ⟨'\'', [b.char, '\''], rfl, by decide, ?_⟩
    cases b <;> rfl
  | separator => exact ⟨'%', ['%'], rfl, by decide, rfl⟩
  | colon => exact ⟨':', [], rfl, by decide, rfl⟩
  | bar => exact ⟨'|', [], rfl, by decide, rfl⟩
  | semicolon => exact ⟨';', [], rfl, by decide, rfl⟩
  | star => exact ⟨'*', [], rfl, by decide, rfl⟩
  | openParen => exact ⟨'(', [], rfl, by decide, rfl⟩
  | closeParen => exact ⟨')', [], rfl, by decide, rfl⟩

end Token

/-! ## Scanning -/

def TokenStream.prepend (earlier : List LineToken) (stream : TokenStream) : TokenStream :=
  { stream with tokens := earlier ++ stream.tokens }

theorem scan_token {c : Char} {text after : List Char} {t : Token} (hc : Token.Opens c)
    (h : Token.read c text = .ok (t, after)) (line : UInt32) :
    scan line (c :: text) = (scan line after).map (TokenStream.prepend [⟨t, line⟩]) := by
  obtain ⟨hfeed, hblank, hslash⟩ := hc
  rw [scan, if_neg hfeed, if_neg (by rw [hblank]; exact Bool.false_ne_true),
    if_neg (fun hcomment => hslash hcomment.1)]
  split
  · next hread => cases h.symm.trans hread
  · next hread =>
    cases h.symm.trans hread
    cases scan line after <;> rfl

/-- Scanning a spelled token gives it back, on the line where it stands. -/
theorem scan_chars {t : Token} (ht : t.Valid) {rest : List Char} (hrest : Boundary rest)
    (line : UInt32) :
    scan line (t.chars ++ rest) = (scan line rest).map (TokenStream.prepend [⟨t, line⟩]) := by
  obtain ⟨c, more, hchars, hopens, hread⟩ := Token.read_chars ht hrest
  rw [hchars, List.cons_append, scan_token hopens hread]

theorem scan_feed (line : UInt32) (text : List Char) :
    scan line ('\n' :: text) = scan (line + 1) text := by
  rw [scan, if_pos rfl]

theorem scan_blank {c : Char} (hblank : Text.isBlank c = true) (hfeed : c ≠ '\n') (line : UInt32)
    (text : List Char) : scan line (c :: text) = scan line text := by
  rw [scan, if_neg hfeed, if_pos hblank]

theorem skipComment_cons {c : Char} {text : List Char}
    (h : ¬(c = '*' ∧ text.head? = some '/')) :
    skipComment (c :: text) = (skipComment text).map fun (feeds, after) =>
      (if c = '\n' then feeds + 1 else feeds, after) := by
  rw [skipComment]
  rintro rest rfl rfl
  exact h ⟨rfl, rfl⟩

theorem scan_comment {text after : List Char} {feeds : Nat}
    (h : skipComment text = some (feeds, after)) (line : UInt32) :
    scan line ('/' :: '*' :: text) = scan (line + .ofNat feeds) after := by
  rw [scan, if_neg (by decide), if_neg (by decide), if_pos ⟨rfl, rfl⟩]
  split
  · next hskip => cases h.symm.trans hskip
  · next hskip =>
    cases h.symm.trans hskip
    rfl

/-- The text is scanned into the tokens, whatever follows that lengthens none
of them. -/
def Spells (text : List Char) (ts : List Token) : Prop :=
  ∀ line rest, Boundary rest → ∃ (scanned : List LineToken) (next : UInt32),
    scanned.map LineToken.token = ts ∧
      scan line (text ++ rest) = (scan next rest).map (TokenStream.prepend scanned)

theorem map_prepend_nil (x : Except Error TokenStream) : x.map (TokenStream.prepend []) = x := by
  cases x <;> rfl

theorem map_prepend_prepend (earlier later : List LineToken) (x : Except Error TokenStream) :
    (x.map (TokenStream.prepend later)).map (TokenStream.prepend earlier)
      = x.map (TokenStream.prepend (earlier ++ later)) := by
  cases x with
  | error e => rfl
  | ok stream => simp [Except.map, TokenStream.prepend]

namespace Spells
variable {text more : List Char} {ts us : List Token}

theorem nil : Spells [] [] := fun line _ _ =>
  ⟨[], line, rfl, (map_prepend_nil _).symm⟩

/-- One text after another, if the second lengthens no token of the first. -/
theorem append (h : Spells text ts) (hmore : Spells more us) (hbound : Boundary more) :
    Spells (text ++ more) (ts ++ us) := by
  intro line rest hrest
  obtain ⟨first, next, rfl, hfirst⟩ := h line (more ++ rest) (boundary_append hbound hrest)
  obtain ⟨second, last, rfl, hsecond⟩ := hmore next rest hrest
  refine ⟨first ++ second, last, List.map_append, ?_⟩
  rw [List.append_assoc, hfirst, hsecond, map_prepend_prepend]

theorem blank {c : Char} (hc : Text.isBlank c = true) (h : Spells text ts) :
    Spells (c :: text) ts := by
  intro line rest hrest
  by_cases hfeed : c = '\n'
  · obtain ⟨scanned, next, hts, hscan⟩ := h (line + 1) rest hrest
    refine ⟨scanned, next, hts, ?_⟩
    rw [hfeed, List.cons_append, scan_feed, hscan]
  · obtain ⟨scanned, next, hts, hscan⟩ := h line rest hrest
    refine ⟨scanned, next, hts, ?_⟩
    rw [List.cons_append, scan_blank hc hfeed, hscan]

theorem token {t : Token} (ht : t.Valid) : Spells t.chars [t] := fun line _ hrest =>
  ⟨[⟨t, line⟩], line, rfl, scan_chars ht hrest line⟩

/-- A token before a text that does not lengthen it. -/
theorem cons {t : Token} (ht : t.Valid) (h : Spells text ts) (hbound : Boundary text) :
    Spells (t.chars ++ text) (t :: ts) :=
  (token ht).append h hbound

/-- Parts put after one another spell their tokens one after another. -/
theorem flatMap {α : Type} {chars : α → List Char} {words : α → List Token} {parts : List α}
    (h : ∀ a ∈ parts, Spells (chars a) (words a) ∧ Boundary (chars a)) :
    Spells (parts.flatMap chars) (parts.flatMap words) ∧ Boundary (parts.flatMap chars) := by
  induction parts with
  | nil => exact ⟨nil, fun c hc => by cases hc⟩
  | cons a others ih =>
    obtain ⟨hspells, hbound⟩ := h a List.mem_cons_self
    obtain ⟨hothers, hboundOthers⟩ := ih (fun b hb => h b (List.mem_cons_of_mem a hb))
    exact ⟨hspells.append hothers hboundOthers, boundary_append hbound hboundOthers⟩

end Spells

/-! ## Scanned identifiers -/

theorem isIdentifier_of_read {c : Char} {text rest : List Char} {name : String}
    (h : Token.read c text = .ok (.identifier name, rest)) : isIdentifier name = true := by
  unfold Token.read at h
  split at h
  · unfold Token.readPercent at h
    split at h <;> cases h
  · split at h
    · unfold Token.readString at h
      split at h <;> cases h
    · split at h
      · unfold Token.readBracket at h
        split at h
        · split at h <;> cases h
        · cases h
      · split at h
        · next mark hmark =>
          unfold Token.ofMark? at hmark
          cases h
          repeat' split at hmark
          all_goals cases hmark
        · split at h
          · next hstart =>
            cases h
            unfold isIdentifier
            rw [String.toList_ofList]
            dsimp only
            rw [hstart, Bool.true_and]
            exact List.all_takeWhile
          · cases h

/-- Every identifier among scanned tokens is one. -/
theorem isIdentifier_of_scan {line : UInt32} {text : List Char} {stream : TokenStream}
    (h : scan line text = .ok stream) {name : String}
    (hmem : Token.identifier name ∈ stream.tokens.map LineToken.token) :
    isIdentifier name = true := by
  fun_induction scan line text generalizing stream with
  | case1 => cases h; cases hmem
  | case2 line rest ih => exact ih h hmem
  | case3 line c rest _ _ ih => exact ih h hmem
  | case4 => cases h
  | case5 line c rest _ _ _ feeds after _ ih => exact ih h hmem
  | case6 => cases h
  | case7 line c rest _ _ _ t after hread ih =>
    obtain ⟨later, hlater, hstream⟩ := bind_eq_ok_iff.mp h
    cases hstream
    rcases List.mem_cons.mp hmem with hname | hmem
    · cases hname
      exact isIdentifier_of_read hread
    · exact ih hlater hmem

end TreeSchema.Grammar
