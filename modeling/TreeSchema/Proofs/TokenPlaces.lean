import TreeSchema.Proofs.Reading
/-
  Places of tokens

  A comment and a token are read off the characters they take, whatever comes
  after these, and a token takes no line feed (`exists_comment`,
  `exists_taken`). So a text can be cut before any of its tokens: the front
  is scanned into the tokens before the cut, the next token begins at the
  cut, and its line is the one that the line feeds in front of it lead to
  (`exists_cut`). Numbers of lines have 32 bits, so that this is one more than
  the number of these line feeds in a text of fewer than 2 ^ 32 lines
  (`toNat_lineAfter_one`), and only the remainder of it in general.
-/

namespace TreeSchema.Grammar

/-! ## Lines -/

/-- The number of the line that a text leads to. -/
def lineAfter (line : UInt32) (text : List Char) : UInt32 := line + .ofNat (text.count '\n')

theorem lineAfter_append (line : UInt32) (front back : List Char) :
    lineAfter line (front ++ back) = lineAfter (lineAfter line front) back := by
  rw [lineAfter, lineAfter, lineAfter, List.count_append, UInt32.ofNat_add, UInt32.add_assoc]

theorem lineAfter_of_notMem {text : List Char} (h : '\n' ∉ text) (line : UInt32) :
    lineAfter line text = line := by
  rw [lineAfter, List.count_eq_zero_of_not_mem h]
  exact UInt32.add_zero line

theorem lineAfter_one (text : List Char) : lineAfter 1 text = .ofNat (1 + text.count '\n') :=
  (UInt32.ofNat_add 1 (text.count '\n')).symm

/-- In a text that is short enough, the number tells the line. -/
theorem toNat_lineAfter_one {front text : List Char} (hfront : front <+: text)
    (htext : 1 + text.count '\n' < UInt32.size) :
    (lineAfter 1 front).toNat = 1 + front.count '\n' := by
  have hle := hfront.sublist.count_le '\n'
  rw [lineAfter_one]
  apply UInt32.toNat_ofNat_of_lt'
  show 1 + front.count '\n' < UInt32.size
  omega

/-! ## Characters that are taken -/

theorem exists_comment {text after : List Char} {feeds : Nat}
    (h : skipComment text = some (feeds, after)) :
    ∃ comment, text = comment ++ after ∧ feeds = comment.count '\n' ∧
      ∀ rest, skipComment (comment ++ rest) = some (feeds, rest) := by
  fun_induction skipComment text generalizing feeds after with
  | case1 => cases h
  | case2 rest =>
    cases h
    exact ⟨['*', '/'], rfl, rfl, fun rest => rfl⟩
  | case3 c text hends ih =>
    obtain ⟨⟨later, last⟩, hlater, hpair⟩ := Option.map_eq_some_iff.mp h
    obtain ⟨comment, htext, hfeeds, hskip⟩ := ih hlater
    cases hpair
    refine ⟨c :: comment, by rw [htext]; rfl, ?_, ?_⟩
    · rw [hfeeds, List.count_cons]
      by_cases hc : c = '\n'
      · simp [hc]
      · simp [hc]
    · intro rest
      have hgoes : ¬(c = '*' ∧ (comment ++ rest).head? = some '/') := by
        intro h
        obtain ⟨hstar, hhead⟩ := h
        cases comment with
        | nil => cases hskip []
        | cons d comment =>
          rw [List.cons_append, List.head?_cons] at hhead
          exact hends _ hstar (by rw [htext, Option.some.inj hhead]; rfl)
      rw [List.cons_append, skipComment_cons hgoes, hskip rest]
      rfl

theorem Quoted.exists_decoded {text value after : List Char}
    (h : decode text = .ok (value, after)) :
    ∃ taken, text = taken ++ after ∧ '\n' ∉ taken ∧
      ∀ rest, decode (taken ++ rest) = .ok (value, rest) := by
  fun_induction decode text generalizing value after with
  | case1 => cases h
  | case2 rest =>
    cases h
    exact ⟨['"'], rfl, by decide, fun rest => by rw [List.singleton_append, decode]⟩
  | case3 => cases h
  | case4 => cases h
  | case5 => cases h
  | case6 c text d hd ih =>
    obtain ⟨⟨later, last⟩, hlater, hpair⟩ := bind_eq_ok_iff.mp h
    cases hpair
    obtain ⟨taken, htext, hfeed, hdecode⟩ := ih hlater
    have hc : c ≠ '\n' := by
      intro hc
      rw [hc] at hd
      cases hd
    refine ⟨'\\' :: c :: taken, by rw [htext]; rfl, by simp [hc.symm, hfeed], ?_⟩
    intro rest
    rw [List.cons_append, List.cons_append, decode_escape hd, hdecode rest]
    rfl
  | case7 c text hquote hfeed hlone hslash ih =>
    obtain ⟨⟨later, last⟩, hlater, hpair⟩ := bind_eq_ok_iff.mp h
    cases hpair
    obtain ⟨taken, htext, hnone, hdecode⟩ := ih hlater
    have hplain : c ≠ '\\' := by
      intro hc
      cases text with
      | nil => exact hlone hc rfl
      | cons d text => exact hslash d text hc rfl
    refine ⟨c :: taken, by rw [htext]; rfl, ?_, ?_⟩
    · rw [List.mem_cons, not_or]
      exact ⟨fun hc => hfeed hc.symm, hnone⟩
    · intro rest
      rw [List.cons_append, decode_cons hquote hplain hfeed, hdecode rest]
      rfl

namespace Token

/-- What is put after a token begins as what was there, if with anything. -/
def Follows (rest after : List Char) : Prop :=
  ∀ d, rest.head? = some d → after.head? = some d

theorem of_mem_run {p : Char → Bool} {text : List Char} {c : Char}
    (h : c ∈ text.takeWhile p) : p c = true :=
  List.all_eq_true.mp List.all_takeWhile c h

/-- A run of characters of a class is taken up to the same place when what
follows it begins as before. -/
theorem take_run {p : Char → Bool} {text rest : List Char} (h : Follows rest (text.dropWhile p)) :
    (text.takeWhile p ++ rest).takeWhile p = text.takeWhile p ∧
      (text.takeWhile p ++ rest).dropWhile p = rest := by
  apply takeWhile_dropWhile_append
  · intro c hc
    exact of_mem_run hc
  · intro c hc
    have hstop := List.head?_dropWhile_not p text
    rw [h c hc] at hstop
    exact hstop

theorem feed_not_mem_run {p : Char → Bool} (hp : p '\n' = false) (text : List Char) :
    '\n' ∉ text.takeWhile p := by
  intro hmem
  have hfeed := of_mem_run hmem
  rw [hp] at hfeed
  cases hfeed

theorem exists_taken_percent {text after : List Char} {t : Token}
    (h : readPercent text = (t, after)) :
    ∃ taken, text = taken ++ after ∧ '\n' ∉ taken ∧
      ∀ rest, Follows rest after → readPercent (taken ++ rest) = (t, rest) := by
  unfold readPercent at h
  split at h
  · next rest =>
    cases h
    exact ⟨['%'], rfl, by decide, fun rest _ => rfl⟩
  · next hpercent =>
    cases h
    refine ⟨text.takeWhile isLetter, List.takeWhile_append_dropWhile.symm,
      feed_not_mem_run (by decide) text, ?_⟩
    intro rest hrest
    obtain ⟨htake, hdrop⟩ := take_run hrest
    -- A second percent sign would make it a separator.
    have hne : ∀ more, text.takeWhile isLetter ++ rest ≠ '%' :: more := by
      intro more hmore
      cases hrun : text.takeWhile isLetter with
      | nil =>
        rw [hrun, List.nil_append] at hmore
        have hafter := hrest '%' (by rw [hmore]; rfl)
        have htext : text.dropWhile isLetter = text := by
          have hwhole := List.takeWhile_append_dropWhile (p := isLetter) (l := text)
          rwa [hrun, List.nil_append] at hwhole
        rw [htext] at hafter
        obtain ⟨tail, htail⟩ := List.head?_eq_some_iff.mp hafter
        exact hpercent tail htail
      | cons c run =>
        rw [hrun, List.cons_append] at hmore
        have hfirst : c ∈ text.takeWhile isLetter := by
          rw [hrun]
          exact List.mem_cons_self
        have hletter : isLetter c = true := of_mem_run hfirst
        rw [(List.cons.inj hmore).1] at hletter
        exact absurd hletter (by decide)
    rw [readPercent, htake, hdrop]
    exact hne

theorem exists_taken_string {text after : List Char} {t : Token}
    (h : readString text = .ok (t, after)) :
    ∃ taken, text = taken ++ after ∧ '\n' ∉ taken ∧
      ∀ rest, readString (taken ++ rest) = .ok (t, rest) := by
  unfold readString at h
  split at h
  · next value last hdecode =>
    cases h
    obtain ⟨taken, htext, hfeed, hread⟩ := Quoted.exists_decoded hdecode
    exact ⟨taken, htext, hfeed, fun rest => by rw [readString, hread rest]⟩
  · cases h
  · cases h

theorem exists_taken_bracket {text after : List Char} {t : Token}
    (h : readBracket text = .ok (t, after)) :
    ∃ taken, text = taken ++ after ∧ '\n' ∉ taken ∧
      ∀ rest, readBracket (taken ++ rest) = .ok (t, rest) := by
  unfold readBracket at h
  split at h
  · next d last =>
    cases hb : Bracket.ofChar? d with
    | none => rw [hb] at h; cases h
    | some b =>
      rw [hb] at h
      cases h
      have hd : d ≠ '\n' := by
        intro hd
        rw [hd] at hb
        cases hb
      refine ⟨[d, '\''], rfl, by simp [hd.symm], fun rest => ?_⟩
      rw [List.cons_append, List.singleton_append, readBracket, hb]
  · cases h

/-- A token is read off the characters it takes, among which is no line
feed. -/
theorem exists_taken {c : Char} {text after : List Char} {t : Token}
    (h : read c text = .ok (t, after)) :
    ∃ taken, text = taken ++ after ∧ '\n' ∉ taken ∧
      ∀ rest, Follows rest after → read c (taken ++ rest) = .ok (t, rest) := by
  unfold read at h ⊢
  by_cases hpercent : c = '%'
  · simp only [if_pos hpercent] at h ⊢
    obtain ⟨taken, htext, hfeed, hread⟩ := exists_taken_percent (Except.ok.inj h)
    exact ⟨taken, htext, hfeed, fun rest hrest => by rw [hread rest hrest]⟩
  simp only [if_neg hpercent] at h ⊢
  by_cases hquote : c = '"'
  · simp only [if_pos hquote] at h ⊢
    obtain ⟨taken, htext, hfeed, hread⟩ := exists_taken_string h
    exact ⟨taken, htext, hfeed, fun rest _ => hread rest⟩
  simp only [if_neg hquote] at h ⊢
  by_cases hbracket : c = '\''
  · simp only [if_pos hbracket] at h ⊢
    obtain ⟨taken, htext, hfeed, hread⟩ := exists_taken_bracket h
    exact ⟨taken, htext, hfeed, fun rest _ => hread rest⟩
  simp only [if_neg hbracket] at h ⊢
  cases hmark : ofMark? c with
  | some mark =>
    rw [hmark] at h
    cases h
    exact ⟨[], rfl, by simp, fun rest _ => rfl⟩
  | none =>
    rw [hmark] at h
    dsimp only at h ⊢
    split at h
    · next hstart =>
      cases h
      refine ⟨text.takeWhile isIdentifierChar, List.takeWhile_append_dropWhile.symm,
        feed_not_mem_run (by decide) text, fun rest hrest => ?_⟩
      obtain ⟨htake, hdrop⟩ := take_run hrest
      rw [if_pos hstart, htake, hdrop]
    · cases h

/-- No token begins with the slash that may open a comment. -/
theorem opens_of_read {c : Char} {text after : List Char} {t : Token} (hfeed : c ≠ '\n')
    (hblank : Text.isBlank c = false) (h : read c text = .ok (t, after)) : Opens c := by
  refine ⟨hfeed, hblank, ?_⟩
  intro hslash
  rw [hslash] at h
  cases h

end Token

/-! ## Cutting a text before a token -/

/-- What stands in front of a cut is scanned into the tokens `before` and ends
on the line that its line feeds lead to. The first of the tokens `rest` begins
at the cut; if there is none, the text ends there. -/
structure Cut (line : UInt32) (before rest : List LineToken) (front back : List Char) : Prop where
  front : scan line front = .ok { tokens := before, endLine := lineAfter line front }
  back : match rest with
    | [] => back = []
    | t :: _ => ∃ c more after, back = c :: more ∧ Token.read c more = .ok (t.token, after)

theorem lineAfter_token {c : Char} {taken : List Char} (hc : c ≠ '\n') (htaken : '\n' ∉ taken)
    (line : UInt32) (front : List Char) :
    lineAfter line (c :: (taken ++ front)) = lineAfter line front := by
  have hfeed : '\n' ∉ c :: taken := by simp [htaken, hc.symm]
  rw [← List.cons_append, lineAfter_append, lineAfter_of_notMem hfeed]

namespace Cut
variable {line : UInt32} {before rest : List LineToken} {front back : List Char}

/-- What is passed over before a cut belongs to the front. -/
theorem pass (gap : List Char) (h : Cut (lineAfter line gap) before rest front back)
    (hgap : ∀ text, scan line (gap ++ text) = scan (lineAfter line gap) text) :
    Cut line before rest (gap ++ front) back := by
  refine ⟨?_, h.back⟩
  rw [hgap, h.front, lineAfter_append]

/-- A token before a cut belongs to the front. -/
theorem token {c : Char} {taken : List Char} {t : Token} (hc : Token.Opens c)
    (htaken : '\n' ∉ taken) (hread : Token.read c (taken ++ front) = .ok (t, front))
    (h : Cut line before rest front back) :
    Cut line (⟨t, line⟩ :: before) rest (c :: (taken ++ front)) back := by
  refine ⟨?_, h.back⟩
  rw [scan_token hc hread, h.front, lineAfter_token hc.1 htaken]
  rfl

end Cut

/-- A text can be cut before any of its tokens, and before its end. The token
after the cut is on the line that the line feeds before it lead to. -/
theorem exists_cut {line endLine : UInt32} {text : List Char} {before rest : List LineToken}
    (h : scan line text = .ok { tokens := before ++ rest, endLine }) :
    ∃ front back, text = front ++ back ∧ Cut line before rest front back ∧
      Reader.lineOf endLine rest = lineAfter line front := by
  fun_induction scan line text generalizing before with
  | case1 line =>
    obtain ⟨htokens, hline⟩ := TokenStream.mk.inj (Except.ok.inj h)
    obtain ⟨hbefore, hrest⟩ := List.append_eq_nil_iff.mp htokens.symm
    rw [hbefore, hrest]
    have hnone := @lineAfter_of_notMem [] (by simp) line
    exact ⟨[], [], rfl, ⟨by rw [scan, hnone], rfl⟩, by rw [hnone]; exact hline.symm⟩
  | case2 line text ih =>
    obtain ⟨front, back, htext, hcut, hline⟩ := ih h
    refine ⟨['\n'] ++ front, back, by rw [htext]; rfl, ?_, ?_⟩
    · exact Cut.pass ['\n'] hcut (scan_feed line)
    · rw [hline, lineAfter_append]
      rfl
  | case3 line c text hfeed hblank ih =>
    obtain ⟨front, back, htext, hcut, hline⟩ := ih h
    have hsame : lineAfter line [c] = line :=
      lineAfter_of_notMem (fun hmem => hfeed (List.mem_singleton.mp hmem).symm) line
    refine ⟨[c] ++ front, back, by rw [htext]; rfl, ?_, ?_⟩
    · apply Cut.pass [c]
      · rw [hsame]
        exact hcut
      · intro text
        rw [hsame]
        exact scan_blank hblank hfeed line text
    · rw [hline, lineAfter_append, hsame]
  | case4 => cases h
  | case5 line c text _ _ hcomment feeds after hskip ih =>
    obtain ⟨front, back, hafter, hcut, hline⟩ := ih h
    obtain ⟨comment, htail, hfeeds, hcomments⟩ := exists_comment hskip
    obtain ⟨tail, htext⟩ := List.head?_eq_some_iff.mp hcomment.2
    rw [htext, List.tail_cons] at htail
    have hlines : lineAfter line ('/' :: '*' :: comment) = line + .ofNat feeds := by
      rw [lineAfter, List.count_cons_of_ne (by decide), List.count_cons_of_ne (by decide), hfeeds]
    refine ⟨'/' :: '*' :: comment ++ front, back, ?_, ?_, ?_⟩
    · rw [htext, htail, hafter, hcomment.1]
      simp
    · apply Cut.pass ('/' :: '*' :: comment)
      · rw [hlines]
        exact hcut
      · intro text
        rw [hlines]
        exact scan_comment (hcomments text) line
    · rw [hline, lineAfter_append, hlines]
  | case6 => cases h
  | case7 line c text hfeed hblank hcomment t after hread ih =>
    obtain ⟨stream, hstream, hpair⟩ := bind_eq_ok_iff.mp h
    obtain ⟨htokens, hend⟩ := TokenStream.mk.inj (Except.ok.inj hpair)
    cases before with
    | nil =>
      obtain rfl : _ = rest := htokens
      have hnone := @lineAfter_of_notMem [] (by simp) line
      exact ⟨[], c :: text, rfl, ⟨by rw [scan, hnone], c, text, after, rfl, hread⟩, hnone.symm⟩
    | cons first before =>
      obtain ⟨hfirst, hlater⟩ := List.cons.inj htokens
      have hrest : scan line after = .ok { tokens := before ++ rest, endLine } := by
        rw [hstream, show before ++ rest = stream.tokens from hlater.symm, ← hend]
      obtain ⟨front, back, hafter, hcut, hline⟩ := ih hrest
      obtain ⟨taken, htext, hnone, htaken⟩ := Token.exists_taken hread
      have hopens := Token.opens_of_read hfeed (Bool.eq_false_iff.mpr hblank) hread
      have hfollows : Token.Follows front after := by
        intro d hd
        rw [hafter, List.head?_append, hd]
        rfl
      refine ⟨c :: (taken ++ front), back, by rw [htext, hafter]; simp, ?_, ?_⟩
      · rw [← hfirst]
        exact hcut.token hopens hnone (htaken front hfollows)
      · rw [hline, lineAfter_token hfeed hnone]

end TreeSchema.Grammar
