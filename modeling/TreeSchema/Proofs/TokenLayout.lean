import Mathlib.Control.Monad.Basic
import TreeSchema.Proofs.TokenPlaces
/-
  Layout of grammar text

  Between tokens stands filler, a mixture of white space and comments. Filler
  is passed over, and its line feeds are counted wherever they stand
  (`scan_filler`). A token has no line feed in it and is read back wherever
  filler or the end of the text follows it, so that tokens set apart by filler
  are scanned as they are, each on the line that the line feeds before it lead
  to, and how they are laid out does not matter otherwise.
-/

namespace TreeSchema.Grammar

/-! ## Filler -/

/-- White space and comments in any order, possibly none. A comment ends at
the first star and slash after its opening. -/
inductive Filler : List Char → Prop where
  | nil : Filler []
  | blank {c : Char} {rest : List Char} (space : Text.isBlank c = true) (more : Filler rest) :
    Filler (c :: rest)
  | comment {body rest : List Char} (inner : ¬ ['*', '/'] <:+: body) (more : Filler rest) :
    Filler ('/' :: '*' :: (body ++ '*' :: '/' :: rest))

/-- A comment is passed over up to its own end. A star at the end of the body
does not end the comment early, since the closing star follows it. -/
theorem skipComment_body {body : List Char} (h : ¬ ['*', '/'] <:+: body) (rest : List Char) :
    skipComment (body ++ '*' :: '/' :: rest) = some (body.count '\n', rest) := by
  induction body with
  | nil => rfl
  | cons c body ih =>
    have hgoes : ¬(c = '*' ∧ (body ++ '*' :: '/' :: rest).head? = some '/') := by
      rintro ⟨rfl, hhead⟩
      cases body with
      | nil => cases hhead
      | cons d body =>
        cases hhead
        exact h ⟨[], body, rfl⟩
    have hbody : ¬ ['*', '/'] <:+: body := fun hinner => h (List.infix_cons hinner)
    rw [List.cons_append, skipComment_cons hgoes, ih hbody, Option.map_some, List.count_cons]
    by_cases hc : c = '\n' <;> simp [hc]

/-- Filler is passed over, and the line is moved on by its line feeds. -/
theorem scan_filler {gap : List Char} (h : Filler gap) (line : UInt32) (text : List Char) :
    scan line (gap ++ text) = scan (lineAfter line gap) text := by
  induction h generalizing line with
  | nil => rw [List.nil_append, lineAfter_of_notMem (by simp)]
  | @blank c rest hc _ ih =>
    rw [← List.singleton_append, lineAfter_append, List.append_assoc, List.singleton_append]
    by_cases hfeed : c = '\n'
    · rw [hfeed, scan_feed, ih]
      rfl
    · have hsame : lineAfter line [c] = line :=
        lineAfter_of_notMem (fun hmem => hfeed (List.mem_singleton.mp hmem).symm) line
      rw [scan_blank hc hfeed, ih, hsame]
  | @comment body rest hbody _ ih =>
    have hskip := skipComment_body hbody (rest ++ text)
    have hcount : ('/' :: '*' :: (body ++ '*' :: '/' :: rest)).count '\n'
        = body.count '\n' + rest.count '\n' := by
      simp [List.count_append]
    have hlines : lineAfter line ('/' :: '*' :: (body ++ '*' :: '/' :: rest))
        = lineAfter (line + .ofNat (body.count '\n')) rest := by
      rw [lineAfter, lineAfter, hcount, UInt32.ofNat_add, UInt32.add_assoc]
    rw [List.cons_append, List.cons_append, List.append_assoc, List.cons_append, List.cons_append,
      scan_comment hskip, ih, hlines]

/-- Tokens as text, each with what stands after it. -/
def spread (pieces : List (Token × List Char)) : List Char :=
  pieces.flatMap fun p => p.1.chars ++ p.2

/-- The pieces are tokens that can be scanned, each with filler after it, and
any two of them are set apart by some. -/
structure Apart (pieces : List (Token × List Char)) : Prop where
  valid : ∀ p ∈ pieces, p.1.Valid
  filled : ∀ p ∈ pieces, Filler p.2
  apart : ∀ p ∈ pieces.dropLast, p.2 ≠ []

theorem Apart.tail {p : Token × List Char} {rest : List (Token × List Char)}
    (h : Apart (p :: rest)) : Apart rest where
  valid := fun q hq => h.valid q (List.mem_cons_of_mem p hq)
  filled := fun q hq => h.filled q (List.mem_cons_of_mem p hq)
  apart := by
    intro q hq
    cases rest with
    | nil => cases hq
    | cons r rest => exact h.apart q (List.mem_cons_of_mem p hq)

theorem filler_feeds (feeds : Nat) : Filler (List.replicate feeds '\n') := by
  induction feeds with
  | zero => exact .nil
  | succ feeds ih => exact .blank (by decide) ih

/-- A text is scanned the same, with the same numbers of lines, behind 2 ^ 32
line feeds. -/
theorem tokens_feeds_append {feeds : Nat} (h : UInt32.size ∣ feeds) (text : String) :
    tokens (String.ofList (List.replicate feeds '\n') ++ text) = tokens text := by
  have hline : lineAfter 1 (List.replicate feeds '\n') = 1 := by
    rw [lineAfter_one, List.count_replicate_self, Text.ofNat_add_of_dvd h]
    rfl
  rw [tokens, tokens, String.toList_append, String.toList_ofList, scan_filler (filler_feeds feeds),
    hline]

/-- So the number of a token can be another than that of its line. -/
theorem exists_misnumbered_token :
    ∃ lead, Filler lead ∧ 1 + lead.count '\n' = 1 + UInt32.size ∧
      tokens (String.ofList lead ++ "a")
        = .ok { tokens := [⟨.identifier "a", 1⟩], endLine := 1 } := by
  obtain ⟨feeds, hfeeds⟩ : ∃ feeds, feeds = UInt32.size := ⟨_, rfl⟩
  refine ⟨List.replicate feeds '\n', filler_feeds feeds, ?_, ?_⟩
  · rw [List.count_replicate_self, hfeeds]
  · rw [tokens_feeds_append ⟨1, hfeeds.trans (Nat.mul_one _).symm⟩]
    decide +kernel

end TreeSchema.Grammar
