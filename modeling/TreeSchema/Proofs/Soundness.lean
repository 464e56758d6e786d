import TreeSchema.Proofs.Allowance
import TreeSchema.Proofs.Validator
/-
  What violations say

  Any grammar that a validator can be made of, and any document that it comes
  to a verdict on. The elements that are reported are whole elements of the
  document, in order and apart from each other, and without them the document
  is derived from the start of the grammar, unless the document is rejected
  as a whole. So nothing that the grammar does not derive is passed over in
  silence.
-/

namespace TreeSchema.Validation

/-! ## Grammars and their validators -/

namespace Validator
variable {g : Grammar} {v : Validator}

theorem eq_prepared_of_ofGrammar (h : ofGrammar g = .ok v) : v = prepared g := by
  unfold ofGrammar at h
  dsimp only at h
  split at h
  · cases h
  · split at h
    · split at h
      · cases h
      · cases h
        rfl
    · cases h

theorem grammar_prepared (g : Grammar) : (prepared g).grammar = g := by
  simp [prepared, grammar, branch, Function.comp_def]

theorem grammar_of_ofGrammar (h : ofGrammar g = .ok v) : v.grammar = g := by
  rw [eq_prepared_of_ofGrammar h, grammar_prepared]

/-- A document is rejected as a whole, or it is read from the start to its
end. -/
theorem reads_of_violations? {document : Node} {found : List Violation}
    (h : v.violations? document = some found) :
    found = [.reject v.start (v.firstOf v.start) document.tokens] ∨
      v.Reads [.nonterminal v.start] document.tokens [] found := by
  obtain ⟨o, hruns, rfl⟩ := validates_iff.mpr h
  cases o with
  | exhausted => exact absurd rfl hruns.ne_exhausted
  | mismatch => exact Or.inl rfl
  | parsed rest recorded =>
    cases rest with
    | nil => exact Or.inr (hruns.reads trivial rfl)
    | cons t rest => exact Or.inl rfl

end Validator

/-- If no violation of a document is found, then its tokens are derived from
the start of the grammar. If some are, then the document is rejected as a
whole, or what is left of it without the elements that are reported is
derived from the start. -/
theorem derives_without_violations {g : Grammar} {v : Validator}
    (hv : Validator.ofGrammar g = .ok v) {document : Node} {found : List Violation}
    (h : v.violations? document = some found) :
    (found = [] → g.Derives [.nonterminal g.start] (document.tokens.map PlacedToken.token)) ∧
      (found = [.reject g.start (v.firstOf g.start) document.tokens] ∨
        ∃ taken, Consumed document.tokens [] found taken ∧
          g.Derives [.nonterminal g.start] taken) := by
  have hgrammar := Validator.grammar_of_ofGrammar hv
  have hstart : v.start = g.start := congrArg Grammar.start hgrammar
  have hreads := Validator.reads_of_violations? h
  unfold Validator.Reads at hreads
  rw [hgrammar, hstart] at hreads
  refine ⟨?_, hreads⟩
  rintro rfl
  rcases hreads with hwhole | ⟨taken, hconsumed, hderives⟩
  · cases hwhole
  · have htaken := hconsumed.map_token_of_clean
    rw [List.map_nil, List.append_nil] at htaken
    rw [htaken]
    exact hderives

/-- A grammar whose two kinds of item begin alike. -/
def sharedGrammar : Grammar :=
  { name := "Shared"
    start := "list"
    rules :=
      [⟨"list", [[.terminal .openSequence, .repeated (.nonterminal "item"),
          .terminal .closeSequence]]⟩,
       ⟨"item", [[.nonterminal "ones"], [.nonterminal "twos"]]⟩,
       ⟨"ones", [[.terminal .openSequence, .repeated (.terminal (.literal "one")),
          .terminal .closeSequence]]⟩,
       ⟨"twos", [[.terminal .openSequence, .repeated (.terminal (.literal "two")),
          .terminal .closeSequence]]⟩] }

theorem ofGrammar_shared :
    Validator.ofGrammar sharedGrammar = .ok (Validator.prepared sharedGrammar) := by
  decide +kernel

/-- The second item fits only after the first of its alternatives has been
given up. -/
theorem shared_derives :
    ∃ v, Validator.ofGrammar sharedGrammar = .ok v ∧
      v.violations? (.sequence [.sequence [.scalar "one"], .sequence [.scalar "two"]]) = some [] ∧
      sharedGrammar.Derives [.nonterminal "list"]
        [.openSequence, .openSequence, .scalar "one", .closeSequence, .openSequence,
          .scalar "two", .closeSequence, .closeSequence] := by
  have hfound : (Validator.prepared sharedGrammar).violations?
      (.sequence [.sequence [.scalar "one"], .sequence [.scalar "two"]]) = some [] := by
    decide +kernel
  exact ⟨_, ofGrammar_shared, hfound, (derives_without_violations ofGrammar_shared hfound).1 rfl⟩

/-! ## Where violations are -/

/-- The violation names the token at the start of the span, which closes
nothing, and the span is the whole element that begins there. -/
structure Marks (tokens : List PlacedToken) (violation : Violation) (span : Nat × Nat) :
    Prop where
  token : ∃ t, tokens[span.1]? = some t ∧ violation.path = t.path ∧
    violation.found = t.token.display ∧ t.token.isClose = false
  element : ∃ element after, tokens.drop span.1 = element ++ after ∧ IsElement element ∧
    span.2 = span.1 + element.length

section
variable {tokens ahead left : List PlacedToken} {recorded : List Violation}
  {taken : List TreeToken}

/-- The element that begins the tokens ahead, with the tokens counted from
the start of the stream. -/
theorem marks_reject {rule : String} {expected : List Terminal} {t : PlacedToken}
    {rest element after : List PlacedToken} (hsuffix : t :: rest <:+ tokens)
    (hopen : t.token.isClose = false) (heq : t :: rest = element ++ after)
    (helement : IsElement element) :
    Marks tokens (.reject rule expected (t :: rest))
      (tokens.length - (t :: rest).length, tokens.length - after.length) where
  token := by
    refine ⟨t, ?_, rfl, rfl, hopen⟩
    rw [← List.head?_drop, ← List.suffix_iff_eq_drop.mp hsuffix]
    rfl
  element := by
    refine ⟨element, after, ?_, helement, ?_⟩
    · rw [← List.suffix_iff_eq_drop.mp hsuffix]
      exact heq
    · have hle := hsuffix.length_le
      rw [heq, List.length_append] at hle ⊢
      dsimp only
      omega

/-- The spans are found along the way: the tokens taken between two of them
only move the second further on. -/
theorem Consumed.exists_spans (h : Consumed ahead left recorded taken) (hframed : Framed tokens)
    (hsuffix : ahead <:+ tokens) :
    ∃ spans, List.Forall₂ (Marks tokens) recorded spans ∧
      spans.Pairwise (fun a b => a.2 ≤ b.1) ∧
      ∀ span ∈ spans, tokens.length - ahead.length ≤ span.1 := by
  induction h with
  | nothing => exact ⟨[], .nil, .nil, fun span hspan => absurd hspan List.not_mem_nil⟩
  | @take t rest left recorded taken _ ih =>
    obtain ⟨spans, hmarks, hapart, hafter⟩ := ih ((List.suffix_cons t rest).trans hsuffix)
    refine ⟨spans, hmarks, hapart, fun span hspan => ?_⟩
    have hle := hafter span hspan
    rw [List.length_cons]
    omega
  | @pass rule expected t rest left recorded taken hopen _ ih =>
    obtain ⟨element, after, heq, helement⟩ := hframed t rest hsuffix hopen
    have hskip : skipElement (t :: rest) = after := by
      rw [heq, skipElement_element helement]
    rw [hskip] at ih
    have hafter : after <:+ tokens := (heq ▸ List.suffix_append element after).trans hsuffix
    obtain ⟨spans, hmarks, hapart, hlater⟩ := ih hafter
    refine ⟨_ :: spans, .cons (marks_reject hsuffix hopen heq helement) hmarks,
      .cons hlater hapart, ?_⟩
    intro span hspan
    rcases List.mem_cons.mp hspan with rfl | hspan
    · exact Nat.le_refl _
    · have hle := hlater span hspan
      rw [heq, List.length_append]
      omega

end

theorem Marks.lt {tokens : List PlacedToken} {violation : Violation} {span : Nat × Nat}
    (h : Marks tokens violation span) : span.1 < span.2 := by
  obtain ⟨element, after, _, helement, hstop⟩ := h.element
  have hpos := List.length_pos_iff.mpr helement.ne_nil
  omega

theorem display_ne_end (t : TreeToken) : t.display ≠ "end of document" := by
  intro h
  have hhead := congrArg (fun text => text.toList.take 8) h
  cases t <;> simp [TreeToken.display] at hhead

/-- A document that is rejected as a whole is passed as one element. -/
theorem Validator.consumed_of_violations? {v : Validator} {document : Node}
    {found : List Violation} (h : v.violations? document = some found) :
    ∃ left taken, Consumed document.tokens left found taken := by
  rcases reads_of_violations? h with rfl | ⟨taken, hconsumed, _⟩
  · obtain ⟨tail, htokens⟩ := document.tokensAt_eq_cons Path.root
    refine ⟨skipElement document.tokens, [], ?_⟩
    rw [Node.tokens, htokens]
    exact .pass document.isClose_head .nothing
  · exact ⟨[], taken, hconsumed⟩

/-- The violations of a document are at tokens that begin whole elements,
each named as it stands there. They come in the order of the document, and
each comes after the whole of the element before it. -/
theorem violations_mark_elements {v : Validator} {document : Node} {found : List Violation}
    (h : v.violations? document = some found) :
    ∃ spans : List (Nat × Nat), List.Forall₂ (Marks document.tokens) found spans ∧
      (spans.map Prod.fst).Pairwise (· < ·) ∧ spans.Pairwise (fun a b => a.2 ≤ b.1) ∧
      ∀ violation ∈ found, violation.found ≠ "end of document" := by
  obtain ⟨left, taken, hconsumed⟩ := Validator.consumed_of_violations? h
  obtain ⟨spans, hmarks, hapart, _⟩ :=
    hconsumed.exists_spans (framed_tokens document) (List.suffix_refl _)
  refine ⟨spans, hmarks, ?_, hapart, ?_⟩
  · -- An element has a token, so that what comes after it begins later.
    rw [List.pairwise_map]
    refine hapart.imp_of_mem ?_
    intro a b ha _ hle
    obtain ⟨violation, _, hmark⟩ := Schema.exists_left_of_forall₂ hmarks ha
    exact Nat.lt_of_lt_of_le hmark.lt hle
  · intro violation hviolation
    obtain ⟨span, _, hmark⟩ := Schema.exists_right_of_forall₂ hmarks hviolation
    obtain ⟨t, _, _, hfound, _⟩ := hmark.token
    rw [hfound]
    exact display_ne_end t.token

/-- Two items are rejected, one for what is in it and one as a whole. -/
theorem shared_violations_mark_elements :
    ∃ v found, Validator.ofGrammar sharedGrammar = .ok v ∧
      v.violations? (.sequence [.sequence [.scalar "one", .sequence [.scalar "two"]],
        .mapping [("two", .scalar "two")], .sequence []]) = some found ∧
      found.map Violation.path = ["/0/1", "/1"] ∧
      ∃ spans : List (Nat × Nat), List.Forall₂ (Marks (Node.tokens (.sequence
          [.sequence [.scalar "one", .sequence [.scalar "two"]],
            .mapping [("two", .scalar "two")], .sequence []]))) found spans ∧
        spans.Pairwise (fun a b => a.2 ≤ b.1) := by
  have hfound : (Validator.prepared sharedGrammar).violations?
      (.sequence [.sequence [.scalar "one", .sequence [.scalar "two"]],
        .mapping [("two", .scalar "two")], .sequence []])
      = some [{ path := "/0/1", found := "sequence", expected := ["\"one\""], rule := "ones" },
          { path := "/1", found := "mapping", expected := ["'['"], rule := "list" }] := by
    decide +kernel
  obtain ⟨spans, hmarks, _, hapart, _⟩ := violations_mark_elements hfound
  exact ⟨_, _, ofGrammar_shared, hfound, rfl, spans, hmarks, hapart⟩

end TreeSchema.Validation
