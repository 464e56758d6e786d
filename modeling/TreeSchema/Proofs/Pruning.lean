import TreeSchema.Proofs.EndToEnd
/-
  Cutting out what is reported

  A document from which every reported item and entry has been cut out has
  nothing wrong with it (`conforms_pruneAt`): what a validator reports of one
  part does not hide what is wrong with another. Cutting moves later items
  forward, which is why paths are taken in the whole document and the walk
  over what is left never looks at them.

  Only a document that is reported as a whole cannot be mended in this way,
  and then nothing else is reported of it.
-/

namespace TreeSchema

mutual

/-- A tree at `path` without the items and entries whose paths are among
`gone`. -/
def Node.pruneAt (gone : List String) (path : String) : Node → Node
  | .scalar text => .scalar text
  | .sequence items => .sequence (pruneItems gone path 0 items)
  | .mapping entries => .mapping (pruneEntries gone path entries)
termination_by structural n => n

/-- `Node.pruneAt` for the items of a sequence at `path`, the first of which
has number `index`. -/
def pruneItems (gone : List String) (path : String) (index : Nat) : List Node → List Node
  | [] => []
  | n :: rest =>
    let here := Path.child path (toString index)
    -- Later items keep the numbers they had.
    if here ∈ gone then pruneItems gone path (index + 1) rest
    else n.pruneAt gone here :: pruneItems gone path (index + 1) rest
termination_by structural l => l

def pruneEntries (gone : List String) (path : String) :
    List (String × Node) → List (String × Node)
  | [] => []
  | (key, n) :: rest =>
    let here := Path.child path key
    if here ∈ gone then pruneEntries gone path rest
    else (key, n.pruneAt gone here) :: pruneEntries gone path rest
termination_by structural l => l

end

/-- A document without the items and entries whose paths are among `gone`. -/
def Node.prune (gone : List String) (n : Node) : Node := n.pruneAt gone Path.root

theorem Path.escapeSegment_ne_nil {segment : String} (h : segment ≠ "") :
    (Path.escapeSegment segment).toList ≠ [] := by
  obtain ⟨c, rest, hchars⟩ :=
    List.exists_cons_of_ne_nil fun hnil => h (String.toList_eq_nil_iff.mp hnil)
  rw [Path.toList_escapeSegment, hchars, List.flatMap_cons, Path.escapeChar]
  split
  · simp
  · split <;> simp

theorem Path.child_ne_root {segment : String} (h : segment ≠ "") (parent : String) :
    Path.child parent segment ≠ Path.root := by
  have hescaped := Path.escapeSegment_ne_nil h
  intro hroot
  -- A path below another has a slash and then a character of its segment.
  have hchars := congrArg String.toList hroot
  unfold Path.child at hchars
  split at hchars
  · rw [String.toList_append] at hchars
    exact hescaped (List.cons.inj hchars).2
  · rw [String.toList_append, String.toList_append, List.append_assoc] at hchars
    have hlength := congrArg List.length hchars
    rw [List.length_append, List.length_append] at hlength
    have hpos := List.length_pos_iff.mpr hescaped
    change _ + (1 + _) = 1 at hlength
    omega

namespace Schema

open Validation
open Grammar (isIdentifier)

section
variable {ι : Type} {meaning : ι → Pattern ι} {label : ι → String}

theorem mem_getD_misfit {verdict : Option (List Violation)} {v w : Violation}
    (h : v ∈ verdict.getD [w]) : (∃ vs, verdict = some vs ∧ v ∈ vs) ∨ v = w := by
  cases verdict with
  | none => exact Or.inr (List.mem_singleton.mp h)
  | some vs => exact Or.inl ⟨vs, rfl, h⟩

/-- An item that is not reported as a whole is judged as one of the members. -/
theorem itemVerdict_eq_some {members : List ι} {n : Node}
    {verdict : ι → Option (List Violation)} {vs : List Violation}
    (h : itemVerdict members n verdict = some vs) :
    (members = [] ∧ vs = [] ∧ ∃ text, n = .scalar text) ∨
      ∃ i ∈ members, verdict i = some vs := by
  unfold itemVerdict at h
  split at h
  · next hempty =>
    obtain ⟨hvs, hscalar⟩ := scalarOnly_eq_some_iff.mp h
    exact Or.inl ⟨List.isEmpty_iff.mp hempty, hvs, hscalar⟩
  · exact Or.inr (List.mem_filterMap.mp (List.minOn?_mem h))

theorem entryVerdict_eq_some {members : List (String × ι)} {key : String} {n : Node}
    {verdict : ι → Option (List Violation)} {vs : List Violation}
    (h : entryVerdict members key n verdict = some vs) :
    (members = [] ∧ vs = [] ∧ ∃ text, n = .scalar text) ∨
      ∃ i, (key, i) ∈ members ∧ verdict i = some vs := by
  unfold entryVerdict at h
  split at h
  · next hempty =>
    obtain ⟨hvs, hscalar⟩ := scalarOnly_eq_some_iff.mp h
    exact Or.inl ⟨List.isEmpty_iff.mp hempty, hvs, hscalar⟩
  · obtain ⟨⟨name, i⟩, hfind, hverdict⟩ := Option.bind_eq_some_iff.mp h
    have hname : name = key := by simpa using List.find?_some hfind
    subst hname
    exact Or.inr ⟨i, List.mem_of_find?_eq_some hfind, hverdict⟩

/-! ## What is left conforms -/

theorem itemConforms_pruneItems {gone : List String} {rule path : String} {members : List ι}
    {items : List Node}
    (ih : ∀ n ∈ items, ∀ path i vs, check meaning label path n i = some vs →
      (∀ v ∈ vs, v.path ∈ gone) → Conforms meaning (n.pruneAt gone path) i) {index : Nat}
    (h : ∀ v ∈ checkItems meaning label rule members path index items, v.path ∈ gone) :
    ∀ n ∈ pruneItems gone path index items, ItemConforms meaning members n := by
  induction items generalizing index with
  | nil =>
    intro n hn
    cases hn
  | cons m rest ihrest =>
    rw [checkItems, List.forall_mem_append] at h
    have hrest := ihrest (fun n hn => ih n (List.mem_cons_of_mem m hn)) h.2
    rw [pruneItems]
    split
    · exact hrest
    · next hkept =>
      intro n hn
      rcases List.mem_cons.mp hn with rfl | hn
      · cases hverdict : itemVerdict members m
            (check meaning label (Path.child path (toString index)) m) with
        | none =>
          -- The item would have been reported as a whole, and cut out.
          rw [hverdict] at h
          exact absurd (h.1 _ (List.mem_singleton_self _)) hkept
        | some vs =>
          rw [hverdict] at h
          rcases itemVerdict_eq_some hverdict with ⟨rfl, _, text, rfl⟩ | ⟨i, hi, hcheck⟩
          · exact .scalar
          · exact .member hi (ih m List.mem_cons_self _ i vs hcheck h.1)
      · exact hrest n hn

theorem entryConforms_pruneEntries {gone : List String} {rule path : String}
    {members : List (String × ι)} {entries : List (String × Node)}
    (ih : ∀ e ∈ entries, ∀ path i vs, check meaning label path e.2 i = some vs →
      (∀ v ∈ vs, v.path ∈ gone) → Conforms meaning (e.2.pruneAt gone path) i)
    (h : ∀ v ∈ checkEntries meaning label rule members path entries, v.path ∈ gone) :
    ∀ e ∈ pruneEntries gone path entries, EntryConforms meaning members e := by
  induction entries with
  | nil =>
    intro e he
    cases he
  | cons entry rest ihrest =>
    obtain ⟨key, m⟩ := entry
    rw [checkEntries, List.forall_mem_append] at h
    have hrest := ihrest (fun f hf => ih f (List.mem_cons_of_mem _ hf)) h.2
    rw [pruneEntries]
    split
    · exact hrest
    · next hkept =>
      intro e he
      rcases List.mem_cons.mp he with rfl | he
      · cases hverdict : entryVerdict members key m
            (check meaning label (Path.child path key) m) with
        | none =>
          rw [hverdict] at h
          exact absurd (h.1 _ (List.mem_singleton_self _)) hkept
        | some vs =>
          rw [hverdict] at h
          rcases entryVerdict_eq_some hverdict with ⟨rfl, _, text, rfl⟩ | ⟨i, hi, hcheck⟩
          · exact .scalar
          · exact .member hi (ih (key, m) List.mem_cons_self _ i vs hcheck h.1)
      · exact hrest e he

/-- If everything that is wrong inside a tree is cut out, and whatever else,
then what is left conforms. -/
theorem conforms_pruneAt {gone : List String} {n : Node} {path : String} {i : ι}
    {vs : List Violation} (hcheck : check meaning label path n i = some vs)
    (hgone : ∀ v ∈ vs, v.path ∈ gone) : Conforms meaning (n.pruneAt gone path) i := by
  induction n using Node.induction generalizing path i vs with
  | scalar text =>
    rw [check] at hcheck
    split at hcheck
    · next hbegins => exact conforms_scalar_iff.mpr (Pattern.begins_scalar_iff.mp hbegins)
    · cases hcheck
  | sequence items ih =>
    rw [check] at hcheck
    split at hcheck
    · next hbegins =>
      obtain ⟨members, hm⟩ := Pattern.begins_openSequence_iff.mp hbegins
      rw [hm] at hcheck
      cases hcheck
      rw [Node.pruneAt]
      exact .array hm (itemConforms_pruneItems (fun n hn path i vs => ih n hn) hgone)
    · cases hcheck
  | mapping entries ih =>
    rw [check] at hcheck
    split at hcheck
    · next hbegins =>
      obtain ⟨members, hm⟩ := Pattern.begins_openMapping_iff.mp hbegins
      rw [hm] at hcheck
      cases hcheck
      rw [Node.pruneAt]
      exact .mapping hm (entryConforms_pruneEntries (fun e he path i vs => ih e he) hgone)
    · cases hcheck

/-! ## Nothing inside a document stands at its root -/

theorem path_ne_root_of_mem_check {n : Node} (hkeys : TreeToken.key "" ∉ n.word) {path : String}
    {i : ι} {vs : List Violation} (hcheck : check meaning label path n i = some vs) :
    ∀ v ∈ vs, v.path ≠ Path.root := by
  induction n using Node.induction generalizing path i vs with
  | scalar text =>
    rw [check] at hcheck
    split at hcheck
    · cases hcheck
      exact fun v hv => absurd hv List.not_mem_nil
    · cases hcheck
  | sequence items ih =>
    rw [check] at hcheck
    split at hcheck
    · cases hcheck
      intro v hv
      rw [checkItems_eq_flatMap] at hv
      obtain ⟨⟨m, index⟩, hmem, hv⟩ := List.mem_flatMap.mp hv
      have hm : m ∈ items := List.fst_mem_of_mem_zipIdx hmem
      rcases mem_getD_misfit hv with ⟨vs, hverdict, hv⟩ | rfl
      · rcases itemVerdict_eq_some hverdict with ⟨_, rfl, _⟩ | ⟨k, _, hcheck⟩
        · cases hv
        · refine ih m hm (fun hempty => hkeys ?_) hcheck v hv
          rw [Node.word_sequence]
          simp only [List.mem_append, List.mem_cons, List.mem_flatMap]
          exact Or.inl (Or.inr ⟨m, hm, hempty⟩)
      · exact Path.child_ne_root (by simp) path
    · cases hcheck
  | mapping entries ih =>
    rw [check] at hcheck
    split at hcheck
    · cases hcheck
      intro v hv
      rw [checkEntries_eq_flatMap] at hv
      obtain ⟨⟨key, m⟩, hmem, hv⟩ := List.mem_flatMap.mp hv
      have hpart : ∀ t ∈ TreeToken.key key :: m.word, t ∈ (Node.mapping entries).word := by
        intro t ht
        rw [Node.word_mapping]
        simp only [List.mem_append, List.mem_cons, List.mem_flatMap]
        exact Or.inl (Or.inr ⟨(key, m), hmem, by simpa using ht⟩)
      rcases mem_getD_misfit hv with ⟨vs, hverdict, hv⟩ | rfl
      · rcases entryVerdict_eq_some hverdict with ⟨_, rfl, _⟩ | ⟨k, _, hcheck⟩
        · cases hv
        · exact ih (key, m) hmem (fun hempty => hkeys (hpart _ (List.mem_cons_of_mem _ hempty)))
            hcheck v hv
      · refine Path.child_ne_root (fun hempty : key = "" => hkeys (hpart _ ?_)) path
        rw [hempty]
        exact List.mem_cons_self
    · cases hcheck

end

/-- If nothing is reported at the root of a document, then a document from
which the reported items and entries have been cut out has no violations. If
something is, and no key is empty, then nothing else is reported. -/
theorem violations_prune_reported {file source text : String} {options : Options}
    (hname : isIdentifier options.name = true) (h : compile file source options = .ok text) :
    ∃ v, Validator.ofText text = .ok v ∧
      ∀ n, ∃ found, v.violations? n = some found ∧
        (Path.root ∉ found.map Violation.path →
          v.violations? (n.prune (found.map Violation.path)) = some []) ∧
        (TreeToken.key "" ∉ n.word → Path.root ∈ found.map Violation.path →
          found.length = 1) := by
  obtain ⟨_, _, s, v, _, _, _, hcloses, hdesc, hv, hfound⟩ := exists_resolved_of_compile hname h
  refine ⟨v, hv, fun n => ⟨_, hfound n, fun hroot => ?_, fun hkeys hroot => ?_⟩⟩
  · rw [hfound, Option.some.injEq, treeViolations_eq_nil_iff hdesc hcloses.present_root]
    unfold treeViolations at hroot ⊢
    cases hcheck : check s.pattern s.nonterminalAt Path.root n s.root with
    | none =>
      rw [hcheck] at hroot
      exact absurd List.mem_cons_self hroot
    | some vs => exact conforms_pruneAt hcheck fun v hv => List.mem_map_of_mem hv
  · unfold treeViolations at hroot ⊢
    cases hcheck : check s.pattern s.nonterminalAt Path.root n s.root with
    | none => rfl
    | some vs =>
      rw [hcheck] at hroot
      obtain ⟨v, hv, hpath⟩ := List.mem_map.mp hroot
      exact absurd hpath (path_ne_root_of_mem_check hkeys hcheck v hv)

/-- A document of `nestedSource` with a leaf too many, a value that is no
scalar and a key that is not declared. -/
def overgrown : Node :=
  .mapping
    [("below", .sequence [.scalar "y", .scalar "z", .mapping [("value", .sequence [])]]),
     ("extra", .scalar "y")]

theorem overgrown_violations_prune :
    ∃ text v found, compile nestedFile nestedSource { name := "Tree" } = .ok text ∧
      Validator.ofText text = .ok v ∧ v.violations? overgrown = some found ∧
      found.map Violation.path = ["/below/1", "/below/2/value", "/extra"] ∧
      v.violations? (.mapping [("below", .sequence [.scalar "y", .mapping []])]) = some [] := by
  obtain ⟨text, v, hcompile, hv, hfound⟩ := exists_validator_nested
  have hpaths : (treeViolations nested.pattern nested.nonterminalAt nested.root overgrown).map
      Violation.path = ["/below/1", "/below/2/value", "/extra"] := by
    decide +kernel
  obtain ⟨w, hw, hprune⟩ := violations_prune_reported (by decide) hcompile
  rw [hv] at hw
  cases hw
  obtain ⟨found, hsome, hclean, _⟩ := hprune overgrown
  rw [hfound, Option.some.injEq] at hsome
  subst hsome
  rw [hpaths] at hclean
  exact ⟨_, v, _, hcompile, hv, hfound overgrown, hpaths, hclean (by decide)⟩

end Schema

end TreeSchema
