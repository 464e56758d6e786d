import TreeSchema.Proofs.Linearization
import TreeSchema.Proofs.Pruning
/-
  Paths of elements

  A path is built up segment by segment, and at the root the slash between
  the path and its segment is left out. So empty segments right below the
  root leave no trace, and every other segment does: the escaped segments
  hold no slash and can be read back, so that a path tells its segments from
  the first that is not empty on (`Path.ofSegments_eq_iff`).

  An element is told by its position, the numbers of the parts that lead to
  it from the root. If no key is empty, two elements of a tree never have one
  path. Each token of the stream has the path of the segments that lead to
  its element (`forall₂_tokens_marks`).
-/

namespace TreeSchema

/-! ## Segments -/

namespace Path

theorem slash_notMem_escapeSegment (segment : String) :
    '/' ∉ (escapeSegment segment).toList := by
  intro hmem
  rw [toList_escapeSegment] at hmem
  obtain ⟨c, _, hc⟩ := List.mem_flatMap.mp hmem
  unfold escapeChar at hc
  split at hc
  · simp at hc
  · split at hc
    · simp at hc
    · next hslash => exact hslash (List.mem_singleton.mp hc).symm

def unescapeSegment : List Char → List Char
  | '~' :: '0' :: rest => '~' :: unescapeSegment rest
  | '~' :: '1' :: rest => '/' :: unescapeSegment rest
  | c :: rest => c :: unescapeSegment rest
  | [] => []

theorem unescapeSegment_cons {c : Char} (hc : c ≠ '~') (rest : List Char) :
    unescapeSegment (c :: rest) = c :: unescapeSegment rest := by
  rw [unescapeSegment]
  · intro _ h
    exact absurd h hc
  · intro _ h
    exact absurd h hc

theorem unescapeSegment_escapeSegment (segment : String) :
    unescapeSegment (escapeSegment segment).toList = segment.toList := by
  rw [toList_escapeSegment]
  induction segment.toList with
  | nil => rfl
  | cons c rest ih =>
    rw [List.flatMap_cons, escapeChar]
    by_cases htilde : c = '~'
    · simp [htilde, unescapeSegment, ih]
    · by_cases hslash : c = '/'
      · simp [hslash, unescapeSegment, ih]
      · simp [htilde, hslash, unescapeSegment_cons, ih]

theorem escapeSegment_injective {s t : String}
    (h : (escapeSegment s).toList = (escapeSegment t).toList) : s = t := by
  have hchars := congrArg unescapeSegment h
  rw [unescapeSegment_escapeSegment, unescapeSegment_escapeSegment] at hchars
  exact String.toList_injective hchars

/-! ## Paths of segments -/

/-- The path that segments lead to from the root. -/
def ofSegments (segments : List String) : String := segments.foldl child root

/-- A segment as it stands in a path, with the slash before it. -/
def trace (segment : String) : List Char := '/' :: (escapeSegment segment).toList

theorem ofSegments_append (segments : List String) (segment : String) :
    ofSegments (segments ++ [segment]) = child (ofSegments segments) segment := by
  simp [ofSegments]

theorem ofSegments_empty_cons (segments : List String) :
    ofSegments ("" :: segments) = ofSegments segments := rfl

theorem toList_child_root (segment : String) : (child root segment).toList = trace segment := by
  simp [child, trace]

/-- Only the root has no more than its slash. -/
theorem toList_child {parent : String} (h : 1 < parent.length) (segment : String) :
    (child parent segment).toList = parent.toList ++ trace segment := by
  have hroot : parent ≠ root := by
    rintro rfl
    exact absurd h (by decide)
  simp [child, hroot, trace]

theorem toList_foldl_child (segments : List String) {parent : String} (h : 1 < parent.length) :
    (segments.foldl child parent).toList = parent.toList ++ segments.flatMap trace := by
  induction segments generalizing parent with
  | nil => simp
  | cons segment rest ih =>
    have hchild : 1 < (child parent segment).length := by
      rw [← String.length_toList, toList_child h, List.length_append, String.length_toList]
      omega
    rw [List.foldl_cons, ih hchild, toList_child h, List.flatMap_cons, List.append_assoc]

/-- From the first segment that is not empty on, every segment leaves its
trace. -/
theorem toList_ofSegments_cons {segment : String} (h : segment ≠ "") (rest : List String) :
    (ofSegments (segment :: rest)).toList = (segment :: rest).flatMap trace := by
  have hne := escapeSegment_ne_nil h
  have hlength : 1 < (child root segment).length := by
    rw [← String.length_toList, toList_child_root, trace, List.length_cons]
    have := List.length_pos_iff.mpr hne
    omega
  rw [ofSegments, List.foldl_cons, toList_foldl_child rest hlength, toList_child_root,
    List.flatMap_cons]

theorem flatMap_trace_head? (segments : List String) :
    segments.flatMap trace = [] ∨ (segments.flatMap trace).head? = some '/' := by
  cases segments with
  | nil => exact Or.inl rfl
  | cons segment rest => exact Or.inr rfl

/-- The traces tell the segments: each begins with a slash and holds no
other. -/
theorem flatMap_trace_injective {s t : List String} (h : s.flatMap trace = t.flatMap trace) :
    s = t := by
  induction s generalizing t with
  | nil =>
    cases t with
    | nil => rfl
    | cons b t => simp [trace] at h
  | cons a s ih =>
    cases t with
    | nil => simp [trace] at h
    | cons b t =>
      simp only [List.flatMap_cons, trace, List.cons_append, List.cons.injEq, true_and] at h
      obtain ⟨hfirst, hrest⟩ := Schema.append_inj_of_not_mem (slash_notMem_escapeSegment _)
        (slash_notMem_escapeSegment _) (flatMap_trace_head? s) (flatMap_trace_head? t) h
      rw [escapeSegment_injective hfirst, ih hrest]

theorem ofSegments_dropWhile (segments : List String) :
    ofSegments (segments.dropWhile (· = "")) = ofSegments segments := by
  induction segments with
  | nil => rfl
  | cons segment rest ih =>
    by_cases hempty : segment = ""
    · subst hempty
      rw [List.dropWhile_cons_of_pos (by simp), ih, ofSegments_empty_cons]
    · rw [List.dropWhile_cons_of_neg (by simpa using hempty)]

/-- A list of segments leads to the root, or is told by its traces, once its
leading empty segments are dropped. -/
theorem dropWhile_cases (segments : List String) :
    segments.dropWhile (· = "") = [] ∨
      ∃ segment rest, segment ≠ "" ∧ segments.dropWhile (· = "") = segment :: rest := by
  cases h : segments.dropWhile (· = "") with
  | nil => exact Or.inl rfl
  | cons segment rest =>
    have hhead := List.head_dropWhile_not (· = "") (l := segments) (by rw [h]; simp)
    simp only [h, List.head_cons, decide_eq_false_iff_not] at hhead
    exact Or.inr ⟨segment, rest, hhead, rfl⟩

theorem ofSegments_cons_ne_root {segment : String} (h : segment ≠ "") (rest : List String) :
    ofSegments (segment :: rest) ≠ ofSegments [] := by
  intro hroot
  have hne := escapeSegment_ne_nil h
  have hchars := congrArg String.toList hroot
  rw [toList_ofSegments_cons h, List.flatMap_cons] at hchars
  have hempty : (escapeSegment segment).toList ++ rest.flatMap trace = [] :=
    (List.cons.inj hchars).2
  exact hne (List.append_eq_nil_iff.mp hempty).1

/-- Two lists of segments lead to one path just if they differ only in empty
segments at their heads. -/
theorem ofSegments_eq_iff (s t : List String) :
    ofSegments s = ofSegments t ↔ s.dropWhile (· = "") = t.dropWhile (· = "") := by
  rw [← ofSegments_dropWhile s, ← ofSegments_dropWhile t]
  constructor
  · intro h
    rcases dropWhile_cases s with hs | ⟨a, s', ha, hs⟩
    · rcases dropWhile_cases t with ht | ⟨b, t', hb, ht⟩
      · rw [hs, ht]
      · rw [hs, ht] at h
        exact absurd h.symm (ofSegments_cons_ne_root hb t')
    · rcases dropWhile_cases t with ht | ⟨b, t', hb, ht⟩
      · rw [hs, ht] at h
        exact absurd h (ofSegments_cons_ne_root ha s')
      · rw [hs, ht] at h ⊢
        have hchars := congrArg String.toList h
        rw [toList_ofSegments_cons ha, toList_ofSegments_cons hb] at hchars
        exact flatMap_trace_injective hchars
  · intro h
    rw [h]

end Path

/-! ## Elements and their positions -/

namespace Node

/-- The part of a container with a number, and the segment it stands under. -/
def part? : Node → Nat → Option (String × Node)
  | scalar _, _ => none
  | sequence items, i => items[i]?.map fun n => (toString i, n)
  | mapping entries, i => entries[i]?

/-- The segments that lead from a tree to the element at a position, and the
element. A position lists the numbers of the parts on the way. -/
def reach? : Node → List Nat → Option (List String × Node)
  | n, [] => some ([], n)
  | n, i :: rest =>
    (n.part? i).bind fun step =>
      (step.2.reach? rest).map fun found => (step.1 :: found.1, found.2)

end Node

mutual

/-- The tokens of the element at `position`, each with the position of its
own element. A key belongs to the element of its value. -/
def Node.marksAt (position : List Nat) : Node → List (TreeToken × List Nat)
  | .scalar text => [(.scalar text, position)]
  | .sequence items =>
    (.openSequence, position) :: itemMarks position 0 items ++ [(.closeSequence, position)]
  | .mapping entries =>
    (.openMapping, position) :: entryMarks position 0 entries ++ [(.closeMapping, position)]
termination_by structural n => n

/-- `Node.marksAt` for the items of the sequence at `position`, the first of
which has number `index`. -/
def itemMarks (position : List Nat) (index : Nat) : List Node → List (TreeToken × List Nat)
  | [] => []
  | n :: rest => n.marksAt (position ++ [index]) ++ itemMarks position (index + 1) rest
termination_by structural l => l

/-- `Node.marksAt` for the entries of the mapping at `position`, the first of
which has number `index`. -/
def entryMarks (position : List Nat) (index : Nat) :
    List (String × Node) → List (TreeToken × List Nat)
  | [] => []
  | (key, n) :: rest =>
    (.key key, position ++ [index]) :: n.marksAt (position ++ [index])
      ++ entryMarks position (index + 1) rest
termination_by structural l => l

end

/-- The tokens of a document, each with the position of its element. -/
def Node.marks (n : Node) : List (TreeToken × List Nat) := n.marksAt []

namespace Node

theorem reach?_cons_eq_some_iff {n part : Node} {i : Nat} {rest : List Nat}
    {segments : List String} :
    n.reach? (i :: rest) = some (segments, part) ↔
      ∃ segment m others, n.part? i = some (segment, m) ∧ m.reach? rest = some (others, part) ∧
        segments = segment :: others := by
  rw [reach?]
  constructor
  · intro h
    obtain ⟨⟨segment, m⟩, hpart, h⟩ := Option.bind_eq_some_iff.mp h
    obtain ⟨⟨others, found⟩, hrest, heq⟩ := Option.map_eq_some_iff.mp h
    cases heq
    exact ⟨segment, m, others, hpart, hrest, rfl⟩
  · intro h
    obtain ⟨segment, m, others, hpart, hrest, rfl⟩ := h
    simp [hpart, hrest]

/-- One step further from an element. -/
theorem reach?_concat {n part m : Node} {position : List Nat} {segments : List String} {i : Nat}
    {segment : String} (h : n.reach? position = some (segments, part))
    (hpart : part.part? i = some (segment, m)) :
    n.reach? (position ++ [i]) = some (segments ++ [segment], m) := by
  induction position generalizing n segments with
  | nil =>
    cases h
    exact reach?_cons_eq_some_iff.mpr ⟨segment, m, [], hpart, rfl, rfl⟩
  | cons j rest ih =>
    obtain ⟨first, next, others, hfirst, hrest, rfl⟩ := reach?_cons_eq_some_iff.mp h
    exact reach?_cons_eq_some_iff.mpr ⟨first, next, _, hfirst, ih hrest, rfl⟩

/-- A part with its segment is an item with its number or an entry. -/
theorem part?_cases {n m : Node} {i : Nat} {segment : String}
    (h : n.part? i = some (segment, m)) :
    (∃ items, n = .sequence items ∧ items[i]? = some m ∧ segment = toString i) ∨
      ∃ entries, n = .mapping entries ∧ entries[i]? = some (segment, m) := by
  cases n with
  | scalar text => cases h
  | sequence items =>
    obtain ⟨found, hfound, heq⟩ := Option.map_eq_some_iff.mp h
    cases heq
    exact Or.inl ⟨items, rfl, hfound, rfl⟩
  | mapping entries => exact Or.inr ⟨entries, rfl, h⟩

theorem Ordered.part? {n m : Node} {i : Nat} {segment : String} (hn : n.Ordered)
    (h : n.part? i = some (segment, m)) : m.Ordered := by
  apply hn.of_inside
  rcases part?_cases h with ⟨items, rfl, hm, _⟩ | ⟨entries, rfl, hm⟩
  · exact .item (List.mem_of_getElem? hm) .self
  · exact .value (List.mem_of_getElem? hm) .self

/-- The number of a part can be told from its segment. -/
theorem Ordered.part?_inj {n m m' : Node} {i j : Nat} {segment : String} (hn : n.Ordered)
    (hi : n.part? i = some (segment, m)) (hj : n.part? j = some (segment, m')) : i = j := by
  rcases part?_cases hi with ⟨items, rfl, _, hi⟩ | ⟨entries, rfl, hentry⟩
  · rcases part?_cases hj with ⟨_, _, _, hj⟩ | ⟨_, hother, _⟩
    · have hdigits : (toString i).toList = (toString j).toList := by rw [← hi, ← hj]
      rw [Nat.toString_eq_repr, Nat.toString_eq_repr, Nat.toList_repr, Nat.toList_repr] at hdigits
      calc i = Nat.ofDigitChars 10 (Nat.toDigits 10 i) 0 := Nat.ofDigitChars_ten_toDigits.symm
        _ = Nat.ofDigitChars 10 (Nat.toDigits 10 j) 0 := by rw [hdigits]
        _ = j := Nat.ofDigitChars_ten_toDigits
    · cases hother
  · rw [Ordered] at hn
    have hkeys : (entries.map Prod.fst).Nodup := hn.1.imp fun hlt heq => by
      subst heq
      exact Std.lt_irrefl hlt
    have hkey : ∀ (k : Nat) (x : Node), entries[k]? = some (segment, x) →
        (entries.map Prod.fst)[k]? = some segment := by
      intro k x hk
      simp [hk]
    obtain ⟨hilt, hieq⟩ := List.getElem?_eq_some_iff.mp (hkey i m hentry)
    obtain ⟨hjlt, hjeq⟩ := List.getElem?_eq_some_iff.mp (hkey j m' hj)
    exact hkeys.getElem_inj_iff.mp (hieq.trans hjeq.symm)

/-- A position can be told from the segments that lead to it. -/
theorem Ordered.reach?_inj {n a b : Node} {p q : List Nat} {segments : List String}
    (hn : n.Ordered) (hp : n.reach? p = some (segments, a))
    (hq : n.reach? q = some (segments, b)) : p = q := by
  induction p generalizing n q segments with
  | nil =>
    cases hp
    cases q with
    | nil => rfl
    | cons j q =>
      obtain ⟨_, _, _, _, _, hnil⟩ := reach?_cons_eq_some_iff.mp hq
      cases hnil
  | cons i p ih =>
    obtain ⟨segment, m, others, hpart, hrest, rfl⟩ := reach?_cons_eq_some_iff.mp hp
    cases q with
    | nil => cases hq
    | cons j q =>
      obtain ⟨_, m', _, hpart', hrest', heq⟩ := reach?_cons_eq_some_iff.mp hq
      cases heq
      obtain rfl := hn.part?_inj hpart hpart'
      rw [hpart] at hpart'
      cases hpart'
      rw [ih (hn.part? hpart) hrest hrest']

theorem segment_ne_empty {n m : Node} {i : Nat} {segment : String}
    (hkeys : TreeToken.key "" ∉ n.word) (h : n.part? i = some (segment, m)) : segment ≠ "" := by
  rcases part?_cases h with ⟨items, rfl, _, rfl⟩ | ⟨entries, rfl, hm⟩
  · rw [Nat.toString_eq_repr]
    exact Nat.repr_ne_empty
  · rintro rfl
    apply hkeys
    simp only [word_mapping, List.mem_append, List.mem_cons, List.mem_flatMap]
    exact Or.inl (Or.inr ⟨_, List.mem_of_getElem? hm, Or.inl rfl⟩)

/-- If no key is empty, no segment on the way to an element is. -/
theorem dropWhile_of_reach? {n part : Node} {position : List Nat} {segments : List String}
    (hkeys : TreeToken.key "" ∉ n.word) (h : n.reach? position = some (segments, part)) :
    segments.dropWhile (· = "") = segments := by
  cases position with
  | nil =>
    cases h
    rfl
  | cons i rest =>
    obtain ⟨segment, m, others, hpart, _, rfl⟩ := reach?_cons_eq_some_iff.mp h
    exact List.dropWhile_cons_of_neg (by simpa using segment_ne_empty hkeys hpart)

end Node

/-! ## Tokens and their elements -/

/-- The token is the one of the mark, and its path is that of the segments
that lead to the element of the mark. -/
def Stands (n : Node) (t : PlacedToken) (mark : TreeToken × List Nat) : Prop :=
  t.token = mark.1 ∧
    ∃ segments part, n.reach? mark.2 = some (segments, part) ∧ t.path = Path.ofSegments segments

section
variable {n : Node} {position : List Nat} {segments : List String}

theorem forall₂_itemTokens {items : List Node} {index : Nat}
    (ih : ∀ m ∈ items, ∀ position segments, n.reach? position = some (segments, m) →
      List.Forall₂ (Stands n) (m.tokensAt (Path.ofSegments segments)) (m.marksAt position))
    (h : ∀ k m, items[k]? = some m →
      n.reach? (position ++ [index + k]) = some (segments ++ [toString (index + k)], m)) :
    List.Forall₂ (Stands n) (itemTokens (Path.ofSegments segments) index items)
      (itemMarks position index items) := by
  induction items generalizing index with
  | nil => exact .nil
  | cons m rest ihrest =>
    rw [itemTokens, itemMarks, ← Path.ofSegments_append]
    apply List.rel_append
    · exact ih m List.mem_cons_self _ _ (h 0 m rfl)
    · refine ihrest (fun k hk => ih k (List.mem_cons_of_mem _ hk)) fun k m' hm' => ?_
      have hstep := h (k + 1) m' hm'
      rwa [show index + (k + 1) = index + 1 + k by omega] at hstep

theorem forall₂_entryTokens {entries : List (String × Node)} {index : Nat}
    (ih : ∀ e ∈ entries, ∀ position segments, n.reach? position = some (segments, e.2) →
      List.Forall₂ (Stands n) (e.2.tokensAt (Path.ofSegments segments)) (e.2.marksAt position))
    (h : ∀ k e, entries[k]? = some e →
      n.reach? (position ++ [index + k]) = some (segments ++ [e.1], e.2)) :
    List.Forall₂ (Stands n) (entryTokens (Path.ofSegments segments) entries)
      (entryMarks position index entries) := by
  induction entries generalizing index with
  | nil => exact .nil
  | cons e rest ihrest =>
    obtain ⟨key, m⟩ := e
    have hfirst := h 0 (key, m) rfl
    rw [entryTokens, entryMarks, ← Path.ofSegments_append]
    apply List.rel_append
    · exact .cons ⟨rfl, _, m, hfirst, rfl⟩ (ih (key, m) List.mem_cons_self _ _ hfirst)
    · refine ihrest (fun f hf => ih f (List.mem_cons_of_mem _ hf)) fun k f hf => ?_
      have hstep := h (k + 1) f hf
      rwa [show index + (k + 1) = index + 1 + k by omega] at hstep

theorem forall₂_tokensAt {part : Node} (h : n.reach? position = some (segments, part)) :
    List.Forall₂ (Stands n) (part.tokensAt (Path.ofSegments segments))
      (part.marksAt position) := by
  induction part using Node.induction generalizing position segments with
  | scalar text => exact .cons ⟨rfl, segments, _, h, rfl⟩ .nil
  | sequence items ih =>
    rw [Node.tokensAt, Node.marksAt, List.cons_append, List.cons_append]
    refine .cons ⟨rfl, segments, _, h, rfl⟩ (List.rel_append ?_ ?_)
    · refine forall₂_itemTokens (fun m hm position segments => ih m hm) fun k m hm => ?_
      rw [Nat.zero_add]
      exact Node.reach?_concat h (by simp [Node.part?, hm])
    · exact .cons ⟨rfl, segments, _, h, rfl⟩ .nil
  | mapping entries ih =>
    rw [Node.tokensAt, Node.marksAt, List.cons_append, List.cons_append]
    refine .cons ⟨rfl, segments, _, h, rfl⟩ (List.rel_append ?_ ?_)
    · refine forall₂_entryTokens (fun e he position segments => ih e he) fun k e he => ?_
      rw [Nat.zero_add]
      exact Node.reach?_concat h he
    · exact .cons ⟨rfl, segments, _, h, rfl⟩ .nil

end

/-- Every token of a document has the path of its element. -/
theorem forall₂_tokens_marks (n : Node) : List.Forall₂ (Stands n) n.tokens n.marks := by
  have hroot : n.reach? [] = some ([], n) := rfl
  exact forall₂_tokensAt hroot

/-- Segments lead to one path just if they are equal from the first on that is
not empty. In a document without empty keys, elements at different positions
therefore have different paths, and in every tree the path of a token is that
of the segments that lead to its element. -/
theorem paths_identify_elements (n : Node) (d : Document) :
    (∀ s t : List String, Path.ofSegments s = Path.ofSegments t ↔
      s.dropWhile (· = "") = t.dropWhile (· = "")) ∧
    (TreeToken.key "" ∉ d.node.word → ∀ p q s t a b,
      d.node.reach? p = some (s, a) → d.node.reach? q = some (t, b) →
        p ≠ q → Path.ofSegments s ≠ Path.ofSegments t) ∧
    List.Forall₂ (Stands n) n.tokens n.marks := by
  refine ⟨Path.ofSegments_eq_iff, ?_, forall₂_tokens_marks n⟩
  intro hkeys p q s t a b hp hq hne hpath
  rw [Path.ofSegments_eq_iff, Node.dropWhile_of_reach? hkeys hp,
    Node.dropWhile_of_reach? hkeys hq] at hpath
  subst hpath
  exact hne (d.ordered.reach?_inj hp hq)

/-- A document with a key that is another key escaped. -/
def slashed : Document where
  node := .mapping [("a/b", .sequence [.scalar "x", .scalar "y"]), ("a~1b", .scalar "z")]
  ordered := ⟨by decide, ⟨trivial, trivial, trivial⟩, trivial, trivial⟩

theorem slashed_paths_identify :
    TreeToken.key "" ∉ slashed.node.word ∧
      slashed.node.tokens.map PlacedToken.path
        = ["/", "/a~1b", "/a~1b", "/a~1b/0", "/a~1b/1", "/a~1b", "/a~01b", "/a~01b", "/"] ∧
      Path.ofSegments ["a/b"] ≠ Path.ofSegments ["a~1b"] ∧
      Path.ofSegments ["", "", "a", ""] = Path.ofSegments ["a", ""] := by
  have hkeys : TreeToken.key "" ∉ slashed.node.word := by decide
  obtain ⟨hsegments, hdistinct, _⟩ := paths_identify_elements slashed.node slashed
  exact ⟨hkeys, by decide, hdistinct hkeys [0] [1] _ _ _ _ rfl rfl (by decide),
    (hsegments _ _).mpr rfl⟩

end TreeSchema
