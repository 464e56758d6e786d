import TreeSchema.Proofs.ElementPaths
import TreeSchema.Proofs.Elements
/-
  Where elements end

  Passing tokens counts open containers and does not look at their kind, so
  that it is not plain that it stops at the right place. From any token that
  closes nothing it passes the tokens of the element that begins there, and no
  other: after a part of a container it stops at the next part, or at the
  token that closes the container if there is none, and after the document it
  stops at the end.

  Which element begins at a token is told by its mark, the position of the
  element in the tree. What follows an element is known from the tree at every
  mark (`charted_marks`): this is the one induction, over the tree with what
  comes after it in the stream.
-/

namespace TreeSchema

namespace Node

/-- The token a tree ends with. -/
def last : Node → TreeToken
  | scalar text => .scalar text
  | sequence _ => .closeSequence
  | mapping _ => .closeMapping

/-- The token with which a part of a container begins: its key if there is
one. -/
def opening : (container : Node) → (segment : String) → (part : Node) → TreeToken
  | mapping _, segment, _ => .key segment
  | _, _, part => part.head

/-- The tokens of the element that begins with `t` and ends with a tree: the
tree alone, or a key and the tree. -/
def wordFrom (t : TreeToken) (part : Node) : List TreeToken :=
  match t with
  | .key key => .key key :: part.word
  | _ => part.word

/-- What an element at `position` is followed by if the index `next` is just
past it. The document is followed by nothing. A part of a container is
followed by the next part, or else by the token that closes the container. -/
def Lands (n : Node) (position : List Nat) (next : Nat) : Prop :=
  (position = [] ∧ next = n.tokens.length) ∨
  ∃ parent k segments container close, position = parent ++ [k] ∧
    n.reach? parent = some (segments, container) ∧
    n.marks[close]? = some (container.last, parent) ∧
    match container.part? (k + 1) with
    | some (segment, sibling) => next < close ∧
      n.marks[next]? = some (container.opening segment sibling, parent ++ [k + 1])
    | none => next = close

end Node

/-! ## Marks of a tree -/

theorem marksAt_eq_cons (position : List Nat) (n : Node) :
    ∃ tail, n.marksAt position = (n.head, position) :: tail := by
  cases n with
  | scalar text => exact ⟨[], rfl⟩
  | sequence items => exact ⟨_, by rw [Node.marksAt, List.cons_append]; rfl⟩
  | mapping entries => exact ⟨_, by rw [Node.marksAt, List.cons_append]; rfl⟩

theorem map_token_of_stands {n : Node} {ts : List PlacedToken} {marks : List (TreeToken × List Nat)}
    (h : List.Forall₂ (Stands n) ts marks) :
    ts.map PlacedToken.token = marks.map Prod.fst := by
  induction h with
  | nil => rfl
  | cons hhead _ ih => rw [List.map_cons, List.map_cons, hhead.1, ih]

theorem map_fst_marksAt {n part : Node} {position : List Nat} {segments : List String}
    (h : n.reach? position = some (segments, part)) :
    (part.marksAt position).map Prod.fst = part.word := by
  rw [← map_token_of_stands (forall₂_tokensAt h), map_token_tokensAt]

/-! ## What follows an element -/

/-- `Node.Lands` in the marks that are ahead. -/
def FollowedBy (n : Node) (position : List Nat) (ahead : List (TreeToken × List Nat)) : Prop :=
  (position = [] ∧ ahead = []) ∨
  ∃ parent k segments container inner after, position = parent ++ [k] ∧
    n.reach? parent = some (segments, container) ∧
    ahead = inner ++ (container.last, parent) :: after ∧
    inner.head? = (container.part? (k + 1)).map fun p =>
      (container.opening p.1 p.2, parent ++ [k + 1])

/-- Every mark that closes nothing begins the element at its position, and the
element is followed by what follows it in the tree. -/
def Charted (n : Node) (marks : List (TreeToken × List Nat)) : Prop :=
  ∀ t position rest, (t, position) :: rest <:+ marks → t.isClose = false →
    ∃ segments part body ahead, n.reach? position = some (segments, part) ∧
      (t, position) :: rest = body ++ ahead ∧ body.map Prod.fst = part.wordFrom t ∧
      FollowedBy n position ahead

section
variable {n : Node} {position : List Nat} {segments : List String}
  {ahead : List (TreeToken × List Nat)}

theorem charted_nil : Charted n [] := by
  intro t position rest h
  exact absurd (List.suffix_nil.mp h) (List.cons_ne_nil _ _)

/-- A mark that begins an element, before marks of which all is known. -/
theorem charted_cons {t : TreeToken} {part : Node} {body rest : List (TreeToken × List Nat)}
    (h : n.reach? position = some (segments, part)) (hbody : (t, position) :: rest = body ++ ahead)
    (hword : body.map Prod.fst = part.wordFrom t) (hahead : FollowedBy n position ahead)
    (hrest : Charted n rest) : Charted n ((t, position) :: rest) := by
  intro u place others hsuffix hopen
  rcases List.suffix_cons_iff.mp hsuffix with heq | hsuffix
  · cases heq
    exact ⟨segments, part, body, ahead, h, hbody, hword, hahead⟩
  · exact hrest u place others hsuffix hopen

theorem charted_close {t : TreeToken} (hclose : t.isClose = true) (hahead : Charted n ahead) :
    Charted n ((t, position) :: ahead) := by
  intro u place others hsuffix hopen
  rcases List.suffix_cons_iff.mp hsuffix with heq | hsuffix
  · cases heq
    rw [hclose] at hopen
    cases hopen
  · exact hahead u place others hsuffix hopen

theorem followedBy_item {items : List Node}
    (h : n.reach? position = some (segments, .sequence items)) (k : Nat)
    (ahead : List (TreeToken × List Nat)) :
    FollowedBy n (position ++ [k])
      (itemMarks position (k + 1) (items.drop (k + 1)) ++ (.closeSequence, position) :: ahead) := by
  refine .inr ⟨position, k, segments, .sequence items, _, ahead, rfl, h, rfl, ?_⟩
  rw [Node.part?, ← List.head?_drop]
  cases items.drop (k + 1) with
  | nil => rfl
  | cons m rest =>
    obtain ⟨tail, hm⟩ := marksAt_eq_cons (position ++ [k + 1]) m
    rw [itemMarks, hm]
    rfl

theorem followedBy_entry {entries : List (String × Node)}
    (h : n.reach? position = some (segments, .mapping entries)) (k : Nat)
    (ahead : List (TreeToken × List Nat)) :
    FollowedBy n (position ++ [k])
      (entryMarks position (k + 1) (entries.drop (k + 1))
        ++ (.closeMapping, position) :: ahead) := by
  refine .inr ⟨position, k, segments, .mapping entries, _, ahead, rfl, h, rfl, ?_⟩
  rw [Node.part?, ← List.head?_drop]
  cases entries.drop (k + 1) with
  | nil => rfl
  | cons e rest => rfl

theorem drop_eq_cons_iff {α : Type} {l rest : List α} {k : Nat} {a : α} :
    l.drop k = a :: rest ↔ l[k]? = some a ∧ l.drop (k + 1) = rest := by
  constructor
  · intro h
    rw [← List.head?_drop, ← List.tail_drop, h]
    exact ⟨rfl, rfl⟩
  · rintro ⟨ha, rfl⟩
    obtain ⟨hk, rfl⟩ := List.getElem?_eq_some_iff.mp ha
    exact List.drop_eq_getElem_cons hk

/-- The items go through the list from any number on, so that what follows an
item is known. -/
theorem charted_items {items : List Node}
    (h : n.reach? position = some (segments, .sequence items))
    (hparts : ∀ m ∈ items, ∀ position segments ahead, n.reach? position = some (segments, m) →
      FollowedBy n position ahead → Charted n ahead → Charted n (m.marksAt position ++ ahead))
    (hahead : Charted n ahead) {rest : List Node} {k : Nat} (hrest : items.drop k = rest) :
    Charted n (itemMarks position k rest ++ (.closeSequence, position) :: ahead) := by
  induction rest generalizing k with
  | nil => exact charted_close rfl hahead
  | cons m rest ih =>
    obtain ⟨hm, hlater⟩ := drop_eq_cons_iff.mp hrest
    have hfollows := followedBy_item h k ahead
    rw [hlater] at hfollows
    rw [itemMarks, List.append_assoc]
    exact hparts m (List.mem_of_getElem? hm) _ _ _
      (Node.reach?_concat h (by rw [Node.part?, hm]; rfl)) hfollows (ih hlater)

/-- `charted_items` for entries. A key begins the element of its value too. -/
theorem charted_entries {entries : List (String × Node)}
    (h : n.reach? position = some (segments, .mapping entries))
    (hparts : ∀ e ∈ entries, ∀ position segments ahead, n.reach? position = some (segments, e.2) →
      FollowedBy n position ahead → Charted n ahead → Charted n (e.2.marksAt position ++ ahead))
    (hahead : Charted n ahead) {rest : List (String × Node)} {k : Nat}
    (hrest : entries.drop k = rest) :
    Charted n (entryMarks position k rest ++ (.closeMapping, position) :: ahead) := by
  induction rest generalizing k with
  | nil => exact charted_close rfl hahead
  | cons e rest ih =>
    obtain ⟨key, m⟩ := e
    obtain ⟨hm, hlater⟩ := drop_eq_cons_iff.mp hrest
    have hfollows := followedBy_entry h k ahead
    rw [hlater] at hfollows
    have hreach := Node.reach?_concat h hm
    rw [entryMarks, List.append_assoc, List.cons_append]
    have hword : ((.key key, position ++ [k]) :: m.marksAt (position ++ [k])).map Prod.fst
        = m.wordFrom (.key key) := by
      rw [List.map_cons, map_fst_marksAt hreach]
      rfl
    have hvalue := hparts (key, m) (List.mem_of_getElem? hm) _ _ _ hreach hfollows (ih hlater)
    exact charted_cons hreach rfl hword hfollows hvalue

theorem charted_marksAt {part : Node} (h : n.reach? position = some (segments, part))
    (hfollows : FollowedBy n position ahead) (hahead : Charted n ahead) :
    Charted n (part.marksAt position ++ ahead) := by
  induction part using Node.induction generalizing position segments ahead with
  | scalar text =>
    have hword := map_fst_marksAt h
    exact charted_cons h rfl hword hfollows hahead
  | sequence items ih =>
    have hword := map_fst_marksAt h
    rw [Node.marksAt, List.cons_append] at hword ⊢
    refine charted_cons h rfl hword hfollows ?_
    show Charted n (_ ++ _ ++ ahead)
    rw [List.append_assoc]
    exact charted_items h (fun m hm _ _ _ => ih m hm) hahead rfl
  | mapping entries ih =>
    have hword := map_fst_marksAt h
    rw [Node.marksAt, List.cons_append] at hword ⊢
    refine charted_cons h rfl hword hfollows ?_
    show Charted n (_ ++ _ ++ ahead)
    rw [List.append_assoc]
    exact charted_entries h (fun e he _ _ _ => ih e he) hahead rfl

end

theorem charted_marks (n : Node) : Charted n n.marks := by
  have hroot : n.reach? [] = some ([], n) := rfl
  have h := charted_marksAt hroot (.inl ⟨rfl, rfl⟩) charted_nil
  rwa [List.append_nil] at h

/-! ## Passing an element -/

theorem length_marks (n : Node) : n.marks.length = n.tokens.length := by
  have h := congrArg List.length (map_token_of_stands (forall₂_tokens_marks n))
  rw [List.length_map, List.length_map] at h
  exact h.symm

theorem lands_of_followedBy {n : Node} {position : List Nat} {next : Nat}
    (hnext : next ≤ n.tokens.length) (h : FollowedBy n position (n.marks.drop next)) :
    n.Lands position next := by
  rcases h with ⟨hroot, hend⟩ |
    ⟨parent, k, segments, container, inner, after, hposition, hreach, hahead, hhead⟩
  · rw [List.drop_eq_nil_iff, length_marks] at hend
    exact .inl ⟨hroot, Nat.le_antisymm hnext hend⟩
  · have hget : ∀ j, n.marks[next + j]? = (inner ++ (container.last, parent) :: after)[j]? := by
      intro j
      rw [← hahead, List.getElem?_drop]
    refine .inr ⟨parent, k, segments, container, next + inner.length, hposition, hreach, ?_, ?_⟩
    · rw [hget, List.getElem?_append_right (Nat.le_refl _), Nat.sub_self]
      rfl
    · cases hpart : container.part? (k + 1) with
      | none =>
        rw [hpart] at hhead
        rw [List.head?_eq_none_iff.mp hhead]
        rfl
      | some sibling =>
        obtain ⟨segment, sibling⟩ := sibling
        rw [hpart] at hhead
        obtain ⟨more, hinner⟩ := List.head?_eq_some_iff.mp hhead
        have hfirst := hget 0
        rw [hinner] at hfirst ⊢
        exact ⟨by simp, hfirst⟩

theorem wordFrom_head (n part : Node) : part.wordFrom n.head = part.word := by
  cases n <;> rfl

/-- Where an element and a tree, after its key if it has one, begin with the
same tokens, they are the same. -/
theorem map_token_element {t : PlacedToken} {rest element after : List PlacedToken} {part : Node}
    {later : List TreeToken} (h : IsElement element) (hcut : t :: rest = element ++ after)
    (hword : (t :: rest).map PlacedToken.token = part.wordFrom t.token ++ later) :
    element.map PlacedToken.token = part.wordFrom t.token := by
  cases h with
  | tree m path =>
    have ht : t.token = m.head := by
      obtain ⟨tail, hm⟩ := m.tokensAt_eq_cons path
      rw [hm, List.cons_append] at hcut
      rw [(List.cons.inj hcut).1]
    rw [ht, wordFrom_head] at hword ⊢
    rw [hcut, List.map_append, map_token_tokensAt] at hword
    rw [map_token_tokensAt, (Node.word_append_inj hword).1]
  | entry key keyPath m path =>
    rw [List.cons_append] at hcut
    obtain ⟨ht, hrest⟩ := List.cons.inj hcut
    rw [hrest, ht, Node.wordFrom, List.map_cons, List.map_append, map_token_tokensAt,
      List.cons_append] at hword
    rw [ht, List.map_cons, map_token_tokensAt, (Node.word_append_inj (List.cons.inj hword).2).1]
    rfl

/-- From any token that closes nothing, the tokens passed are those of the
element that begins there. What stands at the end of it is the next part of
the same container, or the token that closes this container, or nothing. -/
theorem skipElement_lands (n : Node) {i : Nat} {t : PlacedToken} (ht : n.tokens[i]? = some t)
    (hopen : t.token.isClose = false) :
    n.marks.map Prod.fst = n.word ∧
    ∃ position segments part, n.marks[i]? = some (t.token, position) ∧
      n.reach? position = some (segments, part) ∧ part.wordFrom t.token <+: n.word.drop i ∧
      skipElement (n.tokens.drop i) = n.tokens.drop (i + (part.wordFrom t.token).length) ∧
      n.Lands position (i + (part.wordFrom t.token).length) := by
  have hsame : n.word = n.marks.map Prod.fst :=
    map_token_of_stands (forall₂_tokens_marks n)
  have hmarked : (n.marks.map Prod.fst)[i]? = some t.token := by
    rw [← hsame, Node.word, List.getElem?_map, ht]
    rfl
  rw [List.getElem?_map] at hmarked
  obtain ⟨⟨u, position⟩, hmark, hu⟩ := Option.map_eq_some_iff.mp hmarked
  obtain rfl : u = t.token := hu
  have htokens := drop_eq_cons_iff.mpr ⟨ht, rfl⟩
  have hmarks := drop_eq_cons_iff.mpr ⟨hmark, rfl⟩
  -- The tree tells which element the marks begin with, the tokens where it ends.
  obtain ⟨segments, part, body, ahead, hreach, hbody, hword, hfollows⟩ :=
    charted_marks n t.token position _ (hmarks ▸ List.drop_suffix i n.marks) hopen
  obtain ⟨element, after, hcut, helement⟩ :=
    framed_tokens n t _ (htokens ▸ List.drop_suffix i n.tokens) hopen
  have hwords : n.word.drop i = part.wordFrom t.token ++ ahead.map Prod.fst := by
    rw [hsame, ← List.map_drop, hmarks, hbody, List.map_append, hword]
  have hpassed : element.map PlacedToken.token = part.wordFrom t.token := by
    apply map_token_element helement hcut
    rw [← htokens, List.map_drop]
    exact hwords
  have hahead : n.marks.drop (i + (part.wordFrom t.token).length) = ahead := by
    rw [← List.drop_drop, hmarks, hbody, ← hword, List.length_map, List.drop_left]
  have hafter : n.tokens.drop (i + (part.wordFrom t.token).length) = after := by
    rw [← List.drop_drop, htokens, hcut, ← hpassed, List.length_map, List.drop_left]
  have hnext : i + (part.wordFrom t.token).length ≤ n.tokens.length := by
    have hlength := congrArg List.length hwords
    rw [Node.word, List.length_drop, List.length_map, List.length_append] at hlength
    have hi := (List.getElem?_eq_some_iff.mp ht).1
    omega
  refine ⟨hsame.symm, position, segments, part, hmark, hreach, ⟨_, hwords.symm⟩, ?_, ?_⟩
  · rw [hafter, htokens, hcut, skipElement_element helement]
  · apply lands_of_followedBy hnext
    rw [hahead]
    exact hfollows

/-- A document with containers of both kinds in one another. -/
def boxed : Node :=
  .mapping [("a", .sequence [.mapping [("b", .sequence [])], .scalar "x"]), ("c", .scalar "y")]

/-- From its first key the whole first entry is passed, up to the second. -/
theorem boxed_lands :
    boxed.tokens[1]? = some ⟨.key "a", "/a"⟩ ∧ (TreeToken.key "a").isClose = false ∧
      skipElement (boxed.tokens.drop 1) = boxed.tokens.drop 10 ∧ boxed.Lands [0] 10 ∧
      boxed.marks[10]? = some (.key "c", [1]) ∧ boxed.marks[12]? = some (.closeMapping, []) := by
  have htoken : boxed.tokens[1]? = some ⟨.key "a", "/a"⟩ := by decide
  obtain ⟨_, position, segments, part, hmark, hreach, _, hskip, hlands⟩ :=
    skipElement_lands boxed htoken rfl
  have hposition : some (TreeToken.key "a", [0]) = some (.key "a", position) := hmark
  cases hposition
  have hpart : some (["a"], Node.sequence [.mapping [("b", .sequence [])], .scalar "x"])
      = some (segments, part) := hreach
  cases hpart
  exact ⟨htoken, rfl, hskip, hlands, rfl, rfl⟩

end TreeSchema
