import TreeSchema.Proofs.TokenStream
/-
  Elements of a stream

  An element is a whole tree or a key with its tree. In the stream of a tree
  every token that closes nothing begins an element, wherever it stands
  (`framed_tokens`), and passing the tokens from there passes just this
  element (`skipElement_element`).
-/

namespace TreeSchema

/-! ## Passing goes forward -/

theorem skipContainer_suffix (depth : Nat) (tokens : List PlacedToken) :
    skipContainer depth tokens <:+ tokens := by
  induction tokens generalizing depth with
  | nil => exact List.suffix_refl _
  | cons t rest ih =>
    have hlater : ∀ depth, skipContainer depth rest <:+ t :: rest :=
      fun depth => (ih depth).trans (List.suffix_cons t rest)
    rw [skipContainer]
    split
    · exact hlater _
    · exact hlater _
    · split
      · exact List.suffix_cons t rest
      · exact hlater _
    · split
      · exact List.suffix_cons t rest
      · exact hlater _
    · exact hlater _
    · exact hlater _

/-- Passing an element leaves at least one token behind. -/
theorem skipElement_suffix (t : PlacedToken) (rest : List PlacedToken) :
    skipElement (t :: rest) <:+ rest := by
  induction rest generalizing t with
  | nil =>
    rw [skipElement]
    split <;> exact List.suffix_refl _
  | cons u rest ih =>
    rw [skipElement]
    split
    · exact (ih u).trans (List.suffix_cons u rest)
    · exact skipContainer_suffix _ _
    · exact skipContainer_suffix _ _
    · exact List.suffix_refl _
    · exact List.suffix_refl _
    · exact List.suffix_refl _

theorem length_lt_of_suffix {tail rest : List PlacedToken} (h : tail <:+ rest)
    (hne : tail ≠ rest) : tail.length < rest.length :=
  Nat.lt_of_le_of_ne h.length_le fun heq => hne (h.eq_of_length heq)

/-! ## Elements -/

/-- The tokens of one whole element: a scalar, a container with all that is
in it, or a key with its value. -/
inductive IsElement : List PlacedToken → Prop where
  | tree (n : Node) (path : String) : IsElement (n.tokensAt path)
  | entry (key keyPath : String) (n : Node) (path : String) :
    IsElement (⟨.key key, keyPath⟩ :: n.tokensAt path)

theorem IsElement.ne_nil {element : List PlacedToken} (h : IsElement element) : element ≠ [] := by
  cases h with
  | tree n path =>
    obtain ⟨tail, htokens⟩ := n.tokensAt_eq_cons path
    rw [htokens]
    exact List.cons_ne_nil _ _
  | entry key keyPath n path => exact List.cons_ne_nil _ _

/-- Passing an element leaves what follows it. -/
theorem skipElement_element {element : List PlacedToken} (h : IsElement element)
    (after : List PlacedToken) : skipElement (element ++ after) = after := by
  cases h with
  | tree n path => exact skipElement_tokensAt n path after
  | entry key keyPath n path => exact skipElement_key key keyPath path n after

/-- Every token that closes nothing begins an element. -/
def Framed (tokens : List PlacedToken) : Prop :=
  ∀ t rest, t :: rest <:+ tokens → t.token.isClose = false →
    ∃ element after, t :: rest = element ++ after ∧ IsElement element

theorem framed_nil : Framed [] := by
  intro t rest h
  exact absurd (List.suffix_nil.mp h) (List.cons_ne_nil _ _)

theorem framed_cons {t : PlacedToken} {rest : List PlacedToken}
    (hhead : t.token.isClose = false →
      ∃ element after, t :: rest = element ++ after ∧ IsElement element)
    (hrest : Framed rest) : Framed (t :: rest) := by
  intro u others hsuffix hopen
  rcases List.suffix_cons_iff.mp hsuffix with heq | hsuffix
  · cases heq
    exact hhead hopen
  · exact hrest u others hsuffix hopen

theorem framed_close {t : PlacedToken} {rest : List PlacedToken} (hclose : t.token.isClose = true)
    (hrest : Framed rest) : Framed (t :: rest) := by
  refine framed_cons (fun hopen => ?_) hrest
  rw [hclose] at hopen
  cases hopen

theorem framed_itemTokens {items : List Node}
    (h : ∀ n ∈ items, ∀ path after, Framed after → Framed (n.tokensAt path ++ after))
    (path : String) (index : Nat) {after : List PlacedToken} (hafter : Framed after) :
    Framed (itemTokens path index items ++ after) := by
  induction items generalizing index with
  | nil => exact hafter
  | cons n rest ih =>
    rw [itemTokens, List.append_assoc]
    exact h n List.mem_cons_self _ _ (ih (fun m hm => h m (List.mem_cons_of_mem n hm)) _)

theorem framed_entryTokens {entries : List (String × Node)}
    (h : ∀ e ∈ entries, ∀ path after, Framed after → Framed (e.2.tokensAt path ++ after))
    (path : String) {after : List PlacedToken} (hafter : Framed after) :
    Framed (entryTokens path entries ++ after) := by
  induction entries with
  | nil => exact hafter
  | cons e rest ih =>
    obtain ⟨key, n⟩ := e
    have hrest := ih (fun f hf => h f (List.mem_cons_of_mem _ hf))
    rw [entryTokens, List.append_assoc, List.cons_append]
    exact framed_cons (fun _ => ⟨_, _, rfl, .entry key _ n _⟩)
      (h (key, n) List.mem_cons_self _ _ hrest)

/-- The induction is over the tree: its first token begins the whole tree,
and every other token stands in a part or is the last one. -/
theorem framed_tokensAt_append (n : Node) (path : String) {after : List PlacedToken}
    (hafter : Framed after) : Framed (n.tokensAt path ++ after) := by
  induction n using Node.induction generalizing path after with
  | scalar text => exact framed_cons (fun _ => ⟨_, after, rfl, .tree (.scalar text) path⟩) hafter
  | sequence items ih =>
    have hwhole := IsElement.tree (.sequence items) path
    rw [Node.tokensAt, List.cons_append] at hwhole ⊢
    refine framed_cons (fun _ => ⟨_, after, rfl, hwhole⟩) ?_
    show Framed (_ ++ _ ++ after)
    rw [List.append_assoc]
    refine framed_itemTokens (fun n hn path after hafter => ih n hn path hafter) path 0 ?_
    exact framed_close rfl hafter
  | mapping entries ih =>
    have hwhole := IsElement.tree (.mapping entries) path
    rw [Node.tokensAt, List.cons_append] at hwhole ⊢
    refine framed_cons (fun _ => ⟨_, after, rfl, hwhole⟩) ?_
    show Framed (_ ++ _ ++ after)
    rw [List.append_assoc]
    refine framed_entryTokens (fun e he path after hafter => ih e he path hafter) path ?_
    exact framed_close rfl hafter

theorem framed_tokens (n : Node) : Framed n.tokens := by
  have h := framed_tokensAt_append n Path.root framed_nil
  rwa [List.append_nil] at h

end TreeSchema
