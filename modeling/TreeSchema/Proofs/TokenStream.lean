import TreeSchema.Tree.Token
/-
  Token streams of trees

  What the flat stream of a tree says about the tree. The tokens without
  their paths are the word of the tree; a word tells where it ends, so that
  no word is a proper beginning of another and every tree can be told from
  its word. Passing one element of a stream passes exactly its word.
-/

namespace TreeSchema

namespace Node

/-- The token a tree begins with. -/
def head : Node → TreeToken
  | scalar text => .scalar text
  | sequence _ => .openSequence
  | mapping _ => .openMapping

/-- No tree begins with a token that closes something. -/
theorem isClose_head (n : Node) : n.head.isClose = false := by
  cases n <;> rfl

theorem tokensAt_eq_cons (path : String) (n : Node) :
    ∃ tail, n.tokensAt path = ⟨n.head, path⟩ :: tail := by
  cases n with
  | scalar text => exact ⟨[], by simp [tokensAt, head]⟩
  | sequence items => exact ⟨_, by rw [tokensAt, List.cons_append]; rfl⟩
  | mapping entries => exact ⟨_, by rw [tokensAt, List.cons_append]; rfl⟩

/-- The word of a tree: its tokens without their paths. -/
def word (n : Node) : List TreeToken := n.tokens.map PlacedToken.token

end Node

/-! The word does not depend on where the tree stands. -/

theorem map_token_itemTokens_of {items : List Node}
    (h : ∀ n ∈ items, ∀ path, (n.tokensAt path).map PlacedToken.token = n.word) (path : String)
    (index : Nat) :
    (itemTokens path index items).map PlacedToken.token = items.flatMap Node.word := by
  induction items generalizing index with
  | nil => rfl
  | cons n rest ih =>
    rw [itemTokens, List.map_append, List.flatMap_cons, h n List.mem_cons_self,
      ih (fun m hm => h m (List.mem_cons_of_mem n hm))]

theorem map_token_entryTokens_of {entries : List (String × Node)}
    (h : ∀ e ∈ entries, ∀ path, (e.2.tokensAt path).map PlacedToken.token = e.2.word)
    (path : String) :
    (entryTokens path entries).map PlacedToken.token
      = entries.flatMap (fun e => TreeToken.key e.1 :: e.2.word) := by
  induction entries with
  | nil => rfl
  | cons e rest ih =>
    obtain ⟨key, n⟩ := e
    rw [entryTokens, List.map_append, List.map_cons, List.flatMap_cons,
      h (key, n) List.mem_cons_self, ih (fun f hf => h f (List.mem_cons_of_mem _ hf))]

theorem map_token_tokensAt (path : String) (n : Node) :
    (n.tokensAt path).map PlacedToken.token = n.word := by
  induction n using Node.induction generalizing path with
  | scalar text => rfl
  | sequence items ih =>
    simp only [Node.word, Node.tokens, Node.tokensAt, List.map_append, List.map_cons,
      List.map_nil, map_token_itemTokens_of ih]
  | mapping entries ih =>
    simp only [Node.word, Node.tokens, Node.tokensAt, List.map_append, List.map_cons,
      List.map_nil, map_token_entryTokens_of ih]

namespace Node

@[simp] theorem word_scalar (text : String) : (scalar text).word = [.scalar text] := rfl

@[simp] theorem word_sequence (items : List Node) :
    (sequence items).word = .openSequence :: items.flatMap word ++ [.closeSequence] := by
  simp only [word, tokens, tokensAt, List.map_append, List.map_cons, List.map_nil,
    map_token_itemTokens_of (fun n _ path => map_token_tokensAt path n)]

@[simp] theorem word_mapping (entries : List (String × Node)) :
    (mapping entries).word
      = .openMapping :: entries.flatMap (fun e => TreeToken.key e.1 :: e.2.word)
        ++ [.closeMapping] := by
  simp only [word, tokens, tokensAt, List.map_append, List.map_cons, List.map_nil,
    map_token_entryTokens_of (fun e _ path => map_token_tokensAt path e.2)]

theorem word_eq_cons (n : Node) : ∃ tail, n.word = n.head :: tail := by
  cases n with
  | scalar text => exact ⟨[], rfl⟩
  | sequence items => exact ⟨_, by rw [word_sequence, List.cons_append]; rfl⟩
  | mapping entries => exact ⟨_, by rw [word_mapping, List.cons_append]; rfl⟩

/-! Words tell where they end. -/

theorem close_append_ne_word_append {t : TreeToken} (ht : t.isClose = true) (n : Node)
    (u w : List TreeToken) : t :: u ≠ n.word ++ w := by
  intro h
  obtain ⟨tail, hn⟩ := n.word_eq_cons
  rw [hn, List.cons_append] at h
  have := n.isClose_head
  rw [← (List.cons.inj h).1, ht] at this
  cases this

/-- Two lists of words, each before a token that closes something, agree as
soon as their concatenations do. -/
theorem flatMap_word_append_inj {items others : List Node} {t : TreeToken}
    (ht : t.isClose = true) {u w : List TreeToken}
    (ih : ∀ n ∈ items, ∀ m u w, n.word ++ u = m.word ++ w → n = m ∧ u = w)
    (h : items.flatMap word ++ t :: u = others.flatMap word ++ t :: w) :
    items = others ∧ u = w := by
  induction items generalizing others with
  | nil =>
    cases others with
    | nil => exact ⟨rfl, (List.cons.inj h).2⟩
    | cons m rest =>
      rw [List.flatMap_cons, List.append_assoc] at h
      exact absurd h (close_append_ne_word_append ht m _ _)
  | cons n rest ihrest =>
    cases others with
    | nil =>
      rw [List.flatMap_cons, List.append_assoc] at h
      exact absurd h.symm (close_append_ne_word_append ht n _ _)
    | cons m others =>
      rw [List.flatMap_cons, List.flatMap_cons, List.append_assoc, List.append_assoc] at h
      obtain ⟨rfl, hrest⟩ := ih n List.mem_cons_self m _ _ h
      obtain ⟨rfl, rfl⟩ := ihrest (fun k hk => ih k (List.mem_cons_of_mem _ hk)) hrest
      exact ⟨rfl, rfl⟩

/-- `flatMap_word_append_inj` for entries, each a key and a word. -/
theorem flatMap_entry_append_inj {entries others : List (String × Node)} {u w : List TreeToken}
    (ih : ∀ e ∈ entries, ∀ m u w, e.2.word ++ u = m.word ++ w → e.2 = m ∧ u = w)
    (h : entries.flatMap (fun e => TreeToken.key e.1 :: e.2.word) ++ .closeMapping :: u
      = others.flatMap (fun e => TreeToken.key e.1 :: e.2.word) ++ .closeMapping :: w) :
    entries = others ∧ u = w := by
  induction entries generalizing others with
  | nil =>
    cases others with
    | nil => exact ⟨rfl, (List.cons.inj h).2⟩
    | cons f rest => simp at h
  | cons e rest ihrest =>
    cases others with
    | nil => simp at h
    | cons f others =>
      obtain ⟨key, n⟩ := e
      obtain ⟨other, m⟩ := f
      simp only [List.flatMap_cons, List.cons_append, List.append_assoc, List.cons.injEq,
        TreeToken.key.injEq] at h
      obtain ⟨rfl, h⟩ := h
      obtain ⟨hn, hrest⟩ := ih (key, n) List.mem_cons_self m _ _ h
      obtain ⟨rfl, rfl⟩ := ihrest (fun g hg => ih g (List.mem_cons_of_mem _ hg)) hrest
      exact ⟨by rw [← hn], rfl⟩

/-- A word tells where it ends. -/
theorem word_append_inj {n m : Node} {u w : List TreeToken} (h : n.word ++ u = m.word ++ w) :
    n = m ∧ u = w := by
  induction n using Node.induction generalizing m u w with
  | scalar text =>
    cases m <;> simp at h ⊢
    exact h
  | sequence items ih =>
    cases m with
    | scalar _ => simp at h
    | mapping _ => simp at h
    | sequence others =>
      simp only [word_sequence, List.cons_append, List.append_assoc, List.cons.injEq,
        true_and, List.nil_append] at h
      obtain ⟨rfl, rfl⟩ := flatMap_word_append_inj rfl (fun n hn m u w => ih n hn) h
      exact ⟨rfl, rfl⟩
  | mapping entries ih =>
    cases m with
    | scalar _ => simp at h
    | sequence _ => simp at h
    | mapping others =>
      simp only [word_mapping, List.cons_append, List.append_assoc, List.cons.injEq,
        true_and, List.nil_append] at h
      obtain ⟨rfl, rfl⟩ := flatMap_entry_append_inj (fun e he m u w => ih e he) h
      exact ⟨rfl, rfl⟩

/-- Different trees have different words. -/
theorem word_injective {n m : Node} (h : n.word = m.word) : n = m :=
  (word_append_inj (u := []) (w := []) (by rw [h])).1

end Node

/-! The tokens of a container are those of its parts. -/

theorem itemTokens_eq_flatMap (path : String) (index : Nat) (items : List Node) :
    itemTokens path index items
      = (items.zipIdx index).flatMap fun p => p.1.tokensAt (Path.child path (toString p.2)) := by
  induction items generalizing index with
  | nil => rfl
  | cons n rest ih => rw [itemTokens, ih, List.zipIdx_cons, List.flatMap_cons]

theorem entryTokens_eq_flatMap (path : String) (entries : List (String × Node)) :
    entryTokens path entries
      = entries.flatMap fun e =>
          ⟨.key e.1, Path.child path e.1⟩ :: e.2.tokensAt (Path.child path e.1) := by
  induction entries with
  | nil => rfl
  | cons e rest ih => rw [entryTokens, ih, List.flatMap_cons]

theorem Node.length_word_of_mem_items {n : Node} {items : List Node} (h : n ∈ items) :
    n.word.length + 2 ≤ (Node.sequence items).word.length := by
  have hle := (List.sublist_flatten_of_mem (List.mem_map_of_mem (f := word) h)).length_le
  rw [← List.flatMap_def] at hle
  rw [word_sequence, List.length_append, List.length_cons, List.length_singleton]
  omega

theorem Node.length_word_of_mem_entries {e : String × Node} {entries : List (String × Node)}
    (h : e ∈ entries) : e.2.word.length + 2 ≤ (Node.mapping entries).word.length := by
  have hle := (List.sublist_flatten_of_mem
    (List.mem_map_of_mem (f := fun e => TreeToken.key e.1 :: e.2.word) h)).length_le
  rw [← List.flatMap_def, List.length_cons] at hle
  rw [word_mapping, List.length_append, List.length_cons, List.length_singleton]
  omega

/-! Passing one element. -/

theorem skipContainer_itemTokens {items : List Node}
    (h : ∀ n ∈ items, ∀ path depth rest,
      skipContainer (depth + 1) (n.tokensAt path ++ rest) = skipContainer (depth + 1) rest)
    (path : String) (index depth : Nat) (rest : List PlacedToken) :
    skipContainer (depth + 1) (itemTokens path index items ++ rest)
      = skipContainer (depth + 1) rest := by
  induction items generalizing index with
  | nil => rfl
  | cons n others ih =>
    rw [itemTokens, List.append_assoc, h n List.mem_cons_self,
      ih (fun m hm => h m (List.mem_cons_of_mem n hm))]

theorem skipContainer_entryTokens {entries : List (String × Node)}
    (h : ∀ e ∈ entries, ∀ path depth rest,
      skipContainer (depth + 1) (e.2.tokensAt path ++ rest) = skipContainer (depth + 1) rest)
    (path : String) (depth : Nat) (rest : List PlacedToken) :
    skipContainer (depth + 1) (entryTokens path entries ++ rest)
      = skipContainer (depth + 1) rest := by
  induction entries with
  | nil => rfl
  | cons e others ih =>
    obtain ⟨key, n⟩ := e
    rw [entryTokens, List.cons_append, List.cons_append, List.append_assoc]
    show skipContainer (depth + 1) (n.tokensAt _ ++ (entryTokens path others ++ rest)) = _
    rw [h (key, n) List.mem_cons_self, ih (fun f hf => h f (List.mem_cons_of_mem _ hf))]

/-- A whole element inside an open container does not change its depth. -/
theorem skipContainer_tokensAt (n : Node) (path : String) (depth : Nat)
    (rest : List PlacedToken) :
    skipContainer (depth + 1) (n.tokensAt path ++ rest) = skipContainer (depth + 1) rest := by
  induction n using Node.induction generalizing path depth rest with
  | scalar text => rfl
  | sequence items ih =>
    rw [Node.tokensAt, List.cons_append, List.cons_append, List.append_assoc]
    show skipContainer (depth + 1 + 1) (itemTokens path 0 items ++ ([_] ++ rest)) = _
    rw [skipContainer_itemTokens (fun n hn => ih n hn)]
    rfl
  | mapping entries ih =>
    rw [Node.tokensAt, List.cons_append, List.cons_append, List.append_assoc]
    show skipContainer (depth + 1 + 1) (entryTokens path entries ++ ([_] ++ rest)) = _
    rw [skipContainer_entryTokens (fun e he => ih e he)]
    rfl

/-- Passing the element at the head of a stream leaves what follows it. -/
theorem skipElement_tokensAt (n : Node) (path : String) (rest : List PlacedToken) :
    skipElement (n.tokensAt path ++ rest) = rest := by
  cases n with
  | scalar text => rfl
  | sequence items =>
    rw [Node.tokensAt, List.cons_append, List.cons_append, List.append_assoc]
    show skipContainer (0 + 1) (itemTokens path 0 items ++ ([_] ++ rest)) = _
    rw [skipContainer_itemTokens (fun n _ => skipContainer_tokensAt n)]
    rfl
  | mapping entries =>
    rw [Node.tokensAt, List.cons_append, List.cons_append, List.append_assoc]
    show skipContainer (0 + 1) (entryTokens path entries ++ ([_] ++ rest)) = _
    rw [skipContainer_entryTokens (fun e _ => skipContainer_tokensAt e.2)]
    rfl

/-- A key is passed together with its value. -/
theorem skipElement_key (key keyPath path : String) (n : Node) (rest : List PlacedToken) :
    skipElement (⟨.key key, keyPath⟩ :: (n.tokensAt path ++ rest)) = rest :=
  skipElement_tokensAt n path rest

end TreeSchema
