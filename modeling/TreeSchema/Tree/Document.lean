import TreeSchema.Tree.Node
/-
  Documents

  Entries enter a mapping one by one, each at its place in the order of keys
  and in the place of an earlier entry under its key. So the mappings of a
  tree that is built this way have their keys in strictly increasing order, to
  any depth, and a document is a tree that has.
-/

namespace TreeSchema

/-! ## Entries -/

section
variable {α : Type} {key : String} {value : α} {entries : List (String × α)}

theorem mem_of_mem_insertEntry {e : String × α} (h : e ∈ insertEntry key value entries) :
    e = (key, value) ∨ e ∈ entries := by
  induction entries with
  | nil => simpa [insertEntry] using h
  | cons first rest ih =>
    obtain ⟨k, v⟩ := first
    unfold insertEntry at h
    split at h
    · simpa using h
    · split at h
      · simp only [List.mem_cons] at h ⊢
        rcases h with h | h
        · exact .inl h
        · exact .inr (.inr h)
      · simp only [List.mem_cons] at h ⊢
        rcases h with h | h
        · exact .inr (.inl h)
        · rcases ih h with h | h
          · exact .inl h
          · exact .inr (.inr h)

/-- Every key but the one that is set stands where it stood. -/
theorem pairwise_insertEntry (h : (entries.map Prod.fst).Pairwise (· < ·)) :
    ((insertEntry key value entries).map Prod.fst).Pairwise (· < ·) := by
  induction entries with
  | nil => simp [insertEntry]
  | cons first rest ih =>
    obtain ⟨k, v⟩ := first
    rw [List.map_cons, List.pairwise_cons] at h
    obtain ⟨hfirst, hrest⟩ := h
    unfold insertEntry
    split
    · next hlt =>
      have hall : ∀ j ∈ rest.map Prod.fst, key < j := by
        intro j hj
        exact Std.lt_trans hlt (hfirst j hj)
      simp only [List.map_cons, List.pairwise_cons, List.mem_cons, forall_eq_or_imp]
      exact ⟨⟨hlt, hall⟩, hfirst, hrest⟩
    · next hnotLess =>
      split
      · next heq =>
        subst heq
        simp only [List.map_cons, List.pairwise_cons]
        exact ⟨hfirst, hrest⟩
      · next hne =>
        have hgt : k < key := Std.lt_of_le_of_ne (Std.not_lt.mp hnotLess) (Ne.symm hne)
        simp only [List.map_cons, List.pairwise_cons]
        refine ⟨?_, ih hrest⟩
        intro j hj
        obtain ⟨e, he, rfl⟩ := List.mem_map.mp hj
        rcases mem_of_mem_insertEntry he with rfl | he
        · exact hgt
        · exact hfirst _ (List.mem_map_of_mem he)

end

theorem entriesOf_eq {α : Type} (pairs : List (String × α)) :
    entriesOf pairs = pairs.foldl (fun entries pair => insertEntry pair.1 pair.2 entries) [] := rfl

theorem foldl_insertEntry {α : Type} (pairs : List (String × α)) {start : List (String × α)}
    (hstart : (start.map Prod.fst).Pairwise (· < ·)) :
    ((pairs.foldl (fun entries pair => insertEntry pair.1 pair.2 entries) start).map
        Prod.fst).Pairwise (· < ·) ∧
      ∀ e ∈ pairs.foldl (fun entries pair => insertEntry pair.1 pair.2 entries) start,
        e ∈ start ∨ e ∈ pairs := by
  induction pairs generalizing start with
  | nil => exact ⟨hstart, fun e he => .inl he⟩
  | cons pair pairs ih =>
    have hnext : ((insertEntry pair.1 pair.2 start).map Prod.fst).Pairwise (· < ·) :=
      pairwise_insertEntry hstart
    obtain ⟨hkeys, hmem⟩ := ih hnext
    refine ⟨hkeys, ?_⟩
    intro e he
    rcases hmem e he with he | he
    · rcases mem_of_mem_insertEntry he with rfl | he
      · exact .inr List.mem_cons_self
      · exact .inl he
    · exact .inr (List.mem_cons_of_mem _ he)

theorem pairwise_entriesOf {α : Type} (pairs : List (String × α)) :
    ((entriesOf pairs).map Prod.fst).Pairwise (· < ·) := by
  rw [entriesOf_eq]
  exact (foldl_insertEntry pairs List.Pairwise.nil).1

theorem mem_of_mem_entriesOf {α : Type} {pairs : List (String × α)} {e : String × α}
    (h : e ∈ entriesOf pairs) : e ∈ pairs := by
  rw [entriesOf_eq] at h
  rcases (foldl_insertEntry pairs List.Pairwise.nil).2 e h with h | h
  · cases h
  · exact h

/-! ## Trees -/

theorem itemsOrdered_iff {items : List Node} : itemsOrdered items ↔ ∀ n ∈ items, n.Ordered := by
  induction items with
  | nil => simp [itemsOrdered]
  | cons n rest ih => rw [itemsOrdered, ih, List.forall_mem_cons]

theorem entriesOrdered_iff {entries : List (String × Node)} :
    entriesOrdered entries ↔ ∀ e ∈ entries, e.2.Ordered := by
  induction entries with
  | nil => simp [entriesOrdered]
  | cons e rest ih => rw [entriesOrdered, ih, List.forall_mem_cons]

namespace Node

theorem ordered_sequence {items : List Node} (h : ∀ n ∈ items, n.Ordered) :
    (sequence items).Ordered := by
  rw [Ordered]
  exact itemsOrdered_iff.mpr h

theorem ordered_mapping_entriesOf {pairs : List (String × Node)} (h : ∀ e ∈ pairs, e.2.Ordered) :
    (mapping (entriesOf pairs)).Ordered := by
  rw [Ordered]
  refine ⟨pairwise_entriesOf pairs, entriesOrdered_iff.mpr ?_⟩
  intro e he
  exact h e (mem_of_mem_entriesOf he)

theorem mem_sortedItems {items : List Node} {n : Node} (h : n ∈ sortedItems items) :
    ∃ m ∈ items, n = m.sorted := by
  induction items with
  | nil => cases h
  | cons first rest ih =>
    rcases List.mem_cons.mp h with rfl | h
    · exact ⟨first, List.mem_cons_self, rfl⟩
    · obtain ⟨m, hm, heq⟩ := ih h
      exact ⟨m, List.mem_cons_of_mem _ hm, heq⟩

theorem mem_sortedEntries {entries : List (String × Node)} {e : String × Node}
    (h : e ∈ sortedEntries entries) : ∃ f ∈ entries, e.2 = f.2.sorted := by
  induction entries with
  | nil => cases h
  | cons first rest ih =>
    rcases List.mem_cons.mp h with rfl | h
    · exact ⟨first, List.mem_cons_self, rfl⟩
    · obtain ⟨f, hf, heq⟩ := ih h
      exact ⟨f, List.mem_cons_of_mem _ hf, heq⟩

theorem ordered_sorted (n : Node) : n.sorted.Ordered := by
  induction n using Node.induction with
  | scalar text => trivial
  | sequence items ih =>
    rw [sorted]
    apply ordered_sequence
    intro n hn
    obtain ⟨m, hm, rfl⟩ := mem_sortedItems hn
    exact ih m hm
  | mapping entries ih =>
    rw [sorted]
    apply ordered_mapping_entriesOf
    intro e he
    obtain ⟨f, hf, heq⟩ := mem_sortedEntries he
    rw [heq]
    exact ih f hf

end Node

/-! ## Documents -/

/-- A tree with the keys of every mapping in order. -/
@[ext]
structure Document where
  node : Node
  ordered : node.Ordered

/-- The document of a tree whose entries may stand in any order. -/
def Document.ofNode (n : Node) : Document := { node := n.sorted, ordered := n.ordered_sorted }

end TreeSchema
