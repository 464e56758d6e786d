import Mathlib.Data.List.Forall2
import TreeSchema.Tree.Load
/-
  Parts of documents

  Entries with different keys are all kept, and come into the same order in
  whatever order they are put there (`entriesOf_of_perm`). In YAML any part of
  a value can fail to stand for a tree, and with it the whole.
-/

namespace TreeSchema

/-! ## Entries in any order -/

section
variable {α : Type}

theorem perm_insertEntry {key : String} (value : α) {entries : List (String × α)}
    (h : key ∉ entries.map Prod.fst) :
    (insertEntry key value entries).Perm ((key, value) :: entries) := by
  induction entries with
  | nil => exact List.Perm.refl _
  | cons first rest ih =>
    obtain ⟨k, v⟩ := first
    rw [List.map_cons, List.mem_cons, not_or] at h
    unfold insertEntry
    split
    · exact List.Perm.refl _
    · rw [if_neg h.1]
      exact ((ih h.2).cons _).trans (List.Perm.swap _ _ _)

theorem perm_foldl_insertEntry (pairs start : List (String × α))
    (h : ((pairs ++ start).map Prod.fst).Nodup) :
    (pairs.foldl (fun entries pair => insertEntry pair.1 pair.2 entries) start).Perm
      (pairs ++ start) := by
  induction pairs generalizing start with
  | nil => exact List.Perm.refl _
  | cons pair rest ih =>
    have hnew : pair.1 ∉ start.map Prod.fst := by
      rw [List.cons_append, List.map_cons, List.nodup_cons, List.map_append] at h
      exact fun hmem => h.1 (List.mem_append_right _ hmem)
    have hnext : (rest ++ insertEntry pair.1 pair.2 start).Perm ((pair :: rest) ++ start) :=
      ((perm_insertEntry pair.2 hnew).append_left rest).trans List.perm_middle
    rw [List.foldl_cons]
    exact (ih _ ((hnext.map Prod.fst).nodup_iff.mpr h)).trans hnext

/-- With different keys, every entry is kept. -/
theorem perm_entriesOf {pairs : List (String × α)} (h : (pairs.map Prod.fst).Nodup) :
    (entriesOf pairs).Perm pairs := by
  have hperm := perm_foldl_insertEntry pairs [] (by rwa [List.append_nil])
  rwa [List.append_nil] at hperm

/-- With different keys, the order in which entries are put does not count. -/
theorem entriesOf_of_perm {pairs others : List (String × α)} (h : pairs.Perm others)
    (hkeys : (pairs.map Prod.fst).Nodup) : entriesOf pairs = entriesOf others := by
  have hothers : (others.map Prod.fst).Nodup := (h.map _).nodup_iff.mp hkeys
  have hperm : (entriesOf pairs).Perm (entriesOf others) :=
    ((perm_entriesOf hkeys).trans h).trans (perm_entriesOf hothers).symm
  have hsorted : ∀ l : List (String × α),
      (entriesOf l).Pairwise fun e f => e.1 < f.1 :=
    fun l => List.pairwise_map.mp (pairwise_entriesOf l)
  refine hperm.eq_of_pairwise (fun e f _ _ hlt hgt => ?_) (hsorted pairs) (hsorted others)
  exact absurd (Std.lt_trans hlt hgt) Std.lt_irrefl

end

namespace Yaml

/-! ## Parts of YAML values -/

section
variable {print : Number → String}

theorem itemNodes?_eq_some_iff {items : List Value} {nodes : List Node} :
    itemNodes? print items = some nodes ↔
      List.Forall₂ (fun v n => v.node? print = some n) items nodes := by
  induction items generalizing nodes with
  | nil =>
    rw [List.forall₂_nil_left_iff, itemNodes?, Option.some.injEq]
    exact eq_comm
  | cons v rest ih =>
    rw [itemNodes?_cons_eq_some_iff, List.forall₂_cons_left_iff]
    simp only [ih]

/-- The key and the value of an entry stand for a text and a tree. -/
def IsEntry (print : Number → String) (e : Value × Value) (p : String × Node) : Prop :=
  e.1.node? print = some (.scalar p.1) ∧ e.2.node? print = some p.2

theorem entryNodes?_eq_some_iff {entries : List (Value × Value)} {pairs : List (String × Node)} :
    entryNodes? print entries = some pairs ↔ List.Forall₂ (IsEntry print) entries pairs := by
  induction entries generalizing pairs with
  | nil =>
    rw [List.forall₂_nil_left_iff, entryNodes?, Option.some.injEq]
    exact eq_comm
  | cons e rest ih =>
    rw [entryNodes?_cons_eq_some_iff, List.forall₂_cons_left_iff]
    simp only [ih, IsEntry, and_assoc]

end

end Yaml

end TreeSchema
