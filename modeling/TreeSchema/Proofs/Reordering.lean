import Mathlib.Data.List.Perm.Basic
import TreeSchema.Proofs.Editing
/-
  The order of items

  A validator tries the members of a container in their order and keeps the
  first of those under which the least is wrong. Which one that is depends on
  the order, and so does what is reported; how much is reported does not. The
  number of violations is a minimum over the members, taken anew at every
  item, and it is the same for patterns that ask the same
  (`map_length_check_of_similar`).
-/

namespace TreeSchema.Schema

open Validation
open Grammar (isIdentifier)

/-! ## How much is wrong -/

theorem length_getD_misfit (verdict : Option (List Violation)) (v : Violation) :
    (verdict.getD [v]).length = (verdict.map List.length).getD 1 := by
  cases verdict <;> rfl

theorem map_length_minOn?_eq_some_iff {α : Type} {lists : List (List α)} {k : Nat} :
    (lists.minOn? List.length).map List.length = some k ↔
      k ∈ lists.map List.length ∧ ∀ x ∈ lists.map List.length, k ≤ x := by
  rw [Option.map_eq_some_iff]
  constructor
  · rintro ⟨l, hl, rfl⟩
    refine ⟨List.mem_map_of_mem (List.minOn?_mem hl), fun x hx => ?_⟩
    obtain ⟨m, hm, rfl⟩ := List.mem_map.mp hx
    have hle := List.apply_get_minOn?_le_of_mem (f := List.length) hm
    simpa only [hl, Option.get_some] using hle
  · rintro ⟨hk, hleast⟩
    obtain ⟨m, hm, rfl⟩ := List.mem_map.mp hk
    have hsome : (lists.minOn? List.length).isSome :=
      List.isSome_minOn?_iff.mpr (List.ne_nil_of_mem hm)
    obtain ⟨l, hl⟩ := Option.isSome_iff_exists.mp hsome
    have hle := List.apply_get_minOn?_le_of_mem (f := List.length) hm
    simp only [hl, Option.get_some] at hle
    have hge := hleast l.length (List.mem_map_of_mem (List.minOn?_mem hl))
    exact ⟨l, hl, Nat.le_antisymm hle hge⟩

/-- The length of a shortest list depends only on what lengths there are. -/
theorem map_length_minOn?_congr {α : Type} {lists others : List (List α)}
    (h : ∀ x, x ∈ lists.map List.length ↔ x ∈ others.map List.length) :
    (lists.minOn? List.length).map List.length = (others.minOn? List.length).map List.length := by
  apply Option.ext
  intro k
  rw [map_length_minOn?_eq_some_iff, map_length_minOn?_eq_some_iff, h k]
  simp only [h]

section
variable {ι κ : Type} {R : ι → κ → Prop}

namespace Pattern.Similar
variable {p : Pattern ι} {q : Pattern κ}

theorem begins_eq (h : p.Similar R q) (t : TreeToken) : p.begins t = q.begins t := by
  cases h with
  | anyScalar => rfl
  | @oneOf values others hmem =>
    rw [Bool.eq_iff_iff, Pattern.begins, Pattern.begins, List.any_eq_true, List.any_eq_true]
    simp only [Pattern.heads, List.mem_map, hmem]
  | array left right => rfl
  | mapping left right => rfl

theorem items (h : p.Similar R q) :
    (∀ m ∈ p.items, ∃ o ∈ q.items, R m o) ∧ ∀ o ∈ q.items, ∃ m ∈ p.items, R m o := by
  cases h with
  | array left right => exact ⟨left, right⟩
  | anyScalar => simp [Pattern.items]
  | oneOf _ => simp [Pattern.items]
  | mapping _ _ => simp [Pattern.items]

theorem entries (h : p.Similar R q) :
    (∀ e ∈ p.entries, ∃ f ∈ q.entries, e.1 = f.1 ∧ R e.2 f.2) ∧
      ∀ f ∈ q.entries, ∃ e ∈ p.entries, e.1 = f.1 ∧ R e.2 f.2 := by
  cases h with
  | mapping left right => exact ⟨left, right⟩
  | anyScalar => simp [Pattern.entries]
  | oneOf _ => simp [Pattern.entries]
  | array _ _ => simp [Pattern.entries]

end Pattern.Similar

theorem Pattern.Proper.nodup_keys {p : Pattern ι} (h : p.Proper) :
    (p.entries.map Prod.fst).Nodup := by
  cases p with
  | mapping members => exact h
  | anyScalar => exact List.nodup_nil
  | oneOf values => exact List.nodup_nil
  | array members => exact List.nodup_nil

variable {verdict : ι → Option (List Violation)} {verdict' : κ → Option (List Violation)}

theorem mem_lengths_of_related {members : List ι} {others : List κ}
    (hleft : ∀ m ∈ members, ∃ o ∈ others, R m o)
    (h : ∀ i k, R i k → (verdict i).map List.length = (verdict' k).map List.length) {x : Nat}
    (hx : x ∈ (members.filterMap verdict).map List.length) :
    x ∈ (others.filterMap verdict').map List.length := by
  obtain ⟨l, hl, rfl⟩ := List.mem_map.mp hx
  obtain ⟨m, hm, hverdict⟩ := List.mem_filterMap.mp hl
  obtain ⟨o, ho, hmo⟩ := hleft m hm
  have hlength := h m o hmo
  rw [hverdict, Option.map_some] at hlength
  obtain ⟨l', hl', hsame⟩ := Option.map_eq_some_iff.mp hlength.symm
  exact List.mem_map.mpr ⟨l', List.mem_filterMap.mpr ⟨o, ho, hl'⟩, hsame⟩

theorem isEmpty_eq_of_related {α β : Type} {P : α → β → Prop} {l : List α} {k : List β}
    (hleft : ∀ a ∈ l, ∃ b ∈ k, P a b) (hright : ∀ b ∈ k, ∃ a ∈ l, P a b) :
    l.isEmpty = k.isEmpty := by
  rw [Bool.eq_iff_iff, List.isEmpty_iff, List.isEmpty_iff]
  exact eq_nil_iff_of_related hleft hright

theorem map_length_itemVerdict {members : List ι} {others : List κ}
    (hleft : ∀ m ∈ members, ∃ o ∈ others, R m o) (hright : ∀ o ∈ others, ∃ m ∈ members, R m o)
    (h : ∀ i k, R i k → (verdict i).map List.length = (verdict' k).map List.length) (n : Node) :
    (itemVerdict members n verdict).map List.length
      = (itemVerdict others n verdict').map List.length := by
  have hlengths : ∀ x, x ∈ (members.filterMap verdict).map List.length ↔
      x ∈ (others.filterMap verdict').map List.length := by
    intro x
    constructor
    · exact mem_lengths_of_related hleft h
    · exact mem_lengths_of_related (R := fun o m => R m o) hright fun k i hik => (h i k hik).symm
  unfold itemVerdict
  rw [isEmpty_eq_of_related hleft hright]
  split
  · rfl
  · exact map_length_minOn?_congr hlengths

/-- Where no key comes twice, the member under a key is found wherever it
stands. -/
theorem find?_key_of_mem {members : List (String × ι)} (hkeys : (members.map Prod.fst).Nodup)
    {m : String × ι} (hm : m ∈ members) : members.find? (fun x => x.1 == m.1) = some m :=
  find?_of_nodup_map hkeys hm fun _ _ => beq_iff_eq

theorem map_length_entryVerdict {members : List (String × ι)} {others : List (String × κ)}
    (hkeys : (members.map Prod.fst).Nodup) (hkeys' : (others.map Prod.fst).Nodup)
    (hleft : ∀ e ∈ members, ∃ f ∈ others, e.1 = f.1 ∧ R e.2 f.2)
    (hright : ∀ f ∈ others, ∃ e ∈ members, e.1 = f.1 ∧ R e.2 f.2)
    (h : ∀ i k, R i k → (verdict i).map List.length = (verdict' k).map List.length)
    (key : String) (n : Node) :
    (entryVerdict members key n verdict).map List.length
      = (entryVerdict others key n verdict').map List.length := by
  have hfind : ((members.find? fun m => m.1 == key).bind fun m => verdict m.2).map List.length
      = ((others.find? fun m => m.1 == key).bind fun m => verdict' m.2).map List.length := by
    by_cases hkey : ∃ e ∈ members, e.1 = key
    · obtain ⟨e, he, rfl⟩ := hkey
      obtain ⟨f, hf, hef, hR⟩ := hleft e he
      rw [find?_key_of_mem hkeys he, hef, find?_key_of_mem hkeys' hf]
      exact h _ _ hR
    · have hnone : members.find? (fun m => m.1 == key) = none := by
        rw [List.find?_eq_none]
        intro e he hbeq
        exact hkey ⟨e, he, beq_iff_eq.mp hbeq⟩
      have hnone' : others.find? (fun m => m.1 == key) = none := by
        rw [List.find?_eq_none]
        intro f hf hbeq
        obtain ⟨e, he, hef, _⟩ := hright f hf
        exact hkey ⟨e, he, hef.trans (beq_iff_eq.mp hbeq)⟩
      rw [hnone, hnone']
      rfl
  unfold entryVerdict
  rw [isEmpty_eq_of_related hleft hright]
  split
  · rfl
  · exact hfind

variable {meaning : ι → Pattern ι} {meaning' : κ → Pattern κ} {label : ι → String}
  {label' : κ → String}

theorem length_checkItems {members : List ι} {others : List κ} {items : List Node}
    (rule rule' path : String) (hleft : ∀ m ∈ members, ∃ o ∈ others, R m o)
    (hright : ∀ o ∈ others, ∃ m ∈ members, R m o)
    (h : ∀ n ∈ items, ∀ path i k, R i k → (check meaning label path n i).map List.length
      = (check meaning' label' path n k).map List.length) (index : Nat) :
    (checkItems meaning label rule members path index items).length
      = (checkItems meaning' label' rule' others path index items).length := by
  induction items generalizing index with
  | nil => rfl
  | cons n rest ih =>
    have hfirst := map_length_itemVerdict hleft hright
      (h n List.mem_cons_self (Path.child path (toString index))) n
    rw [checkItems, checkItems, List.length_append, List.length_append, length_getD_misfit,
      length_getD_misfit, hfirst, ih (fun m hm => h m (List.mem_cons_of_mem n hm))]

theorem length_checkEntries {members : List (String × ι)} {others : List (String × κ)}
    {entries : List (String × Node)} (rule rule' path : String)
    (hkeys : (members.map Prod.fst).Nodup) (hkeys' : (others.map Prod.fst).Nodup)
    (hleft : ∀ e ∈ members, ∃ f ∈ others, e.1 = f.1 ∧ R e.2 f.2)
    (hright : ∀ f ∈ others, ∃ e ∈ members, e.1 = f.1 ∧ R e.2 f.2)
    (h : ∀ e ∈ entries, ∀ path i k, R i k → (check meaning label path e.2 i).map List.length
      = (check meaning' label' path e.2 k).map List.length) :
    (checkEntries meaning label rule members path entries).length
      = (checkEntries meaning' label' rule' others path entries).length := by
  induction entries with
  | nil => rfl
  | cons e rest ih =>
    obtain ⟨key, n⟩ := e
    have hfirst := map_length_entryVerdict hkeys hkeys' hleft hright
      (h (key, n) List.mem_cons_self (Path.child path key)) key n
    rw [checkEntries, checkEntries, List.length_append, List.length_append, length_getD_misfit,
      length_getD_misfit, hfirst, ih (fun f hf => h f (List.mem_cons_of_mem _ hf))]

/-- As much is wrong with a tree under patterns that ask the same. -/
theorem map_length_check_of_similar (hR : ∀ i k, R i k → (meaning i).Similar R (meaning' k))
    (hproper : ∀ i k, R i k → (meaning i).Proper ∧ (meaning' k).Proper) {i : ι} {k : κ}
    (hik : R i k) (n : Node) (path : String) :
    (check meaning label path n i).map List.length
      = (check meaning' label' path n k).map List.length := by
  -- Every level takes its own minimum, so the counts below it are compared for all members.
  induction n using Node.induction generalizing i k path with
  | scalar text =>
    rw [check, check, (hR i k hik).begins_eq]
  | sequence items ih =>
    obtain ⟨hleft, hright⟩ := (hR i k hik).items
    have hlength := length_checkItems (label i) (label' k) path hleft hright
      (fun n hn path i k hik => ih n hn hik path) 0
    rw [check, check, (hR i k hik).begins_eq]
    split
    · rw [Option.map_some, Option.map_some, hlength]
    · rfl
  | mapping entries ih =>
    obtain ⟨hleft, hright⟩ := (hR i k hik).entries
    obtain ⟨hp, hp'⟩ := hproper i k hik
    have hlength := length_checkEntries (label i) (label' k) path hp.nodup_keys hp'.nodup_keys
      hleft hright (fun e he path i k hik => ih e he hik path)
    rw [check, check, (hR i k hik).begins_eq]
    split
    · rw [Option.map_some, Option.map_some, hlength]
    · rfl

theorem length_treeViolations_of_similar (hR : ∀ i k, R i k → (meaning i).Similar R (meaning' k))
    (hproper : ∀ i k, R i k → (meaning i).Proper ∧ (meaning' k).Proper) {i : ι} {k : κ}
    (hik : R i k) (n : Node) :
    (treeViolations meaning label i n).length = (treeViolations meaning' label' k n).length := by
  rw [treeViolations, treeViolations, length_getD_misfit, length_getD_misfit,
    map_length_check_of_similar hR hproper hik]

end

/-! ## Items in another order -/

theorem patternOf_of_perm {kind : Kind} {items items' : List Item} (h : items.Perm items') :
    (patternOf kind items).Similar Eq (patternOf kind items') := by
  cases kind with
  | scalar =>
    have hany : (items = [] ∨ Item.text ∈ items) ↔ (items' = [] ∨ Item.text ∈ items') := by
      rw [← List.length_eq_zero_iff, ← List.length_eq_zero_iff, h.length_eq, h.mem_iff]
    unfold patternOf
    dsimp only
    simp only [hany]
    split
    · exact .anyScalar
    · exact .oneOf fun x => (h.filterMap Item.literal?).mem_iff
  | array =>
    have hmem := fun m => (h.filterMap Item.member?).mem_iff (a := m)
    exact .array (fun m hm => ⟨m, (hmem m).mp hm, rfl⟩) (fun m hm => ⟨m, (hmem m).mpr hm, rfl⟩)
  | mapping =>
    have hmem := fun e => (h.filterMap Item.entry?).mem_iff (a := e)
    exact .mapping (fun e he => ⟨e, (hmem e).mp he, rfl, rfl⟩)
      (fun e he => ⟨e, (hmem e).mpr he, rfl, rfl⟩)

theorem Declaration.exists_shape_of_perm {d d' : Declaration} {s : Shape}
    (hkind : d'.kind = d.kind) (h : d.items.Perm d'.items) (hs : d.shape = .ok s) :
    ∃ s', d'.shape = .ok s' := by
  cases hk : d.kind with
  | scalar =>
    have hitems := ((shape_scalar_iff hk).mp hs).1
    rw [hk] at hkind
    exact ⟨_, (shape_scalar_iff hkind).mpr ⟨fun i hi => hitems i (h.mem_iff.mpr hi), rfl⟩⟩
  | array =>
    have hitems := ((shape_array_iff hk).mp hs).1
    rw [hk] at hkind
    exact ⟨_, (shape_array_iff hkind).mpr ⟨fun i hi => hitems i (h.mem_iff.mpr hi), rfl⟩⟩
  | mapping =>
    obtain ⟨_, _, hitems, rfl, hnodup⟩ := (shape_mapping_iff hk).mp hs
    have hperm := ((h.filterMap Item.entry?).map fun e => e.2.keyedMember e.1).map MemberSpec.key
    rw [hk] at hkind
    exact ⟨_, (shape_mapping_iff hkind).mpr
      ⟨_, rfl, fun i hi => hitems i (h.mem_iff.mpr hi), rfl, hperm.nodup_iff.mp hnodup⟩⟩

/-- The second text has the lines of the first, save that on some of them the
words after the colon stand in another order. -/
def ItemsReordered (source source' : String) : Prop :=
  List.Forall₂ (fun raw raw' => raw' = raw ∨ ItemsEdited List.Perm raw raw')
    (Text.lines source.toList) (Text.lines source'.toList)

theorem ItemsReordered.lineReads {source source' : String} (h : ItemsReordered source source') :
    List.Forall₂ (Declaration.LineReads (Declaration.Revises (Pattern.Similar Eq)))
      (Text.lines source.toList) (Text.lines source'.toList) := by
  refine List.Forall₂.imp (fun raw raw' hline => ?_) h
  rcases hline with rfl | hedited
  · exact .of_eq (Declaration.Revises.refl Pattern.Similar.refl) _
  · refine .of_itemsEdited hedited fun line d words words' _ hperm hitems => ?_
    -- The permutation of the words is one of the items they stand for.
    obtain ⟨items, hwords', hitems'⟩ :=
      List.perm_comp_forall₂ hperm.symm (Item.ofWords_eq_ok_iff.mp hitems)
    refine ⟨items, Item.ofWords_eq_ok_iff.mpr hwords', rfl, fun s hs => ?_, ?_⟩
    · exact Declaration.exists_shape_of_perm (d := d) rfl hitems'.symm hs
    · exact patternOf_of_perm hitems'.symm

namespace Resolved
variable {s s' : Resolved} {es es' : List Entity} {wanted : Option String}

/-- The roots of two schemas that declare the same kinds and names go by one
kind and name. -/
theorem Closes.exists_names_root (h : s.Closes es wanted) (h' : s'.Closes es' wanted)
    (href : es'.map Entity.reference = es.map Entity.reference) :
    ∃ r, s.Names s.root r ∧ s'.Names s'.root r := by
  obtain ⟨e, _, _, hroot⟩ := h.root
  refine ⟨e.reference, h.names_root hroot, h'.names_root ?_⟩
  rw [href]
  exact hroot

theorem Names.present {id : Nat} {r : Reference} (h : s.Names id r) : s.Present id := by
  obtain ⟨e, he, _⟩ := Option.map_eq_some_iff.mp h
  exact ⟨e, he⟩

end Resolved

/-- If a schema text compiles, so does a text with the same items in another
order, and the two validators report the same number of violations of every
document. -/
theorem length_violations_of_itemsReordered {file source source' text : String} {options : Options}
    (hname : isIdentifier options.name = true) (hitems : ItemsReordered source source')
    (h : compile file source options = .ok text) :
    ∃ text' v v', compile file source' options = .ok text' ∧ Validator.ofText text = .ok v ∧
      Validator.ofText text' = .ok v' ∧
      ∀ n, ∃ found found', v.violations? n = some found ∧ v'.violations? n = some found' ∧
        found.length = found'.length := by
  obtain ⟨text', h', hasks⟩ := exists_compile_of_revises Pattern.Similar.refl h hitems.lineReads
  obtain ⟨ds, es, s, v, hds, hes, _, hcloses, hdesc, hv, hfound⟩ :=
    exists_resolved_of_compile hname h
  obtain ⟨ds', es', s', v', hds', hes', _, hcloses', hdesc', hv', hfound'⟩ :=
    exists_resolved_of_compile hname h'
  obtain ⟨href, hsimilar⟩ := hasks ds ds' hds hds'
  rw [← map_reference_of_assemble hes, ← map_reference_of_assemble hes'] at href
  -- Places that go by one kind and name ask the same in both schemas.
  have hR : ∀ i k, Relation.Comp s.Names (fun r k => s'.Names k r) i k →
      (s.pattern i).Similar (Relation.Comp s.Names fun r k => s'.Names k r) (s'.pattern k) := by
    rintro i k ⟨r, hi, hk⟩
    have hleft := (similar_declaredMeaning hes hcloses i r hi).trans_eq (hsimilar r)
    exact hleft.comp (similar_declaredMeaning hes' hcloses' k r hk).symm
  have hproper : ∀ i k, Relation.Comp s.Names (fun r k => s'.Names k r) i k →
      (s.pattern i).Proper ∧ (s'.pattern k).Proper := by
    rintro i k ⟨r, hi, hk⟩
    exact ⟨hdesc.proper i hi.present, hdesc'.proper k hk.present⟩
  refine ⟨text', v, v', h', hv, hv', fun n => ⟨_, _, hfound n, hfound' n, ?_⟩⟩
  exact length_treeViolations_of_similar hR hproper (hcloses.exists_names_root hcloses' href) n

/-- `nestedSource` with the items of every declaration turned round. -/
def nestedTurned : String :=
  "%tree: @(below)children $value\n@children: $leaf %tree\n$leaf: 'y 'x"

theorem nested_length_violations :
    ∃ text text' v v', compile nestedFile nestedSource { name := "Tree" } = .ok text ∧
      compile nestedFile nestedTurned { name := "Tree" } = .ok text' ∧
      Validator.ofText text = .ok v ∧ Validator.ofText text' = .ok v' ∧
      ∀ n, ∃ found found', v.violations? n = some found ∧ v'.violations? n = some found' ∧
        found.length = found'.length := by
  obtain ⟨text, _, htext, _⟩ := exists_validator_nested
  have hlines : Text.lines nestedSource.toList = ["%tree: $value @(below)children".toList,
      "@children: %tree $leaf".toList, "$leaf: 'x 'y".toList] := by decide +kernel
  have hlines' : Text.lines nestedTurned.toList = ["%tree: @(below)children $value".toList,
      "@children: $leaf %tree".toList, "$leaf: 'y 'x".toList] := by decide +kernel
  have hitems : ItemsReordered nestedSource nestedTurned := by
    rw [ItemsReordered, hlines, hlines']
    refine .cons (Or.inr ⟨"%tree".toList, _, _, by decide, rfl, rfl, ?_⟩)
      (.cons (Or.inr ⟨"@children".toList, _, _, by decide, rfl, rfl, ?_⟩)
        (.cons (Or.inr ⟨"$leaf".toList, _, _, by decide, rfl, rfl, ?_⟩) .nil))
    · decide +kernel
    · decide +kernel
    · decide +kernel
  obtain ⟨text', v, v', htext', hverdicts⟩ :=
    length_violations_of_itemsReordered (by decide) hitems htext
  exact ⟨text, text', v, v', htext, htext', hverdicts⟩

end TreeSchema.Schema
