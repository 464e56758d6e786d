import TreeSchema.Proofs.Editing
/-
  One item more

  A declaration that constrains can take another item: a literal beside
  literals, a member beside members. What it asks becomes less, whatever the
  item refers to, and so does what is asked wherever the declaration is
  referred to. A document that was accepted stays accepted.

  A declaration without items is another matter, since its first item is
  what makes it constrain.
-/

namespace TreeSchema.Schema

open Validation
open Grammar (isIdentifier)

namespace Declaration

/-- The declaration lists literals, or has members, and the item is one more of
them; in a mapping it stands under a key of its own. -/
def CanTake (d : Declaration) (item : Item) : Prop :=
  match d.kind with
  | .scalar => d.items ≠ [] ∧ ∀ i ∈ item :: d.items, i.literal?.isSome
  | .array => d.items.filterMap Item.member? ≠ [] ∧ item.member?.isSome
  | .mapping => d.items.filterMap Item.entry? ≠ [] ∧
      ∃ e, item.entry? = some e ∧ e.1 ∉ (d.items.filterMap Item.entry?).map Prod.fst

section
variable {d d' : Declaration} {item : Item} {left right : List Item}

theorem mem_insert_iff (hitems : d.items = left ++ right)
    (hitems' : d'.items = left ++ item :: right) {x : Item} :
    x ∈ d'.items ↔ x = item ∨ x ∈ d.items := by
  rw [hitems, hitems', List.mem_append, List.mem_append, List.mem_cons]
  exact or_left_comm

theorem exists_shape_of_insert (hkind : d'.kind = d.kind) (hitems : d.items = left ++ right)
    (hitems' : d'.items = left ++ item :: right) (hcan : d.CanTake item) {s : Shape}
    (hs : d.shape = .ok s) : ∃ s', d'.shape = .ok s' := by
  have hmem := fun x => mem_insert_iff hitems hitems' (x := x)
  unfold CanTake at hcan
  cases hk : d.kind with
  | scalar =>
    rw [hk] at hcan hkind
    refine ⟨_, (shape_scalar_iff hkind).mpr ⟨fun x hx => ?_, rfl⟩⟩
    have hliteral := hcan.2 x (List.mem_cons.mpr ((hmem x).mp hx))
    obtain ⟨value, hvalue⟩ := Option.isSome_iff_exists.mp hliteral
    cases x <;> cases hvalue
    exact Or.inr ⟨_, rfl⟩
  | array =>
    have hold := ((shape_array_iff hk).mp hs).1
    rw [hk] at hcan hkind
    refine ⟨_, (shape_array_iff hkind).mpr ⟨fun x hx => ?_, rfl⟩⟩
    rcases (hmem x).mp hx with rfl | hx
    · exact hcan.2
    · exact hold x hx
  | mapping =>
    obtain ⟨_, _, hold, rfl, hnodup⟩ := (shape_mapping_iff hk).mp hs
    rw [hk] at hcan hkind
    obtain ⟨_, e, he, hfresh⟩ := hcan
    refine ⟨_, (shape_mapping_iff hkind).mpr ⟨_, rfl, fun x hx => ?_, rfl, ?_⟩⟩
    · rcases (hmem x).mp hx with rfl | hx
      · rw [he]
        rfl
      · exact hold x hx
    · -- The key stands somewhere among the others, and is none of them.
      have hperm : d'.items.Perm (item :: d.items) := by
        rw [hitems, hitems']
        exact List.perm_middle
      have hkeys := ((hperm.filterMap Item.entry?).map
        fun e => e.2.keyedMember e.1).map MemberSpec.key
      rw [hkeys.nodup_iff, List.filterMap_cons_some he, List.map_cons, List.map_cons,
        List.nodup_cons]
      refine ⟨fun hin => hfresh ?_, hnodup⟩
      rw [List.map_map] at hin
      obtain ⟨f, hf, hkey⟩ := List.mem_map.mp hin
      have hsame : f.1 = e.1 := Option.some.inj hkey
      rw [← hsame]
      exact List.mem_map_of_mem hf

theorem patternOf_within_insert (hitems : d.items = left ++ right)
    (hitems' : d'.items = left ++ item :: right) (hkind : d'.kind = d.kind)
    (hcan : d.CanTake item) :
    (patternOf d.kind d.items).Within Eq (patternOf d'.kind d'.items) := by
  have hmem := fun x => mem_insert_iff hitems hitems' (x := x)
  have hsub {β : Type} (f : Item → Option β) :
      ∀ b ∈ d.items.filterMap f, b ∈ d'.items.filterMap f := by
    intro b hb
    obtain ⟨x, hx, hfx⟩ := List.mem_filterMap.mp hb
    exact List.mem_filterMap.mpr ⟨x, (hmem x).mpr (Or.inr hx), hfx⟩
  unfold CanTake at hcan
  rw [hkind]
  cases hk : d.kind with
  | scalar =>
    rw [hk] at hcan
    have htext : ∀ x ∈ item :: d.items, x ≠ Item.text := by
      rintro x hx rfl
      cases hcan.2 _ hx
    have hany : ¬ (d.items = [] ∨ Item.text ∈ d.items) := by
      rintro (hnil | hin)
      · exact hcan.1 hnil
      · exact htext _ (List.mem_cons_of_mem _ hin) rfl
    have hany' : ¬ (d'.items = [] ∨ Item.text ∈ d'.items) := by
      rintro (hnil | hin)
      · rw [hitems'] at hnil
        exact absurd hnil (by simp)
      · exact htext _ (List.mem_cons.mpr ((hmem _).mp hin)) rfl
    unfold patternOf
    dsimp only
    rw [if_neg hany, if_neg hany']
    exact .oneOf (hsub Item.literal?)
  | array =>
    rw [hk] at hcan
    exact .array (fun m hm => ⟨m, hsub _ m hm, rfl⟩) fun hnil => absurd hnil hcan.1
  | mapping =>
    rw [hk] at hcan
    exact .mapping (fun e he => ⟨e, hsub _ e he, rfl, rfl⟩) fun hnil => absurd hnil hcan.1

end

end Declaration

/-- The second text has the lines of the first, save that on one of them a
word is put among the words after the colon, and what the line declares can
take the item that the word stands for. -/
def ItemAdded (source source' : String) : Prop :=
  ∃ above raw raw' below d word item,
    Text.lines source.toList = above ++ raw :: below ∧
    Text.lines source'.toList = above ++ raw' :: below ∧
    Declaration.ofLine? raw = some d ∧ Item.ofWord word = .ok item ∧ d.CanTake item ∧
    ItemsEdited (fun words words' => ∃ left right, words = left ++ right ∧
      words' = left ++ word :: right) raw raw'

theorem ItemAdded.lineReads {source source' : String} (h : ItemAdded source source') :
    List.Forall₂ (Declaration.LineReads (Declaration.Revises (Pattern.Within Eq)))
      (Text.lines source.toList) (Text.lines source'.toList) := by
  obtain ⟨above, raw, raw', below, d, word, item, hlines, hlines', hd, hitem, hcan, hedited⟩ := h
  have hsame : ∀ raw, Declaration.LineReads (Declaration.Revises (Pattern.Within Eq)) raw raw :=
    .of_eq (Declaration.Revises.refl fun p => (Pattern.Similar.refl p).within)
  rw [hlines, hlines']
  refine List.rel_append (List.forall₂_same.mpr fun raw _ => hsame raw)
    (.cons ?_ (List.forall₂_same.mpr fun raw _ => hsame raw))
  refine .of_itemsEdited hedited fun line e words words' he hwords hitems => ?_
  -- The line declares the same wherever it stands.
  have hde : d = { e with line := 0 } := by
    unfold Declaration.ofLine? at hd
    split at hd
    · cases hd
    · rw [Declaration.ofText_zero he] at hd
      exact (Option.some.inj hd).symm
  have htakes : e.CanTake item := by
    rw [hde] at hcan
    exact hcan
  obtain ⟨left, right, rfl, rfl⟩ := hwords
  have hread := (Item.ofWords_eq_ok_iff.mp hitems).flip
  have hleft := (List.forall₂_take_append _ left right hread).flip
  have hright := (List.forall₂_drop_append _ left right hread).flip
  have hsplit := (List.take_append_drop left.length e.items).symm
  have hitems' := List.rel_append hleft (.cons hitem hright)
  refine ⟨_, Item.ofWords_eq_ok_iff.mpr hitems', rfl, fun s hs => ?_, ?_⟩
  · exact Declaration.exists_shape_of_insert (d := e) rfl hsplit rfl htakes hs
  · exact Declaration.patternOf_within_insert hsplit rfl rfl htakes

/-- If a schema text compiles, so does a text with one item more in a
declaration that can take it, and a document without violations stays without
them. -/
theorem accepted_of_itemAdded {file source source' text : String} {options : Options}
    (hname : isIdentifier options.name = true) (hadded : ItemAdded source source')
    (h : compile file source options = .ok text) :
    ∃ text' v v', compile file source' options = .ok text' ∧ Validator.ofText text = .ok v ∧
      Validator.ofText text' = .ok v' ∧
      ∀ n, v.violations? n = some [] → v'.violations? n = some [] := by
  obtain ⟨text', h', hasks⟩ :=
    exists_compile_of_revises (fun p => (Pattern.Similar.refl p).within) h hadded.lineReads
  obtain ⟨ds, es, s, v, hds, hes, _, hcloses, hdesc, hv, hfound⟩ :=
    exists_resolved_of_compile hname h
  obtain ⟨ds', es', s', v', hds', hes', _, hcloses', hdesc', hv', hfound'⟩ :=
    exists_resolved_of_compile hname h'
  obtain ⟨href, hwithin⟩ := hasks ds ds' hds hds'
  obtain ⟨root, _, hroot, hconforms⟩ := conforms_root_iff hes hcloses
  obtain ⟨root', _, hroot', hconforms'⟩ := conforms_root_iff hes' hcloses'
  -- The root is chosen among the same kinds and names.
  have hsame : root = root' := by
    rw [href, hroot] at hroot'
    exact Option.some.inj hroot'
  refine ⟨text', v, v', h', hv, hv', fun n hclean => ?_⟩
  rw [hfound, Option.some.injEq, treeViolations_eq_nil_iff hdesc hcloses.present_root,
    hconforms] at hclean
  rw [hfound', Option.some.injEq, treeViolations_eq_nil_iff hdesc' hcloses'.present_root,
    hconforms']
  refine conforms_of_within (R := Eq) ?_ hsame hclean
  rintro r _ rfl
  exact hwithin r

/-- `nestedSource`, where children may also be sequences of children. -/
def nestedDeeper : String :=
  "%tree: $value @(below)children\n@children: %tree @children $leaf\n$leaf: 'x 'y"

/-- A document of `nestedSource` stays accepted. -/
theorem nested_accepted_deeper :
    ∃ text text' v v', compile nestedFile nestedSource { name := "Tree" } = .ok text ∧
      compile nestedFile nestedDeeper { name := "Tree" } = .ok text' ∧
      Validator.ofText text = .ok v ∧ Validator.ofText text' = .ok v' ∧
      v.violations? (.mapping [("below", .sequence [.scalar "y", .mapping []])]) = some [] ∧
      v'.violations? (.mapping [("below", .sequence [.scalar "y", .mapping []])]) = some [] := by
  have hadded : ItemAdded nestedSource nestedDeeper := by
    refine ⟨["%tree: $value @(below)children".toList], "@children: %tree $leaf".toList,
      "@children: %tree @children $leaf".toList, ["$leaf: 'x 'y".toList],
      { kind := .array, name := "children", line := 0
        items := [.reference .mapping "tree", .reference .scalar "leaf"] },
      "@children".toList, .reference .array "children", by decide +kernel, by decide +kernel,
      by decide +kernel, by decide +kernel, ⟨by decide, rfl⟩, "@children".toList, _, _, by decide,
      rfl, rfl, ["%tree".toList], ["$leaf".toList], by decide +kernel, by decide +kernel⟩
  obtain ⟨text, w, hcompile, hw, hfound⟩ := exists_validator_nested
  obtain ⟨text', v, v', hcompile', hv, hv', hkept⟩ :=
    accepted_of_itemAdded (by decide) hadded hcompile
  rw [hw] at hv
  cases hv
  have hclean := hfound (.mapping [("below", .sequence [.scalar "y", .mapping []])])
  have hnone : treeViolations nested.pattern nested.nonterminalAt nested.root
      (.mapping [("below", .sequence [.scalar "y", .mapping []])]) = [] := by
    decide +kernel
  rw [hnone] at hclean
  exact ⟨_, text', w, v', hcompile, hcompile', hw, hv', hclean, hkept _ hclean⟩

end TreeSchema.Schema
