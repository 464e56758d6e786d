import TreeSchema.Proofs.Steps
import TreeSchema.Schema.Declaration
/-
  What is read from a schema

  Every name, key and target in a declaration that has been read is one or
  more name characters. In particular none holds a dot.
-/

namespace TreeSchema.Schema

/-- One or more name characters. -/
def IsName (name : String) : Prop := name.toList ≠ [] ∧ ∀ c ∈ name.toList, isNameChar c = true

theorem isName_of_checkName {chars : List Char} {name : String}
    (h : checkName chars = .ok name) : IsName name := by
  unfold checkName at h
  split at h
  · cases h
  · next hne =>
    split at h
    · cases h
    · next hfind =>
      cases h
      refine ⟨?_, ?_⟩
      · rw [String.toList_ofList]
        intro hnil
        exact hne (by rw [hnil]; rfl)
      · rw [String.toList_ofList]
        intro c hc
        simpa using List.find?_eq_none.mp hfind c hc

theorem IsName.dot_not_mem {name : String} (h : IsName name) : '.' ∉ name.toList := by
  intro hd
  have := h.2 '.' hd
  revert this
  decide

namespace Item

def Named : Item → Prop
  | reference _ name => IsName name
  | aliased _ key target => IsName key ∧ IsName target
  | literal _ => True
  | text => True

theorem named_of_ofReference {kind : Kind} {word : String} {chars : List Char} {item : Item}
    (h : ofReference kind word chars = .ok item) : item.Named := by
  unfold ofReference at h
  split at h
  · split at h
    · cases h
    · split at h
      · cases h
      · obtain ⟨key, hkey, h⟩ := bind_eq_ok_iff.mp h
        obtain ⟨target, htarget, h⟩ := bind_eq_ok_iff.mp h
        cases h
        exact ⟨isName_of_checkName hkey, isName_of_checkName htarget⟩
  · obtain ⟨name, hname, h⟩ := bind_eq_ok_iff.mp h
    cases h
    exact isName_of_checkName hname

theorem named_of_ofWord {word : List Char} {item : Item} (h : ofWord word = .ok item) :
    item.Named := by
  unfold ofWord at h
  split at h
  · cases h
    trivial
  · dsimp only at h
    split at h
    · split at h
      · cases h
      · cases h
        trivial
    · split at h
      · cases h
      · exact named_of_ofReference h

theorem named_of_ofWords {words : List (List Char)} {items : List Item}
    (h : ofWords words = .ok items) : ∀ item ∈ items, item.Named := by
  induction words generalizing items with
  | nil =>
    cases h
    intro item hitem
    cases hitem
  | cons word rest ih =>
    obtain ⟨first, hfirst, h⟩ := bind_eq_ok_iff.mp h
    obtain ⟨others, hothers, h⟩ := bind_eq_ok_iff.mp h
    cases h
    intro item hitem
    rcases List.mem_cons.mp hitem with rfl | hitem
    · exact named_of_ofWord hfirst
    · exact ih hothers item hitem

end Item

namespace Declaration

structure Named (d : Declaration) : Prop where
  name : IsName d.name
  items : ∀ item ∈ d.items, item.Named

theorem named_of_ofText {line : UInt32} {text : List Char} {d : Declaration}
    (h : ofText line text = .ok d) : d.Named := by
  unfold ofText at h
  split at h
  · cases h
  · dsimp only at h
    split at h
    · cases h
    · obtain ⟨name, hname, h⟩ := bind_eq_ok_iff.mp h
      obtain ⟨items, hitems, h⟩ := bind_eq_ok_iff.mp h
      cases h
      exact ⟨isName_of_checkName hname, Item.named_of_ofWords hitems⟩

theorem named_of_ofLines {file : String} {position : Nat} {lines : List (List Char)}
    {ds : List Declaration} (h : ofLines file position lines = .ok ds) : ∀ d ∈ ds, d.Named := by
  induction lines generalizing position ds with
  | nil =>
    cases h
    intro d hd
    cases hd
  | cons raw rest ih =>
    unfold ofLines at h
    dsimp only at h
    split at h
    · exact ih h
    · split at h
      · cases h
      · next first hfirst =>
        obtain ⟨others, hothers, h⟩ := bind_eq_ok_iff.mp h
        cases h
        intro d hd
        rcases List.mem_cons.mp hd with rfl | hd
        · exact named_of_ofText hfirst
        · exact ih hothers d hd

/-- Whatever is read from a schema text has proper names. -/
theorem named_of_readAll {file source : String} {ds : List Declaration}
    (h : readAll file source = .ok ds) : ∀ d ∈ ds, d.Named :=
  named_of_ofLines h

end Declaration

end TreeSchema.Schema
