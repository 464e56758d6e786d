import Mathlib.Data.List.Nodup
import TreeSchema.Grammar.First
import TreeSchema.Schema.Assembly
/-
  Dropping repeats

  Values gathered one after another, each only once, are the values without
  their later repeats, in order. Assembly gathers literals and members in
  this way, and first terminals are gathered in the same way. Where nothing
  repeats, a search by name finds what has the name.
-/

namespace TreeSchema

open Schema Grammar

section
variable {α : Type} [DecidableEq α]

theorem mem_addNew {known : List α} {a x : α} : x ∈ addNew known a ↔ x ∈ known ∨ x = a := by
  unfold addNew
  split
  · next ha =>
    constructor
    · exact Or.inl
    · rintro (hx | rfl)
      · exact hx
      · exact ha
  · simp

theorem nodup_addNew {known : List α} (h : known.Nodup) (a : α) : (addNew known a).Nodup := by
  unfold addNew
  split
  · exact h
  · next ha =>
    refine List.nodup_append.mpr ⟨h, by simp, ?_⟩
    intro x hx y hy
    rw [List.mem_singleton.mp hy]
    rintro rfl
    exact ha hx

theorem mem_foldl_addNew {known values : List α} {x : α} :
    x ∈ values.foldl addNew known ↔ x ∈ known ∨ x ∈ values := by
  induction values generalizing known with
  | nil => simp
  | cons a rest ih => rw [List.foldl_cons, ih, mem_addNew, List.mem_cons, or_assoc]

theorem nodup_foldl_addNew {known : List α} (h : known.Nodup) (values : List α) :
    (values.foldl addNew known).Nodup := by
  induction values generalizing known with
  | nil => exact h
  | cons a rest ih => exact ih (nodup_addNew h a)

/-- Leaving out one more value is leaving it out of what is left. -/
theorem filter_not_mem_append (known values : List α) (a : α) :
    values.filter (fun x => x ∉ known ++ [a])
      = (values.filter (fun x => x ∉ known)).filter (fun x => !x == a) := by
  rw [List.filter_filter]
  apply List.filter_congr
  intro x _
  by_cases hxa : x = a
  · simp [hxa]
  · simp [hxa, List.mem_append]

/-- Values gathered after known ones are those not known, without repeats. -/
theorem foldl_addNew_eq (known values : List α) :
    values.foldl addNew known = known ++ (values.filter (fun x => x ∉ known)).eraseDups := by
  induction values generalizing known with
  | nil => simp
  | cons a rest ih =>
    rw [List.foldl_cons, ih]
    by_cases ha : a ∈ known
    · simp [addNew, ha]
    · rw [List.filter_cons_of_pos (by simpa using ha), List.eraseDups_cons,
        ← filter_not_mem_append]
      simp [addNew, ha]

theorem foldl_addNew_nil (values : List α) : values.foldl addNew [] = values.eraseDups := by
  rw [foldl_addNew_eq, List.nil_append, List.filter_eq_self.mpr (by simp)]

/-- Gathering values under other names that are told apart is the same as
gathering the values. -/
theorem foldl_addNew_map {β : Type} [DecidableEq β] {f : α → β} (hf : Function.Injective f)
    (known values : List α) :
    (values.map f).foldl addNew (known.map f) = (values.foldl addNew known).map f := by
  have hstep : ∀ (known : List α) (a : α), addNew (known.map f) (f a) = (addNew known a).map f := by
    intro known a
    unfold addNew
    by_cases ha : a ∈ known
    · rw [if_pos ha, if_pos (List.mem_map_of_mem ha)]
    · rw [if_neg ha, if_neg (by rwa [List.mem_map_of_injective hf])]
      simp
  induction values generalizing known with
  | nil => rfl
  | cons a rest ih => rw [List.map_cons, List.foldl_cons, List.foldl_cons, hstep, ih]

/-- What is left when some values and all repeats are dropped stands in the
order in which the values come first. -/
theorem pairwise_idxOf_eraseDups (values : List α) (p : α → Bool) :
    (values.filter p).eraseDups.Pairwise (fun a b => values.idxOf a < values.idxOf b) := by
  -- Behind a value at the front, every other value comes one place later.
  have hshift : ∀ (a : α) (rest kept : List α), (∀ x ∈ kept, x ≠ a) →
      kept.Pairwise (fun x y => rest.idxOf x < rest.idxOf y) →
      kept.Pairwise (fun x y => (a :: rest).idxOf x < (a :: rest).idxOf y) := by
    intro a rest kept hne h
    refine h.imp_of_mem ?_
    intro x y hx hy hxy
    rw [List.idxOf_cons_ne rest (hne x hx).symm, List.idxOf_cons_ne rest (hne y hy).symm]
    omega
  induction values generalizing p with
  | nil => simp
  | cons a rest ih =>
    by_cases ha : p a = true
    · rw [List.filter_cons_of_pos ha, List.eraseDups_cons, List.filter_filter]
      have hne : ∀ x ∈ (rest.filter (fun x => !x == a && p x)).eraseDups, x ≠ a := by
        intro x hx
        have hkept := (List.mem_filter.mp (List.mem_eraseDups.mp hx)).2
        simp only [Bool.and_eq_true, Bool.not_eq_true', beq_eq_false_iff_ne] at hkept
        exact hkept.1
      refine List.pairwise_cons.mpr ⟨?_, hshift a rest _ hne (ih _)⟩
      intro b hb
      rw [List.idxOf_cons_self, List.idxOf_cons_ne rest (hne b hb).symm]
      omega
    · rw [List.filter_cons_of_neg ha]
      apply hshift a rest _ ?_ (ih p)
      intro x hx hxa
      rw [← hxa] at ha
      exact ha (List.mem_filter.mp (List.mem_eraseDups.mp hx)).2

theorem eraseDups_of_nodup {values : List α} (h : values.Nodup) : values.eraseDups = values := by
  induction values with
  | nil => rfl
  | cons a rest ih =>
    obtain ⟨ha, hrest⟩ := List.nodup_cons.mp h
    have hkeep : rest.filter (fun x => !x == a) = rest := by
      apply List.filter_eq_self.mpr
      intro x hx
      have hne : x ≠ a := fun hxa => ha (hxa ▸ hx)
      simpa using hne
    rw [List.eraseDups_cons, hkeep, ih hrest]

end

/-- A search by a name that nothing else has finds what has it. -/
theorem find?_of_nodup_map {α κ : Type} {name : α → κ} {l : List α} (hl : (l.map name).Nodup)
    {p : α → Bool} {a : α} (ha : a ∈ l) (hp : ∀ x ∈ l, p x = true ↔ name x = name a) :
    l.find? p = some a := by
  cases hf : l.find? p with
  | none => exact absurd ((hp a ha).mpr rfl) (List.find?_eq_none.mp hf a ha)
  | some x =>
    have hx := List.mem_of_find?_eq_some hf
    have hname : name x = name a := (hp x hx).mp (List.find?_some hf)
    rw [List.inj_on_of_nodup_map hl hx ha hname]

/-- What has a name that nothing else has is all that has it. -/
theorem filter_of_nodup_map {α κ : Type} {name : α → κ} {l : List α} (hl : (l.map name).Nodup)
    {p : α → Bool} {key : κ} (hp : ∀ x, p x = true ↔ name x = key) :
    l.filter p = (l.find? p).toList := by
  induction l with
  | nil => rfl
  | cons a rest ih =>
    obtain ⟨ha, hrest⟩ := List.nodup_cons.mp hl
    by_cases h : p a = true
    · have hnone : rest.filter p = [] := by
        apply List.filter_eq_nil_iff.mpr
        intro x hx hpx
        apply ha
        rw [(hp a).mp h, ← (hp x).mp hpx]
        exact List.mem_map_of_mem hx
      rw [List.filter_cons_of_pos h, List.find?_cons_of_pos h, hnone]
      rfl
    · rw [List.filter_cons_of_neg h, List.find?_cons_of_neg h, ih hrest]

theorem addTerminals_eq_foldl (known found : List Terminal) :
    addTerminals known found = found.foldl addNew known := by
  induction found generalizing known with
  | nil => rfl
  | cons t rest ih => exact ih _

/-- Adding what is known already adds nothing. -/
theorem addTerminals_of_subset {known found : List Terminal} (h : ∀ t ∈ found, t ∈ known) :
    addTerminals known found = known := by
  rw [addTerminals_eq_foldl, foldl_addNew_eq, List.filter_eq_nil_iff.mpr (by simpa using h),
    List.eraseDups_nil, List.append_nil]

end TreeSchema
