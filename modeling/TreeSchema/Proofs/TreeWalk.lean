import TreeSchema.Proofs.Emission
/-
  Walking a tree

  Judging a tree by walking it, without grammars, tokens or a cursor. What an
  entity makes of a tree is either that the tree does not even begin as it
  should, or the list of what is wrong inside it. A part that fits no member
  is reported once, as a whole. Nothing is reported of a tree just if it
  conforms (`check_eq_some_nil_iff`).
-/

namespace TreeSchema.Schema

namespace Pattern
variable {ι : Type}

/-- The terminals a tree of the pattern can begin with. -/
def heads : Pattern ι → List Terminal
  | anyScalar => [.scalar]
  | oneOf values => values.map .literal
  | array _ => [.openSequence]
  | mapping _ => [.openMapping]

/-- Whether a tree of the pattern can begin with the token. -/
def begins (p : Pattern ι) (t : TreeToken) : Bool := p.heads.any fun head => head.accepts t

def items : Pattern ι → List ι
  | array members => members
  | _ => []

def entries : Pattern ι → List (String × ι)
  | mapping members => members
  | _ => []

theorem begins_scalar_iff {p : Pattern ι} {text : String} :
    p.begins (.scalar text) = true ↔
      p = .anyScalar ∨ ∃ values, p = .oneOf values ∧ text ∈ values := by
  cases p <;> simp [begins, heads, Terminal.accepts]

theorem begins_openSequence_iff {p : Pattern ι} :
    p.begins .openSequence = true ↔ ∃ members, p = .array members := by
  cases p <;> simp [begins, heads, Terminal.accepts]

theorem begins_openMapping_iff {p : Pattern ι} :
    p.begins .openMapping = true ↔ ∃ members, p = .mapping members := by
  cases p <;> simp [begins, heads, Terminal.accepts]

end Pattern

/-! ## The walk -/

/-- A part that begins with the token is reported as a whole. -/
def misfit (rule path : String) (expected : List Terminal) (found : TreeToken) : Violation :=
  { path, found := found.display, expected := expected.map Terminal.text, rule }

/-- Nothing is wrong with a scalar, and any other tree does not fit. -/
def scalarOnly : Node → Option (List Violation)
  | .scalar _ => some []
  | _ => none

/-- What is wrong with an item: what is wrong with it as that member of which
the least is wrong, the earlier one on a tie. -/
def itemVerdict {ι : Type} (members : List ι) (n : Node) (verdict : ι → Option (List Violation)) :
    Option (List Violation) :=
  if members.isEmpty then scalarOnly n else (members.filterMap verdict).minOn? List.length

/-- What is wrong with an entry: what is wrong with its value as the member
under its key. -/
def entryVerdict {ι : Type} (members : List (String × ι)) (key : String) (n : Node)
    (verdict : ι → Option (List Violation)) : Option (List Violation) :=
  if members.isEmpty then scalarOnly n
  else (members.find? fun m => m.1 == key).bind fun m => verdict m.2

section
variable {ι : Type} (meaning : ι → Pattern ι) (label : ι → String)

/-- The terminals an item can begin with, each once, in the order of the
members. -/
def itemHeads (members : List ι) : List Terminal :=
  if members.isEmpty then [.scalar] else (members.flatMap fun m => (meaning m).heads).eraseDups

/-- The terminals an entry can begin with. -/
def entryHeads (members : List (String × ι)) : List Terminal :=
  if members.isEmpty then [.key none] else members.map fun m => .key (some m.1)

mutual

/-- What is wrong with a tree at `path` as one of the entity; `none` if it
does not begin like one. -/
def check (path : String) : Node → ι → Option (List Violation)
  | .scalar text, i => if (meaning i).begins (.scalar text) then some [] else none
  | .sequence items, i =>
    if (meaning i).begins .openSequence then
      some (checkItems (label i) (meaning i).items path 0 items)
    else none
  | .mapping entries, i =>
    if (meaning i).begins .openMapping then
      some (checkEntries (label i) (meaning i).entries path entries)
    else none
termination_by structural n => n

/-- What is wrong with the items of a sequence at `path`, the first of which
has number `index`. -/
def checkItems (rule : String) (members : List ι) (path : String) (index : Nat) :
    List Node → List Violation
  | [] => []
  | n :: rest =>
    let here := Path.child path (toString index)
    (itemVerdict members n (check here n)).getD
        [misfit rule here (itemHeads meaning members) n.head]
      ++ checkItems rule members path (index + 1) rest
termination_by structural l => l

def checkEntries (rule : String) (members : List (String × ι)) (path : String) :
    List (String × Node) → List Violation
  | [] => []
  | (key, n) :: rest =>
    let here := Path.child path key
    (entryVerdict members key n (check here n)).getD
        [misfit rule here (entryHeads members) (.key key)]
      ++ checkEntries rule members path rest
termination_by structural l => l

end

/-- What is wrong with a document as one of the entity. -/
def treeViolations (i : ι) (n : Node) : List Violation :=
  (check meaning label Path.root n i).getD
    [misfit (label i) Path.root (meaning i).heads n.head]

end

section
variable {ι : Type} {meaning : ι → Pattern ι} {label : ι → String}

theorem check_of_not_begins {i : ι} {n : Node} (h : (meaning i).begins n.head = false)
    (path : String) : check meaning label path n i = none := by
  cases n with
  | scalar text => rw [check]; exact if_neg (Bool.eq_false_iff.mp h)
  | sequence items => rw [check]; exact if_neg (Bool.eq_false_iff.mp h)
  | mapping entries => rw [check]; exact if_neg (Bool.eq_false_iff.mp h)

/-- The items are judged one by one, each with its number. -/
theorem checkItems_eq_flatMap (rule : String) (members : List ι) (path : String) (index : Nat)
    (items : List Node) :
    checkItems meaning label rule members path index items
      = (items.zipIdx index).flatMap fun p =>
          (itemVerdict members p.1 (check meaning label (Path.child path (toString p.2)) p.1)).getD
            [misfit rule (Path.child path (toString p.2)) (itemHeads meaning members)
              p.1.head] := by
  induction items generalizing index with
  | nil => rfl
  | cons n rest ih => rw [checkItems, ih, List.zipIdx_cons, List.flatMap_cons]

theorem checkEntries_eq_flatMap (rule : String) (members : List (String × ι)) (path : String)
    (entries : List (String × Node)) :
    checkEntries meaning label rule members path entries
      = entries.flatMap fun e =>
          (entryVerdict members e.1 e.2 (check meaning label (Path.child path e.1) e.2)).getD
            [misfit rule (Path.child path e.1) (entryHeads members) (.key e.1)] := by
  induction entries with
  | nil => rfl
  | cons e rest ih => rw [checkEntries, ih, List.flatMap_cons]

/-! ## Trees of which nothing is wrong -/

theorem scalarOnly_eq_some_iff {n : Node} {vs : List Violation} :
    scalarOnly n = some vs ↔ vs = [] ∧ ∃ text, n = .scalar text := by
  cases n with
  | scalar text =>
    rw [scalarOnly, Option.some.injEq]
    constructor
    · intro h
      exact ⟨h.symm, text, rfl⟩
    · intro h
      exact h.1.symm
  | sequence items => simp [scalarOnly]
  | mapping entries => simp [scalarOnly]

/-- The shortest list is empty just if one of the lists is. -/
theorem minOn?_length_eq_nil_iff {α : Type} {lists : List (List α)} :
    lists.minOn? List.length = some [] ↔ [] ∈ lists := by
  constructor
  · intro h
    exact List.minOn?_mem h
  · intro h
    have hsome : (lists.minOn? List.length).isSome :=
      List.isSome_minOn?_iff.mpr (List.ne_nil_of_mem h)
    have hle := List.apply_get_minOn?_le_of_mem (f := List.length) h
    rw [List.length_nil, Nat.le_zero, List.length_eq_zero_iff] at hle
    rw [← Option.some_get hsome, hle]

theorem itemVerdict_eq_some_nil_iff {members : List ι} {n : Node}
    {verdict : ι → Option (List Violation)}
    (h : ∀ i ∈ members, verdict i = some [] ↔ Conforms meaning n i) :
    itemVerdict members n verdict = some [] ↔ ItemConforms meaning members n := by
  rw [itemConforms_iff]
  cases members with
  | nil => simp [itemVerdict, scalarOnly_eq_some_iff]
  | cons m rest =>
    rw [itemVerdict, List.isEmpty_cons, if_neg Bool.false_ne_true, minOn?_length_eq_nil_iff,
      List.mem_filterMap]
    constructor
    · intro hmem
      obtain ⟨i, hi, hv⟩ := hmem
      exact Or.inr ⟨i, hi, (h i hi).mp hv⟩
    · intro hconf
      rcases hconf with ⟨hnil, _⟩ | ⟨i, hi, hconf⟩
      · cases hnil
      · exact ⟨i, hi, (h i hi).mpr hconf⟩

theorem entryVerdict_eq_some_nil_iff {members : List (String × ι)} {key : String} {n : Node}
    {verdict : ι → Option (List Violation)} (hkeys : (members.map Prod.fst).Nodup)
    (h : ∀ m ∈ members, verdict m.2 = some [] ↔ Conforms meaning n m.2) :
    entryVerdict members key n verdict = some [] ↔ EntryConforms meaning members (key, n) := by
  rw [entryConforms_iff]
  cases hempty : members.isEmpty with
  | true =>
    rw [List.isEmpty_iff] at hempty
    subst hempty
    simp [entryVerdict, scalarOnly_eq_some_iff]
  | false =>
    rw [entryVerdict, hempty, if_neg Bool.false_ne_true, Option.bind_eq_some_iff]
    constructor
    · intro hfound
      obtain ⟨⟨name, i⟩, hfind, hv⟩ := hfound
      have hmem := List.mem_of_find?_eq_some hfind
      have hname : name = key := by simpa using List.find?_some hfind
      subst hname
      exact Or.inr ⟨i, hmem, (h _ hmem).mp hv⟩
    · intro hconf
      rcases hconf with ⟨hnil, _⟩ | ⟨i, hi, hconf⟩
      · rw [hnil] at hempty
        cases hempty
      · refine ⟨(key, i), find?_of_nodup_map hkeys hi ?_, (h _ hi).mpr hconf⟩
        intro x _
        exact beq_iff_eq

/-- A verdict with something in its place is empty just if the verdict is. -/
theorem getD_misfit_eq_nil_iff {verdict : Option (List Violation)} {v : Violation} :
    verdict.getD [v] = [] ↔ verdict = some [] := by
  cases verdict <;> simp

theorem checkItems_eq_nil_iff {rule path : String} {members : List ι} {items : List Node}
    (h : ∀ n ∈ items, ∀ path i, i ∈ members →
      (check meaning label path n i = some [] ↔ Conforms meaning n i)) (index : Nat) :
    checkItems meaning label rule members path index items = [] ↔
      ∀ n ∈ items, ItemConforms meaning members n := by
  induction items generalizing index with
  | nil => simp [checkItems]
  | cons n rest ih =>
    rw [checkItems, List.append_eq_nil_iff, getD_misfit_eq_nil_iff, List.forall_mem_cons,
      itemVerdict_eq_some_nil_iff (fun i hi => h n List.mem_cons_self _ i hi),
      ih (fun m hm => h m (List.mem_cons_of_mem n hm))]

theorem checkEntries_eq_nil_iff {rule path : String} {members : List (String × ι)}
    (hkeys : (members.map Prod.fst).Nodup) {entries : List (String × Node)}
    (h : ∀ e ∈ entries, ∀ path, ∀ m ∈ members,
      (check meaning label path e.2 m.2 = some [] ↔ Conforms meaning e.2 m.2)) :
    checkEntries meaning label rule members path entries = [] ↔
      ∀ e ∈ entries, EntryConforms meaning members e := by
  induction entries with
  | nil => simp [checkEntries]
  | cons e rest ih =>
    obtain ⟨key, n⟩ := e
    rw [checkEntries, List.append_eq_nil_iff, getD_misfit_eq_nil_iff, List.forall_mem_cons,
      entryVerdict_eq_some_nil_iff hkeys (fun m hm => h (key, n) List.mem_cons_self _ m hm),
      ih (fun f hf => h f (List.mem_cons_of_mem _ hf))]

variable {present : ι → Prop}

/-- The walk finds nothing wrong with just those trees that conform. -/
theorem check_eq_some_nil_iff (hclosed : ∀ i, present i → ∀ m ∈ (meaning i).members, present m)
    (hproper : ∀ i, present i → (meaning i).Proper) {i : ι} (hi : present i) (n : Node)
    (path : String) : check meaning label path n i = some [] ↔ Conforms meaning n i := by
  induction n using Node.induction generalizing i path with
  | scalar text =>
    rw [conforms_scalar_iff, ← Pattern.begins_scalar_iff, check]
    simp
  | sequence items ih =>
    rw [conforms_sequence_iff, check]
    by_cases hbegins : (meaning i).begins .openSequence = true
    · obtain ⟨members, hm⟩ := Pattern.begins_openSequence_iff.mp hbegins
      have hmembers : ∀ k ∈ members, present k := by
        intro k hk
        exact hclosed i hi k (by rw [hm]; exact hk)
      rw [if_pos hbegins, Option.some.injEq, hm]
      dsimp only [Pattern.items]
      rw [checkItems_eq_nil_iff (fun n hn path k hk => ih n hn (hmembers k hk) path)]
      simp
    · have hnot : ∀ members, meaning i ≠ .array members :=
        fun members hm => hbegins (Pattern.begins_openSequence_iff.mpr ⟨members, hm⟩)
      simp [hbegins, hnot]
  | mapping entries ih =>
    rw [conforms_mapping_iff, check]
    by_cases hbegins : (meaning i).begins .openMapping = true
    · obtain ⟨members, hm⟩ := Pattern.begins_openMapping_iff.mp hbegins
      have hmembers : ∀ k ∈ members, present k.2 := by
        intro k hk
        exact hclosed i hi k.2 (by rw [hm]; exact List.mem_map_of_mem hk)
      have hkeys : (members.map Prod.fst).Nodup := by
        have := hproper i hi
        rwa [hm] at this
      rw [if_pos hbegins, Option.some.injEq, hm]
      dsimp only [Pattern.entries]
      rw [checkEntries_eq_nil_iff hkeys (fun e he path k hk => ih e he (hmembers k hk) path)]
      simp
    · have hnot : ∀ members, meaning i ≠ .mapping members :=
        fun members hm => hbegins (Pattern.begins_openMapping_iff.mpr ⟨members, hm⟩)
      simp [hbegins, hnot]

end

end TreeSchema.Schema
