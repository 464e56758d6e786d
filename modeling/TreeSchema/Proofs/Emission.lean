import TreeSchema.Proofs.Resolution
import TreeSchema.Validation.Validator
/-
  Emission

  The rules of a grammar are written off what its entities ask of a tree, and
  off nothing else: `patternRules` says which rules a pattern has, and
  `Describes` that a grammar has just these, each nonterminal once. The
  grammar of a resolved schema is such a grammar (`describes_grammar`),
  because names hold no dot and so no nonterminal is taken twice.
-/

namespace TreeSchema.Schema

open Validation

/-! ## Nonterminals -/

/-- Two texts end where the separator first comes, and what follows begins with it. -/
theorem append_inj_of_not_mem {sep : Char} {a b u v : List Char} (ha : sep ∉ a) (hb : sep ∉ b)
    (hu : u = [] ∨ u.head? = some sep) (hv : v = [] ∨ v.head? = some sep)
    (h : a ++ u = b ++ v) : a = b ∧ u = v := by
  induction a generalizing b with
  | nil =>
    cases b with
    | nil => exact ⟨rfl, h⟩
    | cons d b =>
      rw [List.nil_append] at h
      rcases hu with rfl | hu
      · cases h
      · rw [h, List.cons_append, List.head?_cons] at hu
        exact absurd (by rw [Option.some.inj hu]; exact List.mem_cons_self) hb
  | cons c a ih =>
    cases b with
    | nil =>
      rw [List.nil_append] at h
      rcases hv with rfl | hv
      · cases h
      · rw [← h, List.cons_append, List.head?_cons] at hv
        exact absurd (by rw [Option.some.inj hv]; exact List.mem_cons_self) ha
    | cons d b =>
      rw [List.cons_append, List.cons_append] at h
      obtain ⟨rfl, htail⟩ := List.cons.inj h
      obtain ⟨rfl, rfl⟩ := ih (fun hm => ha (List.mem_cons_of_mem _ hm))
        (fun hm => hb (List.mem_cons_of_mem _ hm)) htail
      exact ⟨rfl, rfl⟩

/-- The endings that tell the nonterminals of one entity apart. -/
def IsEnding (u : String) : Prop := u = "" ∨ u = ".item" ∨ u = ".entry"

theorem IsEnding.head? {u : String} (h : IsEnding u) :
    u.toList = [] ∨ u.toList.head? = some '.' := by
  rcases h with rfl | rfl | rfl
  · exact Or.inl rfl
  · exact Or.inr rfl
  · exact Or.inr rfl

theorem Kind.text_append_inj {k l : Kind} {u v : List Char}
    (h : k.text.toList ++ u = l.text.toList ++ v) : k = l ∧ u = v := by
  cases k <;> cases l <;> simp [Kind.text] at h ⊢ <;> exact h

/-- A nonterminal tells the kind and name of its entity and its ending. -/
theorem nonterminal_append_inj {e f : Entity} {u v : String} (he : IsName e.name)
    (hf : IsName f.name) (hu : IsEnding u) (hv : IsEnding v)
    (h : e.nonterminal ++ u = f.nonterminal ++ v) : e.reference = f.reference ∧ u = v := by
  have hlist := congrArg String.toList h
  simp only [Entity.nonterminal, String.toList_append, List.append_assoc] at hlist
  obtain ⟨hkind, hlist⟩ := Kind.text_append_inj hlist
  obtain ⟨hname, huv⟩ := append_inj_of_not_mem he.dot_not_mem hf.dot_not_mem hu.head? hv.head?
    (List.append_cancel_left hlist)
  refine ⟨?_, String.toList_injective huv⟩
  rw [Entity.reference, Entity.reference, hkind, String.toList_injective hname]

/-! ## The rules of a pattern -/

/-- What an array repeats. -/
def itemSymbol {ι : Type} (lhs : String) (members : List ι) : Symbol :=
  if members.isEmpty then .terminal .scalar else .nonterminal (lhs ++ ".item")

def entryAlternatives {ι : Type} (label : ι → String) (members : List (String × ι)) :
    List (List Symbol) :=
  if members.isEmpty then [[.terminal (.key none), .terminal .scalar]]
  else members.map fun m => [.terminal (.key (some m.1)), .nonterminal (label m.2)]

/-- The rules of the nonterminal `lhs` that asks for a pattern, where `label`
gives the nonterminals of its members. -/
def patternRules {ι : Type} (label : ι → String) (lhs : String) : Pattern ι → List Rule
  | .anyScalar => [{ lhs, alternatives := [[.terminal .scalar]] }]
  | .oneOf values => [{ lhs, alternatives := values.map fun v => [.terminal (.literal v)] }]
  | .array members =>
    containerRule lhs .openSequence (itemSymbol lhs members) .closeSequence ::
      if members.isEmpty then []
      else
        [{ lhs := lhs ++ ".item", alternatives := members.map fun m => [.nonterminal (label m)] }]
  | .mapping members =>
    [containerRule lhs .openMapping (.nonterminal (lhs ++ ".entry")) .closeMapping,
     { lhs := lhs ++ ".entry", alternatives := entryAlternatives label members }]

namespace Pattern

/-- The members of a pattern, without their keys. -/
def members {ι : Type} : Pattern ι → List ι
  | anyScalar | oneOf _ => []
  | array members => members
  | mapping members => members.map Prod.snd

/-- Literals are not empty and have no repeats, and neither do keys. -/
def Proper {ι : Type} : Pattern ι → Prop
  | anyScalar => True
  | oneOf values => values ≠ [] ∧ values.Nodup
  | array _ => True
  | mapping members => (members.map Prod.fst).Nodup

end Pattern

theorem exists_rule_of_pattern {ι : Type} (label : ι → String) (lhs : String) (p : Pattern ι) :
    ∃ r ∈ patternRules label lhs p, r.lhs = lhs := by
  cases p with
  | anyScalar => exact ⟨_, List.mem_cons_self, rfl⟩
  | oneOf values => exact ⟨_, List.mem_cons_self, rfl⟩
  | array members => exact ⟨_, List.mem_cons_self, rfl⟩
  | mapping members => exact ⟨_, List.mem_cons_self, rfl⟩

theorem ending_of_mem_patternRules {ι : Type} {label : ι → String} {lhs : String} {p : Pattern ι}
    {r : Rule} (hr : r ∈ patternRules label lhs p) : ∃ u, IsEnding u ∧ r.lhs = lhs ++ u := by
  have hself : ∃ u, IsEnding u ∧ lhs = lhs ++ u := ⟨"", Or.inl rfl, by simp⟩
  cases p with
  | anyScalar =>
    rw [List.mem_singleton.mp hr]
    exact hself
  | oneOf values =>
    rw [List.mem_singleton.mp hr]
    exact hself
  | array members =>
    rcases List.mem_cons.mp hr with rfl | hr
    · exact hself
    · split at hr
      · cases hr
      · rw [List.mem_singleton.mp hr]
        exact ⟨".item", Or.inr (Or.inl rfl), rfl⟩
  | mapping members =>
    rcases List.mem_cons.mp hr with rfl | hr
    · exact hself
    · rw [List.mem_singleton.mp hr]
      exact ⟨".entry", Or.inr (Or.inr rfl), rfl⟩

theorem ne_append_ending (lhs : String) {u : String} (hu : 0 < u.length) : lhs ≠ lhs ++ u := by
  intro h
  have hlength := congrArg String.length h
  rw [String.length_append] at hlength
  omega

theorem nodup_lhs_patternRules {ι : Type} (label : ι → String) (lhs : String) (p : Pattern ι) :
    ((patternRules label lhs p).map Rule.lhs).Nodup := by
  cases p with
  | anyScalar => exact List.nodup_singleton _
  | oneOf values => exact List.nodup_singleton _
  | array members =>
    cases members with
    | nil => exact List.nodup_singleton _
    | cons m rest =>
      simpa [patternRules, containerRule] using ne_append_ending lhs (u := ".item") (by decide)
  | mapping members =>
    simpa [patternRules, containerRule] using ne_append_ending lhs (u := ".entry") (by decide)

/-- A rule of a pattern refers to the helper of its own nonterminal and to
members. -/
theorem nonterminalOf?_of_mem_patternRules {ι : Type} {label : ι → String} {lhs : String}
    {p : Pattern ι} {r : Rule} (hr : r ∈ patternRules label lhs p) {s : Symbol}
    (hs : s ∈ r.alternatives.flatten) {name : String} (hname : nonterminalOf? s = some name) :
    (∃ q ∈ patternRules label lhs p, q.lhs = name) ∨ ∃ m ∈ p.members, name = label m := by
  cases p with
  | anyScalar =>
    simp only [patternRules, List.mem_singleton] at hr
    subst hr
    simp only [List.flatten_cons, List.flatten_nil, List.append_nil, List.mem_singleton] at hs
    subst hs
    cases hname
  | oneOf values =>
    simp only [patternRules, List.mem_singleton] at hr
    subst hr
    obtain ⟨_, halt, hs⟩ := List.mem_flatten.mp hs
    obtain ⟨v, _, rfl⟩ := List.mem_map.mp halt
    rw [List.mem_singleton.mp hs] at hname
    cases hname
  | array members =>
    cases members with
    | nil =>
      simp only [patternRules, containerRule, itemSymbol, List.isEmpty_nil, if_true,
        List.mem_singleton] at hr
      subst hr
      simp only [List.flatten_cons, List.flatten_nil, List.append_nil, List.mem_cons,
        List.not_mem_nil, or_false] at hs
      rcases hs with rfl | rfl | rfl <;> cases hname
    | cons m rest =>
      simp only [patternRules, itemSymbol, List.isEmpty_cons, Bool.false_eq_true, if_false] at hr ⊢
      rcases List.mem_cons.mp hr with rfl | hr
      · simp only [containerRule, List.flatten_cons, List.flatten_nil, List.append_nil,
          List.mem_cons, List.not_mem_nil, or_false] at hs
        rcases hs with rfl | rfl | rfl <;> cases hname
        exact Or.inl ⟨_, List.mem_cons_of_mem _ List.mem_cons_self, rfl⟩
      · rw [List.mem_singleton] at hr
        subst hr
        obtain ⟨_, halt, hs⟩ := List.mem_flatten.mp hs
        obtain ⟨k, hk, rfl⟩ := List.mem_map.mp halt
        rw [List.mem_singleton.mp hs] at hname
        cases hname
        exact Or.inr ⟨k, hk, rfl⟩
  | mapping members =>
    rcases List.mem_cons.mp hr with rfl | hr
    · simp only [containerRule, List.flatten_cons, List.flatten_nil, List.append_nil,
        List.mem_cons, List.not_mem_nil, or_false] at hs
      rcases hs with rfl | rfl | rfl <;> cases hname
      exact Or.inl ⟨_, List.mem_cons_of_mem _ List.mem_cons_self, rfl⟩
    · rw [List.mem_singleton] at hr
      subst hr
      obtain ⟨_, halt, hs⟩ := List.mem_flatten.mp hs
      dsimp only [entryAlternatives] at halt
      split at halt
      · rw [List.mem_singleton.mp halt] at hs
        rcases List.mem_pair.mp hs with rfl | rfl <;> cases hname
      · obtain ⟨k, hk, rfl⟩ := List.mem_map.mp halt
        rcases List.mem_pair.mp hs with rfl | rfl <;> cases hname
        exact Or.inr ⟨k.2, List.mem_map_of_mem hk, rfl⟩

/-! ## Grammars that describe patterns -/

/-- The rules of the grammar are those of the patterns that are present, no
nonterminal has two, and the patterns are proper and refer to one another
only. -/
structure Describes {ι : Type} (g : Grammar) (meaning : ι → Pattern ι) (label : ι → String)
    (present : ι → Prop) : Prop where
  rules : ∀ r, r ∈ g.rules ↔ ∃ i, present i ∧ r ∈ patternRules label (label i) (meaning i)
  nodup : (g.rules.map Rule.lhs).Nodup
  closed : ∀ i, present i → ∀ m ∈ (meaning i).members, present m
  proper : ∀ i, present i → (meaning i).Proper

namespace Describes
variable {ι : Type} {g : Grammar} {meaning : ι → Pattern ι} {label : ι → String}
  {present : ι → Prop} {i : ι} {p : Pattern ι}

theorem rule_mem (h : Describes g meaning label present) (hi : present i) (hp : meaning i = p)
    {r : Rule} (hr : r ∈ patternRules label (label i) p) : r ∈ g.rules := by
  subst hp
  exact (h.rules r).mpr ⟨i, hi, hr⟩

/-- The rules for a nonterminal of a pattern are that pattern's. -/
theorem rule_unique (h : Describes g meaning label present) (hi : present i) (hp : meaning i = p)
    {r q : Rule} (hr : r ∈ patternRules label (label i) p) (hq : q ∈ g.rules)
    (hlhs : q.lhs = r.lhs) : q = r :=
  List.inj_on_of_nodup_map h.nodup hq (h.rule_mem hi hp hr) hlhs

theorem present_member (h : Describes g meaning label present) (hi : present i)
    (hp : meaning i = p) {m : ι} (hm : m ∈ p.members) : present m := by
  subst hp
  exact h.closed i hi m hm

theorem exists_rule (h : Describes g meaning label present) (hi : present i) :
    label i ∈ g.rules.map Rule.lhs := by
  obtain ⟨r, hr, hlhs⟩ := exists_rule_of_pattern label (label i) (meaning i)
  exact List.mem_map.mpr ⟨r, h.rule_mem hi rfl hr, hlhs⟩

/-- Every nonterminal that a rule refers to has a rule. -/
theorem exists_rule_of_reference (h : Describes g meaning label present) {r : Rule}
    (hr : r ∈ g.rules) {s : Symbol} (hs : s ∈ r.alternatives.flatten) {name : String}
    (hname : nonterminalOf? s = some name) : name ∈ g.rules.map Rule.lhs := by
  obtain ⟨i, hi, hri⟩ := (h.rules r).mp hr
  rcases nonterminalOf?_of_mem_patternRules hri hs hname with ⟨q, hq, rfl⟩ | ⟨m, hm, rfl⟩
  · exact List.mem_map_of_mem (h.rule_mem hi rfl hq)
  · exact h.exists_rule (h.present_member hi rfl hm)

end Describes

/-! ## The grammar of a resolved schema -/

/-- Members that all have keys are keyed members. -/
theorem exists_keyed {ms : List Member} (h : ∀ m ∈ ms, m.key.isSome) :
    ∃ keyed : List (String × Nat), ms = keyed.map fun k => ⟨k.2, some k.1⟩ := by
  induction ms with
  | nil => exact ⟨[], rfl⟩
  | cons m rest ih =>
    obtain ⟨keyed, rfl⟩ := ih (fun x hx => h x (List.mem_cons_of_mem m hx))
    obtain ⟨key, hkey⟩ := Option.isSome_iff_exists.mp (h m List.mem_cons_self)
    cases m
    cases hkey
    exact ⟨(key, _) :: keyed, rfl⟩

namespace Resolved
variable {s : Resolved} {es : List Entity} {root : Option String} {e : Entity} {ms : List Member}

/-- The rules of an entity are those of what it asks for. -/
theorem entityRules_eq (h : List.Forall₂ s.table.Resolves e.shape.members ms)
    (he : e.shape.Proper) :
    s.entityRules e ms = patternRules s.nonterminalAt e.nonterminal (e.shape.over ms) := by
  unfold entityRules
  cases hs : e.shape with
  | anyScalar => rfl
  | oneOf values => rfl
  | array specs =>
    cases ms with
    | nil => rfl
    | cons m rest => simp [arrayRules, Shape.over, patternRules, itemSymbol]
  | mapping specs =>
    rw [hs] at h he
    have hkeys : ∀ m ∈ ms, m.key.isSome := by
      intro m hm
      obtain ⟨spec, hspec, hres⟩ := exists_left_of_forall₂ h hm
      rw [hres.2]
      exact (he.1 spec hspec).2
    obtain ⟨keyed, rfl⟩ := exists_keyed hkeys
    have hover : (Shape.mapping specs).over (keyed.map fun k => ⟨k.2, some k.1⟩)
        = .mapping keyed := by
      simp [Shape.over, List.filterMap_map]
    rw [hover]
    simp [mappingRules, patternRules, entryAlternatives, Function.comp_def]

theorem proper_over (h : List.Forall₂ s.table.Resolves e.shape.members ms) (he : e.shape.Proper) :
    (e.shape.over ms).Proper := by
  cases hs : e.shape with
  | anyScalar => trivial
  | oneOf values =>
    rw [hs] at he
    exact he
  | array specs => trivial
  | mapping specs =>
    rw [hs] at h he
    have hkeys : ms.map Member.key = specs.map MemberSpec.key := by
      clear hs he
      change List.Forall₂ s.table.Resolves specs ms at h
      induction h with
      | nil => rfl
      | cons hres _ ih => rw [List.map_cons, List.map_cons, hres.2, ih]
    have hfirst : (ms.filterMap fun m => m.key.map fun key => (key, m.target)).map Prod.fst
        = (ms.map Member.key).filterMap id := by
      rw [List.map_filterMap, List.filterMap_map]
      simp [Function.comp_def]
    show (List.map Prod.fst _).Nodup
    rw [hfirst, hkeys]
    exact he.2.filterMap (fun a b c ha hb => by cases ha; cases hb; rfl)

/-- There is an entity at the place. -/
def Present (s : Resolved) (id : Nat) : Prop := ∃ e, s.table.get? id = some e

theorem nonterminalAt_eq {id : Nat} (he : s.table.get? id = some e) :
    s.nonterminalAt id = e.nonterminal := by
  rw [nonterminalAt, he, Option.map_some, Option.getD_some]

theorem present_of_mem_members (h : List.Forall₂ s.table.Resolves e.shape.members ms) {m : Nat}
    (hm : m ∈ (e.shape.over ms).members) : s.Present m := by
  have htarget : ∃ member ∈ ms, member.target = m := by
    cases hs : e.shape with
    | anyScalar => rw [hs] at hm; cases hm
    | oneOf values => rw [hs] at hm; cases hm
    | array specs =>
      rw [hs] at hm
      exact List.mem_map.mp hm
    | mapping specs =>
      rw [hs] at hm
      obtain ⟨k, hk, rfl⟩ := List.mem_map.mp hm
      obtain ⟨member, hmem, hk⟩ := List.mem_filterMap.mp hk
      obtain ⟨key, _, rfl⟩ := Option.map_eq_some_iff.mp hk
      exact ⟨member, hmem, rfl⟩
  obtain ⟨member, hmem, rfl⟩ := htarget
  obtain ⟨spec, _, hres⟩ := exists_left_of_forall₂ h hmem
  obtain ⟨target, htarget, _⟩ := Option.map_eq_some_iff.mp hres.1
  exact ⟨target, htarget⟩

theorem zipWith_entityRules_eq {es : List Entity} {mss : List (List Member)}
    (h : List.Forall₂ (fun e ms => List.Forall₂ s.table.Resolves e.shape.members ms) es mss)
    (hproper : ∀ e ∈ es, e.Proper) :
    List.zipWith s.entityRules es mss
      = List.zipWith (fun e ms => patternRules s.nonterminalAt e.nonterminal (e.shape.over ms))
          es mss := by
  induction h with
  | nil => rfl
  | cons hres _ ih =>
    rw [List.zipWith_cons_cons, List.zipWith_cons_cons,
      entityRules_eq hres (hproper _ List.mem_cons_self).2,
      ih (fun e he => hproper e (List.mem_cons_of_mem _ he))]

theorem mem_rules_iff (h : s.Closes es root) (hproper : ∀ e ∈ s.table.entities, e.Proper)
    (name : String) (r : Rule) :
    r ∈ (s.grammar name).rules ↔
      ∃ id, s.Present id ∧
        r ∈ patternRules s.nonterminalAt (s.nonterminalAt id) (s.pattern id) := by
  show r ∈ (List.zipWith s.entityRules s.table.entities s.members).flatten ↔ _
  rw [zipWith_entityRules_eq h.members hproper, List.mem_flatten]
  constructor
  · intro hr
    obtain ⟨block, hblock, hr⟩ := hr
    obtain ⟨id, hid⟩ := List.mem_iff_getElem?.mp hblock
    obtain ⟨e, ms, he, hms, rfl⟩ := List.getElem?_zipWith_eq_some.mp hid
    refine ⟨id, ⟨e, he⟩, ?_⟩
    rw [nonterminalAt_eq he, pattern_eq he, membersAt, hms]
    exact hr
  · intro hr
    obtain ⟨id, ⟨e, he⟩, hr⟩ := hr
    rw [nonterminalAt_eq he, pattern_eq he] at hr
    have hlt : id < s.members.length := by
      rw [← h.members.length_eq]
      exact (List.getElem?_eq_some_iff.mp he).1
    have hms : s.members[id]? = some (s.membersAt id) := by
      rw [membersAt, List.getElem?_eq_getElem hlt, Option.getD_some]
    exact ⟨_, List.mem_iff_getElem?.mpr
      ⟨id, List.getElem?_zipWith_eq_some.mpr ⟨e, _, he, hms, rfl⟩⟩, hr⟩

/-- Entities that go by different kinds and names share no nonterminal. -/
theorem nodup_lhs_flatten (hnames : ∀ e ∈ es, IsName e.name)
    (hdistinct : (es.map Entity.reference).Nodup) (label : Nat → String)
    (mss : List (List Member)) :
    ((List.zipWith (fun e ms => patternRules label e.nonterminal (e.shape.over ms)) es
      mss).flatten.map Rule.lhs).Nodup := by
  induction es generalizing mss with
  | nil => exact List.nodup_nil
  | cons e rest ih =>
    cases mss with
    | nil => exact List.nodup_nil
    | cons ms mss =>
      obtain ⟨hfresh, hrest⟩ := List.nodup_cons.mp hdistinct
      rw [List.zipWith_cons_cons, List.flatten_cons, List.map_append, List.nodup_append]
      refine ⟨nodup_lhs_patternRules _ _ _,
        ih (fun x hx => hnames x (List.mem_cons_of_mem e hx)) hrest mss, ?_⟩
      -- A nonterminal shared with a later entity would give both the same kind and name.
      intro a ha b hb hab
      obtain ⟨r, hr, rfl⟩ := List.mem_map.mp ha
      obtain ⟨q, hq, rfl⟩ := List.mem_map.mp hb
      obtain ⟨block, hmem, hq⟩ := List.mem_flatten.mp hq
      obtain ⟨id, hid⟩ := List.mem_iff_getElem?.mp hmem
      obtain ⟨f, fs, hf, _, rfl⟩ := List.getElem?_zipWith_eq_some.mp hid
      have hfmem : f ∈ rest := List.mem_of_getElem? hf
      obtain ⟨u, hu, hru⟩ := ending_of_mem_patternRules hr
      obtain ⟨v, hv, hqv⟩ := ending_of_mem_patternRules hq
      rw [hru, hqv] at hab
      have href := (nonterminal_append_inj (hnames e List.mem_cons_self)
        (hnames f (List.mem_cons_of_mem e hfmem)) hu hv hab).1
      exact hfresh (href ▸ List.mem_map_of_mem hfmem)

/-- The grammar of a resolved schema has the rules of what its places ask
for. -/
theorem describes_grammar (h : s.Closes es root) (hproper : ∀ e ∈ s.table.entities, e.Proper)
    (name : String) : Describes (s.grammar name) s.pattern s.nonterminalAt s.Present where
  rules := mem_rules_iff h hproper name
  nodup := by
    show ((List.zipWith s.entityRules s.table.entities s.members).flatten.map Rule.lhs).Nodup
    rw [zipWith_entityRules_eq h.members hproper]
    exact nodup_lhs_flatten (fun e he => (hproper e he).1) h.distinct _ _
  closed := by
    intro id hid m hm
    obtain ⟨e, he⟩ := hid
    rw [pattern_eq he] at hm
    exact present_of_mem_members (h.membersAt he) hm
  proper := by
    intro id hid
    obtain ⟨e, he⟩ := hid
    rw [pattern_eq he]
    exact proper_over (h.membersAt he) (hproper e (List.mem_of_getElem? he)).2

theorem Closes.present_root (h : s.Closes es root) : s.Present s.root := by
  obtain ⟨e, _, he, _⟩ := h.root
  exact ⟨e, he⟩

end Resolved

end TreeSchema.Schema
