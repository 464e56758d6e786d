import TreeSchema.Proofs.ByteOrder
import TreeSchema.Proofs.TokenStream
import TreeSchema.Tree.Document
/-
  What the stream keeps of the tree

  A stream of tokens is all that a grammar sees of a document, so that
  nothing may be lost on the way into it. No stream is the beginning of
  another one, every closing token closes the innermost open container, every
  key is followed by one complete value, and the keys that stand directly in
  a mapping are those of the mapping, in a document in increasing order of
  their bytes.

  Brackets, values and keys are told from the tokens alone. What holds at the
  beginning of every part, and at every key, holds at every token of the
  stream (`everywhere_word`): this is the one induction over the tree.
-/

namespace TreeSchema

def entryWord (e : String × Node) : List TreeToken := .key e.1 :: e.2.word

theorem Node.word_mapping_eq (entries : List (String × Node)) :
    (mapping entries).word = .openMapping :: (entries.flatMap entryWord ++ [.closeMapping]) :=
  word_mapping entries

/-! ## Brackets -/

inductive Container where
  | sequence
  | mapping
  deriving DecidableEq, Repr

/-- The containers open after a token, the innermost first, given those open
before it. A token that would close anything but the innermost one has no
place. -/
def TreeToken.step : TreeToken → List Container → Option (List Container)
  | .scalar _, stack | .key _, stack => some stack
  | .openSequence, stack => some (.sequence :: stack)
  | .openMapping, stack => some (.mapping :: stack)
  | .closeSequence, .sequence :: outer => some outer
  | .closeMapping, .mapping :: outer => some outer
  | .closeSequence, _ | .closeMapping, _ => none

def openAfter (stack : List Container) : List TreeToken → Option (List Container)
  | [] => some stack
  | t :: rest => (t.step stack).bind fun inner => openAfter inner rest

/-- Every token that closes a container closes the innermost one, of its own
kind, and all are closed at the end. -/
def Balanced (ts : List TreeToken) : Prop := openAfter [] ts = some []

theorem openAfter_append (stack : List Container) (ts us : List TreeToken) :
    openAfter stack (ts ++ us) = (openAfter stack ts).bind fun inner => openAfter inner us := by
  induction ts generalizing stack with
  | nil => rfl
  | cons t rest ih =>
    rw [List.cons_append, openAfter, openAfter, Option.bind_assoc]
    exact congrArg _ (funext fun inner => ih inner)

theorem openAfter_flatMap {α : Type} {f : α → List TreeToken} {l : List α}
    (h : ∀ a ∈ l, ∀ stack, openAfter stack (f a) = some stack) (stack : List Container) :
    openAfter stack (l.flatMap f) = some stack := by
  induction l with
  | nil => rfl
  | cons a rest ih =>
    rw [List.flatMap_cons, openAfter_append, h a List.mem_cons_self, Option.bind_some,
      ih fun b hb => h b (List.mem_cons_of_mem a hb)]

/-- A whole tree leaves the open containers as they are. -/
theorem openAfter_word (n : Node) (stack : List Container) :
    openAfter stack n.word = some stack := by
  induction n using Node.induction generalizing stack with
  | scalar text => rfl
  | sequence items ih =>
    have hitems := openAfter_flatMap (fun n hn => ih n hn) (.sequence :: stack)
    rw [Node.word_sequence, List.cons_append, openAfter]
    show openAfter (.sequence :: stack) (_ ++ _) = _
    rw [openAfter_append, hitems]
    rfl
  | mapping entries ih =>
    have hentries := openAfter_flatMap (f := entryWord) (fun e he => ih e he) (.mapping :: stack)
    rw [Node.word_mapping_eq, openAfter]
    show openAfter (.mapping :: stack) (_ ++ _) = _
    rw [openAfter_append, hentries]
    rfl

theorem balanced_items (items : List Node) : Balanced (items.flatMap Node.word) :=
  openAfter_flatMap (fun n _ => openAfter_word n) []

theorem balanced_entries (entries : List (String × Node)) :
    Balanced (entries.flatMap entryWord) :=
  openAfter_flatMap (fun e _ => openAfter_word e.2) []

/-! ## Complete values -/

/-- The tokens of one complete value: a scalar, or a container from its
opening token up to the one that closes it. -/
inductive IsComplete : List TreeToken → Prop where
  | scalar (text : String) : IsComplete [.scalar text]
  | sequence {body : List TreeToken} (inner : Balanced body) :
    IsComplete (.openSequence :: (body ++ [.closeSequence]))
  | mapping {body : List TreeToken} (inner : Balanced body) :
    IsComplete (.openMapping :: (body ++ [.closeMapping]))

theorem isComplete_word (n : Node) : IsComplete n.word := by
  cases n with
  | scalar text => exact .scalar text
  | sequence items =>
    rw [Node.word_sequence, List.cons_append]
    exact .sequence (balanced_items items)
  | mapping entries =>
    rw [Node.word_mapping_eq]
    exact .mapping (balanced_entries entries)

/-- Between the brackets of a value no token closes more than was opened
there, so that no balanced text goes on past the end of another one. -/
theorem body_eq_of_begins {body other : List TreeToken} {close : TreeToken}
    (hclose : close.step [] = none) (h : Balanced body) (h' : Balanced other)
    (hbegins : body ++ [close] <+: other ++ [close]) : body = other := by
  rcases List.prefix_concat_iff.mp hbegins with heq | hinner
  · exact List.append_cancel_right heq
  · obtain ⟨more, rfl⟩ := hinner
    rw [Balanced, List.append_assoc, openAfter_append, h, Option.bind_some, List.singleton_append,
      openAfter, hclose] at h'
    cases h'

theorem IsComplete.eq_of_begins {value other : List TreeToken} (h : IsComplete value)
    (h' : IsComplete other) (hbegins : value <+: other) : value = other := by
  cases h with
  | scalar text =>
    obtain ⟨rest, hrest⟩ := hbegins
    cases h' with
    | scalar _ =>
      cases hrest
      rfl
    | sequence _ => cases hrest
    | mapping _ => cases hrest
  | sequence inner =>
    cases h' with
    | scalar _ => cases (List.cons_prefix_cons.mp hbegins).1
    | mapping _ => cases (List.cons_prefix_cons.mp hbegins).1
    | sequence inner' =>
      rw [body_eq_of_begins rfl inner inner' (List.cons_prefix_cons.mp hbegins).2]
  | mapping inner =>
    cases h' with
    | scalar _ => cases (List.cons_prefix_cons.mp hbegins).1
    | sequence _ => cases (List.cons_prefix_cons.mp hbegins).1
    | mapping inner' =>
      rw [body_eq_of_begins rfl inner inner' (List.cons_prefix_cons.mp hbegins).2]

/-- Where one complete value stands, no other one does. -/
theorem IsComplete.unique {value other ts : List TreeToken} (h : IsComplete value)
    (h' : IsComplete other) (hvalue : value <+: ts) (hother : other <+: ts) : other = value := by
  rcases List.prefix_or_prefix_of_prefix hother hvalue with hbegins | hbegins
  · exact h'.eq_of_begins h hbegins
  · exact (h.eq_of_begins h' hbegins).symm

/-! ## Parts of a tree -/

/-- The part is the tree itself or stands somewhere in it. -/
inductive Node.Inside (part : Node) : Node → Prop where
  | self : Inside part part
  | item {n : Node} {items : List Node} (mem : n ∈ items) (inner : Inside part n) :
    Inside part (.sequence items)
  | value {e : String × Node} {entries : List (String × Node)} (mem : e ∈ entries)
    (inner : Inside part e.2) : Inside part (.mapping entries)

theorem Node.Ordered.of_inside {part n : Node} (h : n.Ordered) (hinside : part.Inside n) :
    part.Ordered := by
  induction hinside with
  | self => exact h
  | item mem _ ih =>
    rw [Node.Ordered, itemsOrdered_iff] at h
    exact ih (h _ mem)
  | value mem _ ih =>
    rw [Node.Ordered, entriesOrdered_iff] at h
    exact ih (h.2 _ mem)

/-- The stream of a part stands in the stream of the tree. -/
theorem Node.Inside.word_within {part n : Node} (h : part.Inside n) : part.word <:+: n.word := by
  induction h with
  | self => exact List.infix_rfl
  | @item n items mem _ ih =>
    have hitem : n.word <:+: items.flatMap Node.word :=
      List.infix_of_mem_flatten (List.mem_map_of_mem mem)
    rw [Node.word_sequence, List.cons_append]
    exact List.infix_cons ((ih.trans hitem).trans (List.prefix_append _ _).isInfix)
  | @value e entries mem _ ih =>
    have hentry : .key e.1 :: e.2.word
        <:+: entries.flatMap entryWord :=
      List.infix_of_mem_flatten (List.mem_map_of_mem (f := entryWord)
        mem)
    rw [Node.word_mapping_eq]
    exact List.infix_cons
      ((List.infix_cons ih |>.trans hentry).trans (List.prefix_append _ _).isInfix)

/-! ## Every token of a stream -/

/-- Wherever a token stands, it and what follows it satisfy `P`. -/
def Everywhere (P : TreeToken → List TreeToken → Prop) (ts : List TreeToken) : Prop :=
  ∀ t rest, t :: rest <:+ ts → P t rest

section
variable {P : TreeToken → List TreeToken → Prop} {after : List TreeToken}

theorem everywhere_nil : Everywhere P [] := by
  intro t rest h
  exact absurd (List.suffix_nil.mp h) (List.cons_ne_nil _ _)

theorem everywhere_cons {t : TreeToken} {rest : List TreeToken} (hhead : P t rest)
    (hrest : Everywhere P rest) : Everywhere P (t :: rest) := by
  intro u others hsuffix
  rcases List.suffix_cons_iff.mp hsuffix with heq | hsuffix
  · cases heq
    exact hhead
  · exact hrest u others hsuffix

theorem everywhere_items {items : List Node}
    (h : ∀ n ∈ items, ∀ after, Everywhere P after → Everywhere P (n.word ++ after))
    (hafter : Everywhere P after) : Everywhere P (items.flatMap Node.word ++ after) := by
  induction items with
  | nil => exact hafter
  | cons n rest ih =>
    rw [List.flatMap_cons, List.append_assoc]
    exact h n List.mem_cons_self _ (ih fun m hm => h m (List.mem_cons_of_mem n hm))

/-- The entries go through the list from any entry on, so that what follows a
key is known. -/
theorem everywhere_entries {entries : List (String × Node)}
    (h : ∀ e ∈ entries, ∀ after, Everywhere P after → Everywhere P (e.2.word ++ after))
    (hkey : ∀ key n later, (key, n) :: later <:+ entries →
      P (.key key) (n.word ++ (later.flatMap entryWord ++ after)))
    (hafter : Everywhere P after) :
    Everywhere P (entries.flatMap entryWord ++ after) := by
  induction entries with
  | nil => exact hafter
  | cons e rest ih =>
    obtain ⟨key, n⟩ := e
    have hrest := ih (fun f hf => h f (List.mem_cons_of_mem _ hf)) fun key n later hsuffix =>
      hkey key n later (hsuffix.trans (List.suffix_cons _ _))
    rw [List.flatMap_cons, List.append_assoc, entryWord, List.cons_append]
    exact everywhere_cons (hkey key n rest List.suffix_rfl) (h _ List.mem_cons_self _ hrest)

/-- What holds where a part begins, at the keys of every mapping and at
closing tokens holds everywhere. -/
theorem everywhere_word_append (n : Node)
    (hpart : ∀ part, Node.Inside part n → ∀ rest after, part.word ++ after = part.head :: rest →
      P part.head rest)
    (hkey : ∀ entries, Node.Inside (.mapping entries) n → ∀ key n later after,
      (key, n) :: later <:+ entries →
        P (.key key)
          (n.word ++ (later.flatMap entryWord ++ .closeMapping :: after)))
    (hclose : ∀ t rest, t.isClose = true → P t rest) (hafter : Everywhere P after) :
    Everywhere P (n.word ++ after) := by
  induction n using Node.induction generalizing after with
  | scalar text => exact everywhere_cons (hpart _ .self _ after rfl) hafter
  | sequence items ih =>
    have hhead := hpart _ .self (items.flatMap Node.word ++ .closeSequence :: after) after
      (by simp [Node.head])
    rw [Node.word_sequence, List.cons_append, List.cons_append, List.append_assoc]
    refine everywhere_cons hhead (everywhere_items (fun n hn after hafter => ?_) ?_)
    · exact ih n hn (fun part hinside => hpart part (.item hn hinside))
        (fun entries hinside => hkey entries (.item hn hinside)) hafter
    · exact everywhere_cons (hclose _ _ rfl) hafter
  | mapping entries ih =>
    have hhead := hpart _ .self
      (entries.flatMap entryWord ++ .closeMapping :: after) after
      (by simp [Node.word_mapping_eq, -Node.word_mapping, Node.head])
    rw [Node.word_mapping_eq, List.cons_append, List.append_assoc]
    refine everywhere_cons hhead (everywhere_entries (fun e he after hafter => ?_) ?_ ?_)
    · exact ih e he (fun part hinside => hpart part (.value he hinside))
        (fun inner hinside => hkey inner (.value he hinside)) hafter
    · exact fun key n later hsuffix => hkey entries .self key n later after hsuffix
    · exact everywhere_cons (hclose _ _ rfl) hafter

theorem everywhere_word (n : Node)
    (hpart : ∀ part, Node.Inside part n → ∀ rest after, part.word ++ after = part.head :: rest →
      P part.head rest)
    (hkey : ∀ entries, Node.Inside (.mapping entries) n → ∀ key n later after,
      (key, n) :: later <:+ entries →
        P (.key key)
          (n.word ++ (later.flatMap entryWord ++ .closeMapping :: after)))
    (hclose : ∀ t rest, t.isClose = true → P t rest) : Everywhere P n.word := by
  have h := everywhere_word_append n hpart hkey hclose everywhere_nil
  rwa [List.append_nil] at h

end

/-! ## Keys and their values -/

/-- Whether an entry of a mapping ends before this token: another key stands
there, or the end of the mapping. -/
def TreeToken.endsEntry : TreeToken → Bool
  | .key _ | .closeMapping => true
  | _ => false

/-- Every key is followed by exactly one complete value. -/
def KeysValued (ts : List TreeToken) : Prop :=
  ∀ key after, .key key :: after <:+ ts →
    ∃ value next rest, after = value ++ next :: rest ∧ IsComplete value ∧ next.endsEntry = true ∧
      ∀ other, IsComplete other → other <+: after → other = value

theorem keysValued_word (n : Node) : KeysValued n.word := by
  have h : Everywhere (fun t rest => ∀ key, t = .key key →
      ∃ (value : Node) (next : TreeToken) (later : List TreeToken),
        rest = value.word ++ next :: later ∧ next.endsEntry = true) n.word := by
    refine everywhere_word n ?_ ?_ ?_
    · intro part _ rest _ _ key hkey
      cases part <;> cases hkey
    · intro entries _ key n later after _ _ _
      cases later with
      | nil => exact ⟨n, .closeMapping, after, rfl, rfl⟩
      | cons e later => exact ⟨n, .key e.1, _, rfl, rfl⟩
    · intro t _ hclose key hkey
      rw [hkey] at hclose
      cases hclose
  intro key after hsuffix
  obtain ⟨value, next, rest, rfl, hnext⟩ := h _ _ hsuffix key rfl
  refine ⟨value.word, next, rest, rfl, isComplete_word value, hnext, ?_⟩
  intro other hother hbegins
  exact (isComplete_word value).unique hother (List.prefix_append _ _) hbegins

/-! ## The order of keys -/

/-- The keys outside all brackets, where `depth` brackets are open already. -/
def outerKeys : (depth : Nat) → List TreeToken → List String
  | _, [] => []
  | depth, t :: rest =>
    match t with
    | .key key => if depth = 0 then key :: outerKeys depth rest else outerKeys depth rest
    | .openSequence | .openMapping => outerKeys (depth + 1) rest
    | .closeSequence | .closeMapping => outerKeys (depth - 1) rest
    | .scalar _ => outerKeys depth rest

/-- Between the brackets of every mapping the keys that stand directly in it
are in increasing order of their bytes, so that none stands there twice. -/
def KeysIncreasing (ts : List TreeToken) : Prop :=
  ∀ body after, .openMapping :: (body ++ .closeMapping :: after) <:+ ts → Balanced body →
    (outerKeys 0 body).Pairwise fun j k => List.Lex (· < ·) (Text.encode j) (Text.encode k)

theorem outerKeys_word_append (n : Node) (depth : Nat) (rest : List TreeToken) :
    outerKeys depth (n.word ++ rest) = outerKeys depth rest := by
  induction n using Node.induction generalizing depth rest with
  | scalar text => rfl
  | sequence items ih =>
    have hitems : ∀ rest, outerKeys (depth + 1) (items.flatMap Node.word ++ rest)
        = outerKeys (depth + 1) rest := by
      intro rest
      induction items with
      | nil => rfl
      | cons n others ihothers =>
        rw [List.flatMap_cons, List.append_assoc, ih n List.mem_cons_self,
          ihothers fun m hm => ih m (List.mem_cons_of_mem n hm)]
    rw [Node.word_sequence, List.cons_append, List.cons_append, List.append_assoc]
    show outerKeys (depth + 1) (_ ++ _) = _
    rw [hitems]
    rfl
  | mapping entries ih =>
    have hentries : ∀ rest, outerKeys (depth + 1)
        (entries.flatMap entryWord ++ rest) = outerKeys (depth + 1) rest := by
      intro rest
      induction entries with
      | nil => rfl
      | cons e others ihothers =>
        rw [List.flatMap_cons, List.append_assoc, entryWord, List.cons_append, outerKeys,
          if_neg (Nat.succ_ne_zero depth), ih e List.mem_cons_self,
          ihothers fun f hf => ih f (List.mem_cons_of_mem e hf)]
    rw [Node.word_mapping_eq, List.cons_append, List.append_assoc]
    show outerKeys (depth + 1) (_ ++ _) = _
    rw [hentries]
    rfl

/-- The keys that stand directly in a mapping are its own. -/
theorem outerKeys_entries (entries : List (String × Node)) :
    outerKeys 0 (entries.flatMap entryWord) = entries.map Prod.fst := by
  induction entries with
  | nil => rfl
  | cons e others ih =>
    rw [List.flatMap_cons, entryWord, List.cons_append, outerKeys, if_pos rfl,
      outerKeys_word_append, ih, List.map_cons]

theorem body_eq_entries {entries : List (String × Node)} {body after later : List TreeToken}
    (hbody : Balanced body)
    (h : body ++ .closeMapping :: after
      = entries.flatMap entryWord ++ .closeMapping :: later) :
    body = entries.flatMap entryWord := by
  have hentries : .openMapping :: (entries.flatMap entryWord ++ [.closeMapping])
      <+: .openMapping :: (body ++ .closeMapping :: after) := ⟨later, by rw [h]; simp⟩
  have hwhole := (IsComplete.mapping (balanced_entries entries)).unique (.mapping hbody) hentries
    ⟨after, by simp⟩
  exact List.append_cancel_right (List.cons.inj hwhole).2

theorem keysIncreasing_word {n : Node} (hn : n.Ordered) : KeysIncreasing n.word := by
  have h : Everywhere (fun t rest => t = .openMapping →
      ∃ (entries : List (String × Node)) (later : List TreeToken),
        (entries.map Prod.fst).Pairwise (· < ·) ∧
        rest = entries.flatMap entryWord ++ .closeMapping :: later)
      n.word := by
    refine everywhere_word n ?_ ?_ ?_
    · intro part hinside rest after hrest hopen
      cases part with
      | scalar text => cases hopen
      | sequence items => cases hopen
      | mapping entries =>
        have hordered := hn.of_inside hinside
        rw [Node.Ordered] at hordered
        rw [Node.word_mapping_eq, List.cons_append, List.append_assoc] at hrest
        exact ⟨entries, after, hordered.1, (List.cons.inj hrest).2.symm⟩
    · intro _ _ _ _ _ _ _ hopen
      cases hopen
    · intro t _ hclose hopen
      rw [hopen] at hclose
      cases hclose
  intro body after hsuffix hbody
  obtain ⟨entries, later, hkeys, hrest⟩ := h _ _ hsuffix rfl
  rw [body_eq_entries hbody hrest, outerKeys_entries]
  exact hkeys.imp Text.lex_encode

/-! ## Streams and trees -/

/-- A stream tells its tree and where it ends, whatever follows it. It is
well bracketed, every key in it is followed by exactly one complete value, and
the keys of every mapping in the tree stand directly between the brackets of
that mapping: in a document each once, in increasing order of their bytes. -/
theorem stream_determines_tree (m n : Node) (d : Document) :
    (m.word <+: n.word → m = n) ∧ Balanced n.word ∧ KeysValued n.word ∧
      (∀ entries, Node.Inside (.mapping entries) n →
        ∃ before body after, n.word = before ++ .openMapping :: (body ++ .closeMapping :: after) ∧
          (Node.mapping entries).word = .openMapping :: (body ++ [.closeMapping]) ∧
          Balanced body ∧ outerKeys 0 body = entries.map Prod.fst) ∧
      KeysIncreasing d.node.word := by
  refine ⟨?_, openAfter_word n [], keysValued_word n, ?_, keysIncreasing_word d.ordered⟩
  · rintro ⟨rest, hrest⟩
    exact (Node.word_append_inj (u := rest) (w := []) (by rw [hrest, List.append_nil])).1
  · intro entries hinside
    obtain ⟨before, after, hwithin⟩ := hinside.word_within
    refine ⟨before, entries.flatMap entryWord, after, ?_,
      Node.word_mapping_eq entries, balanced_entries entries, outerKeys_entries entries⟩
    rw [← hwithin, Node.word_mapping_eq]
    simp

end TreeSchema
