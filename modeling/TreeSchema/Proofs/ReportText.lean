import TreeSchema.Json.Printer
import TreeSchema.Json.Reader
import TreeSchema.Proofs.DocumentValues
import TreeSchema.Proofs.Steps
/-
  Reading reports back

  The text of a report says all that the report says: read again, it gives
  the same value (`read_pretty`). Every character of a string comes back from
  the way it is escaped, the space between the parts is passed over, and
  entries whose keys are in order stay in it.

  Reports have no numbers in them, and containers in them are not nested
  deeper than the reader goes (`Readable`).
-/

namespace TreeSchema

theorem entriesOf_of_pairwise {α : Type} {entries : List (String × α)}
    (h : (entries.map Prod.fst).Pairwise (· < ·)) : entriesOf entries = entries := by
  have hkeys : (entries.map Prod.fst).Nodup :=
    h.imp fun hlt heq => absurd (heq ▸ hlt) Std.lt_irrefl
  refine (perm_entriesOf hkeys).eq_of_pairwise (fun e f _ _ hlt hgt => ?_)
    (List.pairwise_map.mp (pairwise_entriesOf entries)) (List.pairwise_map.mp h)
  exact absurd (Std.lt_trans hlt hgt) Std.lt_irrefl

namespace Json

/-! ## Passing characters -/

namespace Cursor

section
variable {c : Cursor} {x : Char} {rest : List Char}

theorem peek_of_rest (h : c.rest = x :: rest) : c.peek = some x := by
  rw [peek, h, List.head?_cons]

theorem rest_next (h : c.rest = x :: rest) : c.next.rest = rest := by
  unfold next
  rw [h]
  dsimp only
  split <;> rfl

theorem rest_skipSpacesFrom (line column : Nat) (text : List Char) :
    (skipSpacesFrom line column text).rest = text.dropWhile isSpace := by
  induction text generalizing line column with
  | nil => rfl
  | cons x text ih =>
    rw [skipSpacesFrom]
    split
    · next hfeed => rw [ih, List.dropWhile_cons_of_pos (by simp [isSpace, hfeed])]
    · split
      · next hspace => rw [ih, List.dropWhile_cons_of_pos hspace]
      · next hspace => rw [List.dropWhile_cons_of_neg hspace]

theorem rest_skipSpaces (c : Cursor) : c.skipSpaces.rest = c.rest.dropWhile isSpace :=
  rest_skipSpacesFrom _ _ _

theorem rest_skipSpaces_of_head (h : c.rest = x :: rest) (hx : isSpace x = false) :
    c.skipSpaces.rest = x :: rest := by
  rw [rest_skipSpaces, h, List.dropWhile_cons_of_neg (by simp [hx])]

/-- Space and what stands after it. -/
theorem rest_skipSpaces_append {space : List Char} (hspace : ∀ y ∈ space, isSpace y = true)
    (h : c.rest = space ++ x :: rest) (hx : isSpace x = false) :
    c.skipSpaces.rest = x :: rest := by
  rw [rest_skipSpaces, h, List.dropWhile_append_of_pos hspace,
    List.dropWhile_cons_of_neg (by simp [hx])]

end

end Cursor

/-- The reader takes the text from whatever it stands before, and gives the
value. -/
def Reads {α : Type} (reader : Cursor → Except Error (α × Cursor)) (text : List Char) (a : α) :
    Prop :=
  ∀ c rest, c.rest = text ++ rest → ∃ after : Cursor, after.rest = rest ∧ reader c = .ok (a, after)

/-- What is read is put before what is read after it. -/
theorem bind_cons {α : Type} (a : α) (others : Except Error (List α × Cursor)) :
    (do let (values, c) ← others; return (a :: values, c))
      = others.map fun r => (a :: r.1, r.2) := by
  cases others <;> rfl

/-! ## Strings -/

theorem hexNumber?_hexDigit : ∀ n < 0x20,
    hexNumber? ['0', '0', hexDigit (n / 16), hexDigit (n % 16)] = some n := by
  decide

/-- A character is written as a short escape, as a Unicode escape or as it
is. -/
theorem escapeChar_cases (x : Char) :
    (∃ y, escapeChar x = ['\\', y] ∧ y ≠ 'u' ∧ shortEscape? y = some x) ∨
    (∃ a b, escapeChar x = ['\\', 'u', '0', '0', a, b] ∧
      hexNumber? ['0', '0', a, b] = some x.toNat ∧ x.toNat < 0x20) ∨
    (escapeChar x = [x] ∧ x ≠ '"' ∧ x ≠ '\\' ∧ ¬ x.toNat < 0x20) := by
  unfold escapeChar
  split
  · next h => exact .inl ⟨'"', rfl, by decide, by rw [h]; decide⟩
  split
  · next h => exact .inl ⟨'\\', rfl, by decide, by rw [h]; decide⟩
  split
  · next h => exact .inl ⟨'b', rfl, by decide, by rw [h]; decide⟩
  split
  · next h => exact .inl ⟨'f', rfl, by decide, by rw [h]; decide⟩
  split
  · next h => exact .inl ⟨'n', rfl, by decide, by rw [h]; decide⟩
  split
  · next h => exact .inl ⟨'r', rfl, by decide, by rw [h]; decide⟩
  split
  · next h => exact .inl ⟨'t', rfl, by decide, by rw [h]; decide⟩
  split
  · next h => exact .inr (.inl ⟨_, _, rfl, hexNumber?_hexDigit _ h, h⟩)
  · next hquote hbackslash _ _ _ _ _ h => exact .inr (.inr ⟨rfl, hquote, hbackslash, h⟩)

theorem le_foldl_add (start : Nat) (sizes : List Nat) : start ≤ sizes.foldl (· + ·) start := by
  induction sizes generalizing start with
  | nil => exact Nat.le_refl _
  | cons size sizes ih => exact Nat.le_trans (Nat.le_add_right _ _) (ih _)

theorem readHex_of_rest {c : Cursor} {digits rest : List Char} (hlength : digits.length = 4)
    (h : c.rest = digits ++ rest) {n : Nat} (hn : hexNumber? digits = some n) :
    readHex c = .ok (n, c.drop 4) := by
  have hbytes : ¬ (c.rest.map Char.utf8Size).foldl (· + ·) 0 < 4 := by
    obtain ⟨p, q, r, s, rfl⟩ := List.length_eq_four.mp hlength
    have hle := le_foldl_add (0 + p.utf8Size + q.utf8Size + r.utf8Size + s.utf8Size)
      (rest.map Char.utf8Size)
    have hp := Char.utf8Size_pos p
    have hq := Char.utf8Size_pos q
    have hr := Char.utf8Size_pos r
    have hs := Char.utf8Size_pos s
    rw [h]
    show ¬ (rest.map Char.utf8Size).foldl (· + ·)
      (0 + p.utf8Size + q.utf8Size + r.utf8Size + s.utf8Size) < 4
    omega
  have htake : c.rest.take 4 = digits := by rw [h, ← hlength, List.take_left]
  simp only [readHex, if_neg hbytes, htake, hn]

theorem readUnicode_of_rest {c : Cursor} {digits rest : List Char} (hlength : digits.length = 4)
    (h : c.rest = digits ++ rest) {x : Char} (hx : hexNumber? digits = some x.toNat)
    (hsmall : x.toNat < 0x20) :
    readUnicode c = .ok (x, c.drop 4) := by
  have hlow : ¬ (0xDC00 ≤ x.toNat ∧ x.toNat ≤ 0xDFFF) := by omega
  have hhigh : ¬ (0xD800 ≤ x.toNat ∧ x.toNat ≤ 0xDBFF) := by omega
  rw [readUnicode, readHex_of_rest hlength h hx]
  show (if _ then _ else _) = _
  rw [if_neg hlow, if_neg hhigh, Char.ofNat_toNat]
  rfl

/-- One character of a string comes back from the way it is written. -/
theorem readCharsFrom_escapeChar (fuel : Nat) (x : Char) {c : Cursor} {rest : List Char}
    (h : c.rest = escapeChar x ++ rest) :
    ∃ after : Cursor, after.rest = rest ∧
      readCharsFrom (fuel + 1) c = (readCharsFrom fuel after).map fun r => (x :: r.1, r.2) := by
  rcases escapeChar_cases x with ⟨y, hx, hy, hshort⟩ | ⟨a, b, hx, hhex, hsmall⟩ |
    ⟨hx, hquote, hbackslash, hplain⟩
  · rw [hx] at h
    have hnext : c.next.rest = y :: rest := Cursor.rest_next h
    have hescape : readEscape c.next = .ok (x, c.next.next) := by
      rw [readEscape, Cursor.peek_of_rest hnext]
      split
      · next heq => cases heq
      · next heq => exact absurd (Option.some.inj heq) hy
      · next heq =>
        rw [← Option.some.inj heq, hshort]
    refine ⟨c.next.next, Cursor.rest_next hnext, ?_⟩
    rw [readCharsFrom, Cursor.peek_of_rest h]
    show Except.bind (readEscape c.next) _ = _
    rw [hescape]
    exact bind_cons x _
  · rw [hx] at h
    have hnext : c.next.rest = 'u' :: ['0', '0', a, b] ++ rest := Cursor.rest_next h
    have hdigits : c.next.next.rest = ['0', '0', a, b] ++ rest := Cursor.rest_next hnext
    have hescape : readEscape c.next = .ok (x, c.next.next.drop 4) := by
      rw [readEscape, Cursor.peek_of_rest hnext]
      exact readUnicode_of_rest rfl hdigits hhex hsmall
    refine ⟨c.next.next.drop 4, ?_, ?_⟩
    · rw [Cursor.drop, hdigits]
      rfl
    · rw [readCharsFrom, Cursor.peek_of_rest h]
      show Except.bind (readEscape c.next) _ = _
      rw [hescape]
      exact bind_cons x _
  · rw [hx] at h
    refine ⟨c.next, Cursor.rest_next h, ?_⟩
    rw [readCharsFrom, Cursor.peek_of_rest h]
    split
    · next heq => cases heq
    · next heq => exact absurd (Option.some.inj heq) hquote
    · next heq => exact absurd (Option.some.inj heq) hbackslash
    · next heq =>
      rw [← Option.some.inj heq, if_neg hplain]
      exact bind_cons x _

theorem readCharsFrom_of_rest {fuel : Nat} {chars rest : List Char} {c : Cursor}
    (hfuel : chars.length < fuel) (h : c.rest = chars.flatMap escapeChar ++ '"' :: rest) :
    ∃ after : Cursor, after.rest = rest ∧ readCharsFrom fuel c = .ok (chars, after) := by
  induction chars generalizing fuel c with
  | nil =>
    obtain ⟨fuel, rfl⟩ := Nat.exists_eq_succ_of_ne_zero (Nat.ne_of_gt hfuel)
    refine ⟨c.next, Cursor.rest_next h, ?_⟩
    rw [readCharsFrom, Cursor.peek_of_rest h]
    rfl
  | cons x chars ih =>
    obtain ⟨fuel, rfl⟩ := Nat.exists_eq_succ_of_ne_zero (Nat.ne_zero_of_lt hfuel)
    rw [List.flatMap_cons, List.append_assoc] at h
    obtain ⟨next, hnext, hstep⟩ := readCharsFrom_escapeChar fuel x h
    obtain ⟨after, hafter, hread⟩ := ih (Nat.lt_of_succ_lt_succ hfuel) hnext
    refine ⟨after, hafter, ?_⟩
    rw [hstep, hread]
    rfl

theorem length_le_flatMap_escapeChar (chars : List Char) :
    chars.length ≤ (chars.flatMap escapeChar).length := by
  induction chars with
  | nil => exact Nat.le_refl _
  | cons x chars ih =>
    have hpos : 1 ≤ (escapeChar x).length := by
      rcases escapeChar_cases x with ⟨y, hx, _⟩ | ⟨a, b, hx, _⟩ | ⟨hx, _⟩ <;> simp [hx]
    rw [List.flatMap_cons, List.length_append, List.length_cons]
    omega

theorem toList_stringText (s : String) :
    (stringText s).toList = '"' :: (s.toList.flatMap escapeChar ++ ['"']) := by
  rw [stringText, String.toList_ofList]
  rfl

/-- A string is read back, whatever it holds. -/
theorem reads_string (s : String) :
    Reads (fun c => readString c.next) (stringText s).toList s := by
  intro c rest h
  rw [toList_stringText, List.cons_append, List.append_assoc] at h
  have hnext : c.next.rest = s.toList.flatMap escapeChar ++ '"' :: rest := Cursor.rest_next h
  have hfuel : s.toList.length < c.next.rest.length + 1 := by
    have hle := length_le_flatMap_escapeChar s.toList
    rw [hnext, List.length_append]
    omega
  obtain ⟨after, hafter, hread⟩ := readCharsFrom_of_rest hfuel hnext
  refine ⟨after, hafter, ?_⟩
  show readString c.next = _
  rw [readString, hread]
  show Except.ok (String.ofList s.toList, after) = _
  rw [String.ofList_toList]

/-! ## Parts of containers -/

/-- The text begins with a character that is no space and that a part can
begin with. -/
def Begins (head : Char → Prop) (text : List Char) : Prop :=
  ∃ x rest, text = x :: rest ∧ Cursor.isSpace x = false ∧ head x

/-- A loop over the parts of a container, told by what it does at the closing
mark, at the first part, and at a part after a comma. -/
structure Loops {α : Type} (part : Cursor → Except Error (α × Cursor)) (close : Char)
    (head : Char → Prop) (loop : Nat → Bool → Cursor → Except Error (List α × Cursor)) : Prop where
  mark : Cursor.isSpace close = false
  finish {fuel : Nat} {first : Bool} {c : Cursor} {rest : List Char} :
    c.skipSpaces.rest = close :: rest → loop (fuel + 1) first c = .ok ([], c.skipSpaces.next)
  first {fuel : Nat} {c middle : Cursor} {x : Char} {rest : List Char} {a : α} :
    c.skipSpaces.rest = x :: rest → head x → part c.skipSpaces = .ok (a, middle) →
    loop (fuel + 1) true c = (loop fuel false middle).map fun r => (a :: r.1, r.2)
  comma {fuel : Nat} {c middle : Cursor} {x : Char} {rest tail : List Char} {a : α} :
    c.skipSpaces.rest = ',' :: rest → c.skipSpaces.next.skipSpaces.rest = x :: tail → head x →
    part c.skipSpaces.next.skipSpaces = .ok (a, middle) →
    loop (fuel + 1) false c = (loop fuel false middle).map fun r => (a :: r.1, r.2)

theorem loops_readItems (item : Cursor → Except Error (Value × Cursor)) :
    Loops item ']' (· ≠ ']') (readItems item) where
  mark := by decide
  finish h := by
    rw [readItems, Cursor.peek_of_rest h]
    rfl
  first h hx hitem := by
    rw [readItems, Cursor.peek_of_rest h]
    split
    · next heq => cases heq
    · next heq => exact absurd (Option.some.inj heq) hx
    · rw [if_pos rfl, hitem]
      exact bind_cons _ _
  comma hcomma h hx hitem := by
    rw [readItems, Cursor.peek_of_rest hcomma]
    split
    · next heq => cases heq
    · next heq => cases heq
    · next heq =>
      rw [if_neg (by decide), if_pos (Option.some.inj heq).symm]
      dsimp only
      rw [Cursor.peek_of_rest h]
      split
      · next heq => cases heq
      · next heq => exact absurd (Option.some.inj heq) hx
      · rw [hitem]
        exact bind_cons _ _

theorem loops_readEntries (item : Cursor → Except Error (Value × Cursor)) :
    Loops (readEntry item) '\x7d' (· = '"') (readEntries item) where
  mark := by decide
  finish h := by
    rw [readEntries, Cursor.peek_of_rest h]
    rfl
  first h hx hentry := by
    rw [hx] at h
    rw [readEntries, Cursor.peek_of_rest h]
    dsimp only
    rw [if_neg (by decide), if_pos rfl, if_pos rfl, hentry]
    exact bind_cons _ _
  comma hcomma h hx hentry := by
    rw [hx] at h
    rw [readEntries, Cursor.peek_of_rest hcomma]
    dsimp only
    rw [if_neg (by decide), if_neg (by decide), if_pos rfl, Cursor.peek_of_rest h]
    dsimp only
    rw [if_pos rfl, hentry]
    exact bind_cons _ _

namespace Loops
variable {α : Type} {part : Cursor → Except Error (α × Cursor)} {close : Char}
  {head : Char → Prop} {loop : Nat → Bool → Cursor → Except Error (List α × Cursor)}
  (hloop : Loops part close head loop) {gap space : List Char}
  (hgap : ∀ x ∈ gap, Cursor.isSpace x = true) (hspace : ∀ x ∈ space, Cursor.isSpace x = true)
  {text : α → List Char} {rest : List Char}
include hloop hgap hspace

/-- The parts after the first one, each after a comma. The induction is on
the parts, and every step takes one unit of fuel. -/
theorem reads_others {parts : List α}
    (hparts : ∀ a ∈ parts, Begins head (text a) ∧ Reads part (text a) a)
    {fuel : Nat} (hfuel : parts.length < fuel) {c : Cursor}
    (h : c.rest = parts.flatMap (fun a => ',' :: (gap ++ text a)) ++ (space ++ close :: rest)) :
    ∃ after : Cursor, after.rest = rest ∧ loop fuel false c = .ok (parts, after) := by
  induction parts generalizing fuel c with
  | nil =>
    obtain ⟨fuel, rfl⟩ := Nat.exists_eq_succ_of_ne_zero (Nat.ne_of_gt hfuel)
    have hskip := Cursor.rest_skipSpaces_append hspace h hloop.mark
    exact ⟨c.skipSpaces.next, Cursor.rest_next hskip, hloop.finish hskip⟩
  | cons a parts ih =>
    obtain ⟨fuel, rfl⟩ := Nat.exists_eq_succ_of_ne_zero (Nat.ne_zero_of_lt hfuel)
    obtain ⟨⟨⟨x, tail, htext, hx, hhead⟩, hread⟩, hothers⟩ := List.forall_mem_cons.mp hparts
    rw [List.flatMap_cons, List.cons_append, List.cons_append, List.append_assoc,
      List.append_assoc] at h
    have hcomma := Cursor.rest_skipSpaces_of_head h (by decide)
    have hnext := Cursor.rest_next hcomma
    rw [htext, List.cons_append] at hnext
    have hpart := Cursor.rest_skipSpaces_append hgap hnext hx
    obtain ⟨middle, hmiddle, ha⟩ := hread _ _ (by rw [htext, List.cons_append]; exact hpart)
    obtain ⟨after, hafter, hreads⟩ := ih hothers (Nat.lt_of_succ_lt_succ hfuel) hmiddle
    refine ⟨after, hafter, ?_⟩
    rw [hloop.comma hcomma hpart hhead ha, hreads]
    rfl

theorem reads_all {a : α} {parts : List α}
    (hparts : ∀ b ∈ a :: parts, Begins head (text b) ∧ Reads part (text b) b)
    {fuel : Nat} (hfuel : (a :: parts).length < fuel) {c : Cursor}
    (h : c.rest = gap ++ (text a ++
      (parts.flatMap (fun b => ',' :: (gap ++ text b)) ++ (space ++ close :: rest)))) :
    ∃ after : Cursor, after.rest = rest ∧ loop fuel true c = .ok (a :: parts, after) := by
  obtain ⟨fuel, rfl⟩ := Nat.exists_eq_succ_of_ne_zero (Nat.ne_zero_of_lt hfuel)
  obtain ⟨⟨⟨x, tail, htext, hx, hhead⟩, hread⟩, hothers⟩ := List.forall_mem_cons.mp hparts
  rw [htext, List.cons_append] at h
  have hpart := Cursor.rest_skipSpaces_append hgap h hx
  obtain ⟨middle, hmiddle, ha⟩ := hread _ _ (by rw [htext, List.cons_append]; exact hpart)
  obtain ⟨after, hafter, hreads⟩ :=
    hloop.reads_others hgap hspace hothers (Nat.lt_of_succ_lt_succ hfuel) hmiddle
  refine ⟨after, hafter, ?_⟩
  rw [hloop.first hpart hhead ha, hreads]
  rfl

end Loops

/-- An entry is its key, a colon and the text of its value. -/
theorem reads_entry {item : Cursor → Except Error (Value × Cursor)} {key : String} {v : Value}
    {text : List Char} (h : Reads item text v) :
    Reads (readEntry item) ((stringText key).toList ++ ':' :: text) (key, v) := by
  intro c rest hc
  rw [List.append_assoc, List.cons_append] at hc
  obtain ⟨middle, hmiddle, hkey⟩ := reads_string key _ _ hc
  have hcolon := Cursor.rest_skipSpaces_of_head hmiddle (by decide)
  obtain ⟨after, hafter, hitem⟩ := h _ _ (Cursor.rest_next hcolon)
  refine ⟨after, hafter, ?_⟩
  dsimp only at hkey
  rw [readEntry, hkey, ok_bind]
  dsimp only
  rw [Cursor.peek_of_rest hcolon]
  show Except.bind (item middle.skipSpaces.next) _ = _
  rw [hitem]
  rfl

/-! ## Lines of containers -/

/-- A line end and the indent of a level. -/
def lineBreak (level : Nat) : List Char := '\n' :: (indent level).toList

theorem isSpace_of_mem_lineBreak {level : Nat} :
    ∀ x ∈ lineBreak level, Cursor.isSpace x = true := by
  intro x hx
  rw [lineBreak, indent, String.toList_ofList, List.mem_cons, List.mem_replicate] at hx
  rcases hx with rfl | ⟨_, rfl⟩ <;> decide

theorem toList_intercalate_cons (sep part : String) (parts : List String) :
    (sep.intercalate (part :: parts)).toList
      = part.toList ++ parts.flatMap fun p => sep.toList ++ p.toList := by
  induction parts generalizing part with
  | nil => simp
  | cons next parts ih =>
    rw [String.intercalate_cons_cons, String.toList_append, String.toList_append, ih,
      List.flatMap_cons]
    simp only [List.append_assoc]

theorem toList_spread_nil (opening closing : String) (level : Nat) :
    (spread opening closing level []).toList = opening.toList ++ closing.toList := by
  rw [spread, if_pos List.isEmpty_nil, String.toList_append]

theorem toList_spread_cons (opening closing : String) (level : Nat) (part : String)
    (parts : List String) :
    (spread opening closing level (part :: parts)).toList
      = opening.toList ++ (lineBreak (level + 1) ++ (part.toList ++
        (parts.flatMap (fun p => ',' :: (lineBreak (level + 1) ++ p.toList)) ++
          (lineBreak level ++ closing.toList)))) := by
  have hfeed : ("\n" : String).toList = ['\n'] := rfl
  have hcomma : (",\n" : String).toList = [',', '\n'] := rfl
  rw [spread, if_neg (by simp)]
  simp only [String.toList_append, toList_intercalate_cons, lineBreak, hfeed, hcomma,
    List.append_assoc, List.cons_append, List.nil_append]

/-- The length of the text is fuel enough for the parts of a container. -/
theorem length_le_flatMap_cons {α : Type} (x : Char) (text : α → List Char) (parts : List α) :
    parts.length ≤ (parts.flatMap fun part => x :: text part).length := by
  induction parts with
  | nil => exact Nat.le_refl _
  | cons part parts ih =>
    rw [List.flatMap_cons, List.length_append, List.length_cons, List.length_cons]
    omega

/-- The lines of a container are read as its parts. -/
theorem Loops.reads_spread {α : Type} {part : Cursor → Except Error (α × Cursor)} {close : Char}
    {head : Char → Prop} {loop : Nat → Bool → Cursor → Except Error (List α × Cursor)}
    (hloop : Loops part close head loop) {opening closing : String} {mark : Char}
    (hopening : opening.toList = [mark]) (hclosing : closing.toList = [close]) {level : Nat}
    {render : α → String} {parts : List α}
    (hparts : ∀ a ∈ parts, Begins head (render a).toList ∧ Reads part (render a).toList a)
    {c : Cursor} {rest : List Char}
    (h : c.rest = (spread opening closing level (parts.map render)).toList ++ rest) :
    ∃ tail after, c.rest = mark :: tail ∧ after.rest = rest ∧
      loop (c.rest.length + 1) true c.next = .ok (parts, after) := by
  cases parts with
  | nil =>
    rw [List.map_nil, toList_spread_nil, hopening, hclosing] at h
    have hclose := Cursor.rest_skipSpaces_of_head (Cursor.rest_next h) hloop.mark
    exact ⟨_, _, h, Cursor.rest_next hclose, hloop.finish hclose⟩
  | cons a parts =>
    rw [List.map_cons, toList_spread_cons, List.flatMap_map, hopening, hclosing] at h
    have hopen : c.rest = mark :: (lineBreak (level + 1) ++ ((render a).toList ++
        (parts.flatMap (fun b => ',' :: (lineBreak (level + 1) ++ (render b).toList)) ++
          (lineBreak level ++ close :: rest)))) := by
      rw [h]
      simp only [List.append_assoc]
      rfl
    have hfuel : (a :: parts).length < c.rest.length + 1 := by
      have hle := length_le_flatMap_cons ','
        (fun b => lineBreak (level + 1) ++ (render b).toList) parts
      rw [hopen]
      simp only [List.length_cons, List.length_append] at hle ⊢
      omega
    obtain ⟨after, hafter, hread⟩ :=
      hloop.reads_all isSpace_of_mem_lineBreak isSpace_of_mem_lineBreak hparts hfuel
        (Cursor.rest_next hopen)
    exact ⟨_, after, hopen, hafter, hread⟩

theorem prettyItems_eq_map (level : Nat) (items : List Value) :
    prettyItems level items = items.map (Value.prettyAt level) := by
  induction items with
  | nil => rfl
  | cons v rest ih => rw [prettyItems, ih, List.map_cons]

theorem prettyEntries_eq_map (level : Nat) (entries : List (String × Value)) :
    prettyEntries level entries
      = entries.map fun e => stringText e.1 ++ ": " ++ e.2.prettyAt level := by
  induction entries with
  | nil => rfl
  | cons e rest ih => rw [prettyEntries, ih, List.map_cons]

/-! ## Values -/

/-- A value without numbers, the keys of its objects in order, that is not
nested too deep for a reader that goes less than `depth` deep. -/
inductive Readable : (depth : Nat) → Value → Prop where
  | null {depth : Nat} : Readable (depth + 1) .null
  | bool {depth : Nat} (b : Bool) : Readable (depth + 1) (.bool b)
  | string {depth : Nat} (s : String) : Readable (depth + 1) (.string s)
  | array {depth : Nat} {items : List Value} (deep : depth ≠ 0)
    (parts : ∀ v ∈ items, Readable depth v) : Readable (depth + 1) (.array items)
  | object {depth : Nat} {entries : List (String × Value)} (deep : depth ≠ 0)
    (ordered : (entries.map Prod.fst).Pairwise (· < ·))
    (parts : ∀ e ∈ entries, Readable depth e.2) : Readable (depth + 1) (.object entries)

theorem readWord_of_rest {word rest : List Char} {c : Cursor} (h : c.rest = word ++ rest) :
    ∃ after : Cursor, after.rest = rest ∧ readWord c word = .ok after := by
  induction word generalizing c with
  | nil => exact ⟨c, h, rfl⟩
  | cons x word ih =>
    obtain ⟨after, hafter, hread⟩ := ih (Cursor.rest_next h)
    refine ⟨after, hafter, ?_⟩
    rw [readWord, Cursor.peek_of_rest h]
    dsimp only
    rw [if_pos rfl, hread]

section
variable {depth : Nat} {c : Cursor} {rest : List Char}

/-- The first character of a value that is no number tells how to go on. -/
theorem readValue_of_rest {x : Char} (h : c.skipSpaces.rest = x :: rest) (hminus : x ≠ '-')
    (hdigit : ¬ isDigit x = true) :
    readValue (depth + 1) c =
      if x = 'n' then (readWord c.skipSpaces.next ['u', 'l', 'l']).map fun c => (.null, c)
      else if x = 't' then (readWord c.skipSpaces.next ['r', 'u', 'e']).map fun c => (.bool true, c)
      else if x = 'f' then
        (readWord c.skipSpaces.next ['a', 'l', 's', 'e']).map fun c => (.bool false, c)
      else if x = '"' then (readString c.skipSpaces.next).map fun r => (.string r.1, r.2)
      else if x = '[' then
        if depth = 0 then c.skipSpaces.failNext .tooDeep
        else
          (readItems (readValue depth) (c.skipSpaces.rest.length + 1) true c.skipSpaces.next).map
            fun r => (.array r.1, r.2)
      else if x = '\x7b' then
        if depth = 0 then c.skipSpaces.failNext .tooDeep
        else
          (readEntries (readValue depth) (c.skipSpaces.rest.length + 1) true c.skipSpaces.next).map
            fun r => (.object (entriesOf r.1), r.2)
      else c.skipSpaces.failNext .expectedValue := by
  rw [readValue, Cursor.peek_of_rest h]
  dsimp only
  rw [if_neg hminus, if_neg hdigit]
  rfl

theorem readValue_null (h : c.skipSpaces.rest = ['n', 'u', 'l', 'l'] ++ rest) :
    ∃ after : Cursor, after.rest = rest ∧ readValue (depth + 1) c = .ok (.null, after) := by
  obtain ⟨after, hafter, hread⟩ := @readWord_of_rest ['u', 'l', 'l'] rest _ (Cursor.rest_next h)
  refine ⟨after, hafter, ?_⟩
  rw [readValue_of_rest h (by decide) (by decide), if_pos rfl, hread]
  rfl

theorem readValue_true (h : c.skipSpaces.rest = ['t', 'r', 'u', 'e'] ++ rest) :
    ∃ after : Cursor, after.rest = rest ∧ readValue (depth + 1) c = .ok (.bool true, after) := by
  obtain ⟨after, hafter, hread⟩ := @readWord_of_rest ['r', 'u', 'e'] rest _ (Cursor.rest_next h)
  refine ⟨after, hafter, ?_⟩
  rw [readValue_of_rest h (by decide) (by decide), if_neg (by decide), if_pos rfl, hread]
  rfl

theorem readValue_false (h : c.skipSpaces.rest = ['f', 'a', 'l', 's', 'e'] ++ rest) :
    ∃ after : Cursor, after.rest = rest ∧ readValue (depth + 1) c = .ok (.bool false, after) := by
  obtain ⟨after, hafter, hread⟩ :=
    @readWord_of_rest ['a', 'l', 's', 'e'] rest _ (Cursor.rest_next h)
  refine ⟨after, hafter, ?_⟩
  rw [readValue_of_rest h (by decide) (by decide), if_neg (by decide), if_neg (by decide),
    if_pos rfl, hread]
  rfl

theorem readValue_string {s : String} (h : c.skipSpaces.rest = (stringText s).toList ++ rest) :
    ∃ after : Cursor, after.rest = rest ∧ readValue (depth + 1) c = .ok (.string s, after) := by
  obtain ⟨after, hafter, hread⟩ := reads_string s _ _ h
  refine ⟨after, hafter, ?_⟩
  dsimp only at hread
  rw [toList_stringText] at h
  rw [readValue_of_rest h (by decide) (by decide), if_neg (by decide), if_neg (by decide),
    if_neg (by decide), if_pos rfl, hread]
  rfl

theorem readValue_array {items : List Value} {after : Cursor} (deep : depth ≠ 0)
    (h : c.skipSpaces.rest = '[' :: rest)
    (hitems : readItems (readValue depth) (c.skipSpaces.rest.length + 1) true c.skipSpaces.next
      = .ok (items, after)) :
    readValue (depth + 1) c = .ok (.array items, after) := by
  rw [readValue_of_rest h (by decide) (by decide), if_neg (by decide), if_neg (by decide),
    if_neg (by decide), if_neg (by decide), if_pos rfl, if_neg deep, hitems]
  rfl

theorem readValue_object {entries : List (String × Value)} {after : Cursor} (deep : depth ≠ 0)
    (h : c.skipSpaces.rest = '\x7b' :: rest)
    (hentries : readEntries (readValue depth) (c.skipSpaces.rest.length + 1) true
      c.skipSpaces.next = .ok (entries, after)) :
    readValue (depth + 1) c = .ok (.object (entriesOf entries), after) := by
  rw [readValue_of_rest h (by decide) (by decide), if_neg (by decide), if_neg (by decide),
    if_neg (by decide), if_neg (by decide), if_neg (by decide), if_pos rfl, if_neg deep, hentries]
  rfl

end

section
variable (level : Nat)

theorem toList_prettyAt_null : (Value.null.prettyAt level).toList = ['n', 'u', 'l', 'l'] := by
  show "null".toList = _
  rfl

theorem toList_prettyAt_false :
    ((Value.bool false).prettyAt level).toList = ['f', 'a', 'l', 's', 'e'] := by
  show "false".toList = _
  rfl

theorem toList_prettyAt_true : ((Value.bool true).prettyAt level).toList = ['t', 'r', 'u', 'e'] := by
  show "true".toList = _
  rfl

theorem toList_prettyAt_string (s : String) :
    ((Value.string s).prettyAt level).toList = (stringText s).toList :=
  rfl

theorem prettyAt_array (items : List Value) :
    (Value.array items).prettyAt level
      = spread "[" "]" level (items.map (Value.prettyAt (level + 1))) :=
  congrArg (spread "[" "]" level) (prettyItems_eq_map (level + 1) items)

theorem prettyAt_object (entries : List (String × Value)) :
    (Value.object entries).prettyAt level
      = spread "\x7b" "\x7d" level
        (entries.map fun e => stringText e.1 ++ ": " ++ e.2.prettyAt (level + 1)) :=
  congrArg (spread "\x7b" "\x7d" level) (prettyEntries_eq_map (level + 1) entries)

end

theorem begins_prettyAt {depth : Nat} {v : Value} (h : Readable depth v) (level : Nat) :
    Begins (· ≠ ']') (v.prettyAt level).toList := by
  cases h with
  | null => exact ⟨'n', _, toList_prettyAt_null level, by decide, by decide⟩
  | bool b =>
    cases b with
    | false => exact ⟨'f', _, toList_prettyAt_false level, by decide, by decide⟩
    | true => exact ⟨'t', _, toList_prettyAt_true level, by decide, by decide⟩
  | string s =>
    rw [toList_prettyAt_string]
    exact ⟨'"', _, toList_stringText s, by decide, by decide⟩
  | @array _ items =>
    rw [prettyAt_array]
    cases items with
    | nil => exact ⟨'[', _, toList_spread_nil .., by decide, by decide⟩
    | cons v items => exact ⟨'[', _, toList_spread_cons .., by decide, by decide⟩
  | @object _ entries =>
    rw [prettyAt_object]
    cases entries with
    | nil => exact ⟨'\x7b', _, toList_spread_nil .., by decide, by decide⟩
    | cons e entries => exact ⟨'\x7b', _, toList_spread_cons .., by decide, by decide⟩

theorem begins_entry (level : Nat) (e : String × Value) :
    Begins (· = '"') (stringText e.1 ++ ": " ++ e.2.prettyAt level).toList := by
  rw [String.toList_append, String.toList_append, toList_stringText]
  exact ⟨'"', _, rfl, by decide, rfl⟩

theorem rest_skipSpaces_prettyAt {depth : Nat} {v : Value} (h : Readable depth v) (level : Nat)
    {space rest : List Char} (hspace : ∀ x ∈ space, Cursor.isSpace x = true) {c : Cursor}
    (hc : c.rest = space ++ (v.prettyAt level).toList ++ rest) :
    c.skipSpaces.rest = (v.prettyAt level).toList ++ rest := by
  obtain ⟨x, tail, htext, hx, _⟩ := begins_prettyAt h level
  rw [htext, List.append_assoc, List.cons_append] at hc
  rw [htext, List.cons_append]
  exact Cursor.rest_skipSpaces_append hspace hc hx

/-- A value is read back from its lines, with any space before them. The
induction is over the value, as deep as it is nested. -/
theorem reads_prettyAt {depth : Nat} {v : Value} (h : Readable depth v) (level : Nat)
    {space : List Char} (hspace : ∀ x ∈ space, Cursor.isSpace x = true) :
    Reads (readValue depth) (space ++ (v.prettyAt level).toList) v := by
  induction h generalizing level space with
  | null =>
    intro c rest hc
    have hskip := rest_skipSpaces_prettyAt (@Readable.null 0) level hspace hc
    rw [toList_prettyAt_null] at hskip
    exact readValue_null hskip
  | bool b =>
    intro c rest hc
    have hskip := rest_skipSpaces_prettyAt (@Readable.bool 0 b) level hspace hc
    cases b with
    | false =>
      rw [toList_prettyAt_false] at hskip
      exact readValue_false hskip
    | true =>
      rw [toList_prettyAt_true] at hskip
      exact readValue_true hskip
  | string s =>
    intro c rest hc
    have hskip := rest_skipSpaces_prettyAt (@Readable.string 0 s) level hspace hc
    rw [toList_prettyAt_string] at hskip
    exact readValue_string hskip
  | @array depth items deep parts ih =>
    intro c rest hc
    have hskip := rest_skipSpaces_prettyAt (.array deep parts) level hspace hc
    rw [prettyAt_array] at hskip
    obtain ⟨_, after, hopen, hafter, hread⟩ :=
      (loops_readItems (readValue depth)).reads_spread rfl rfl
        (fun v hv => ⟨begins_prettyAt (parts v hv) _, @ih v hv _ [] (List.forall_mem_nil _)⟩) hskip
    exact ⟨after, hafter, readValue_array deep hopen hread⟩
  | @object depth entries deep ordered parts ih =>
    intro c rest hc
    have hskip := rest_skipSpaces_prettyAt (.object deep ordered parts) level hspace hc
    rw [prettyAt_object] at hskip
    have hentries : ∀ e ∈ entries, Reads (readEntry (readValue depth))
        (stringText e.1 ++ ": " ++ e.2.prettyAt (level + 1)).toList e := by
      intro e he
      have hvalue := @ih e he (level + 1) [' '] (List.forall_mem_singleton.mpr rfl)
      have hentry := @reads_entry _ e.1 _ _ hvalue
      rw [String.toList_append, String.toList_append, List.append_assoc]
      exact hentry
    obtain ⟨_, after, hopen, hafter, hread⟩ :=
      (loops_readEntries (readValue depth)).reads_spread rfl rfl
        (fun e he => ⟨begins_entry (level + 1) e, hentries e he⟩) hskip
    have hvalue := readValue_object deep hopen hread
    rw [entriesOf_of_pairwise ordered] at hvalue
    exact ⟨after, hafter, hvalue⟩

/-- A report is read back from its text. -/
theorem read_pretty {v : Value} (h : Readable depthLimit v) : read (v.pretty ++ "\n") = .ok v := by
  have hstart : (Cursor.start (v.pretty ++ "\n")).rest
      = [] ++ (v.prettyAt 0).toList ++ ['\n'] := by
    rw [Cursor.start, String.toList_append]
    rfl
  obtain ⟨after, hafter, hread⟩ := reads_prettyAt h 0 (List.forall_mem_nil _) _ _ hstart
  have hend : after.skipSpaces.peek = none := by
    rw [Cursor.peek, Cursor.rest_skipSpaces, hafter]
    rfl
  rw [read, hread, ok_bind]
  dsimp only
  rw [hend]
  rfl

end Json

end TreeSchema
