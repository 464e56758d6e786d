import Mathlib.Data.List.Lex
import TreeSchema.Text.Utf8
/-
  The order of encoded texts

  UTF-8 keeps the order of characters: a greater character begins with a
  greater byte or, where the encodings begin alike, has the greater byte at
  the first place where they differ. So texts in increasing order, compared
  character by character, are in increasing order byte by byte
  (`lex_encode`).
-/

namespace TreeSchema.Text

theorem toList_loop_eq (bytes : ByteArray) (i : Nat) (taken : List UInt8) :
    ByteArray.toList.loop bytes i taken = taken.reverse ++ bytes.data.toList.drop i := by
  fun_induction ByteArray.toList.loop bytes i taken with
  | case1 i taken hi ih =>
    have hi' : i < bytes.data.toList.length := by simpa using hi
    have hbyte : bytes.get! i = bytes.data.toList[i] := by
      show bytes.data[i]! = _
      rw [getElem!_pos bytes.data i hi]
      rfl
    rw [ih, List.reverse_cons, List.append_assoc, List.singleton_append, hbyte,
      List.drop_eq_getElem_cons hi']
  | case2 i taken hi =>
    rw [List.drop_of_length_le (by simpa using hi), List.append_nil]

theorem encode_eq_flatMap (text : String) :
    encode text = text.toList.flatMap String.utf8EncodeChar := by
  have hbytes : text.toUTF8 = (text.toList.flatMap String.utf8EncodeChar).toByteArray :=
    String.utf8Encode_toList.symm
  rw [encode, hbytes, ByteArray.toList, toList_loop_eq, List.toList_data_toByteArray]
  rfl

section
variable {a b : Nat} {x y : List UInt8}

theorem lex_of_lt (h : a < b) (hb : b < 256) :
    List.Lex (· < ·) (UInt8.ofNat a :: x) (UInt8.ofNat b :: y) := by
  refine .rel ?_
  rw [UInt8.lt_iff_toNat_lt, UInt8.toNat_ofNat', UInt8.toNat_ofNat']
  omega

theorem lex_of_le (h : a ≤ b) (hb : b < 256) (hrest : a = b → List.Lex (· < ·) x y) :
    List.Lex (· < ·) (UInt8.ofNat a :: x) (UInt8.ofNat b :: y) := by
  rcases Nat.lt_or_eq_of_le h with hlt | rfl
  · exact lex_of_lt hlt hb
  · exact .cons (hrest rfl)

end

/-- Two characters are told apart by their bytes, whatever follows them. -/
theorem lex_encodeChar {c d : Char} (h : c < d) (x y : List UInt8) :
    List.Lex (· < ·) (String.utf8EncodeChar c ++ x) (String.utf8EncodeChar d ++ y) := by
  have hlt : c.val.toNat < d.val.toNat := h
  have hmax : d.val.toNat < 0x110000 := by
    rcases d.valid with hd | ⟨_, hd⟩ <;> omega
  unfold String.utf8EncodeChar
  dsimp only
  generalize c.val.toNat = v at hlt ⊢
  generalize d.val.toNat = w at hlt hmax ⊢
  -- A longer encoding begins with a greater byte; encodings of one length are compared in order.
  by_cases h1 : v ≤ 0x7f
  · rw [if_pos h1]
    repeat' split
    all_goals exact lex_of_lt (by omega) (by omega)
  · rw [if_neg h1, if_neg (show ¬ w ≤ 0x7f by omega)]
    by_cases h2 : v ≤ 0x7ff
    · rw [if_pos h2]
      split
      · exact lex_of_le (by omega) (by omega) fun _ => lex_of_lt (by omega) (by omega)
      · split
        all_goals exact lex_of_lt (by omega) (by omega)
    · rw [if_neg h2, if_neg (show ¬ w ≤ 0x7ff by omega)]
      by_cases h3 : v ≤ 0xffff
      · rw [if_pos h3]
        split
        · exact lex_of_le (by omega) (by omega) fun _ =>
            lex_of_le (by omega) (by omega) fun _ => lex_of_lt (by omega) (by omega)
        · exact lex_of_lt (by omega) (by omega)
      · rw [if_neg h3, if_neg (show ¬ w ≤ 0xffff by omega)]
        exact lex_of_le (by omega) (by omega) fun _ =>
          lex_of_le (by omega) (by omega) fun _ =>
            lex_of_le (by omega) (by omega) fun _ => lex_of_lt (by omega) (by omega)

/-- Texts in increasing order are encoded in increasing order. -/
theorem lex_encode {s t : String} (h : s < t) : List.Lex (· < ·) (encode s) (encode t) := by
  have hchars : List.Lex (· < ·) s.toList t.toList := h
  rw [encode_eq_flatMap, encode_eq_flatMap]
  generalize s.toList = chars at hchars
  generalize t.toList = others at hchars
  induction hchars with
  | @nil d others =>
    have hne : String.utf8EncodeChar d ≠ [] := String.utf8EncodeChar_ne_nil
    obtain ⟨byte, more, hbytes⟩ := List.exists_cons_of_ne_nil hne
    rw [List.flatMap_cons, hbytes]
    exact .nil
  | rel hcd =>
    rw [List.flatMap_cons, List.flatMap_cons]
    exact lex_encodeChar hcd _ _
  | cons _ ih =>
    rw [List.flatMap_cons, List.flatMap_cons]
    exact List.Lex.append_left _ ih _

end TreeSchema.Text
