/-
  Lines

  A text as its lines. A line ends at a line feed, and a carriage return just
  before that feed belongs to the line end. What follows the last feed is a
  line of its own unless it is empty, and keeps a carriage return it ends
  with.
-/

namespace TreeSchema.Text

/-- A line read backwards, without the carriage return it ends with. -/
def closeLine : List Char → List Char
  | '\r' :: rest => rest.reverse
  | line => line.reverse

/-- The lines of a text, given the part of the current line already read,
backwards. -/
def linesFrom (current : List Char) : List Char → List (List Char)
  | [] => match current with
    | [] => []
    | line => [line.reverse]
  | c :: rest =>
    if c = '\n' then closeLine current :: linesFrom [] rest
    else linesFrom (c :: current) rest

/-- The lines of a text, without their line ends. -/
def lines (text : List Char) : List (List Char) := linesFrom [] text

/-- Numbers of lines have 32 bits and begin again. -/
theorem ofNat_add_of_dvd {n : Nat} (h : UInt32.size ∣ n) (line : Nat) :
    UInt32.ofNat (line + n) = .ofNat line := by
  obtain ⟨rounds, rfl⟩ := h
  rw [← UInt32.toNat_inj, UInt32.toNat_ofNat', UInt32.toNat_ofNat']
  exact Nat.add_mul_mod_self_left line UInt32.size rounds

end TreeSchema.Text
