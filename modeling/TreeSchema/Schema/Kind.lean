/-
  Kinds

  Every entity of a schema is a scalar, an array or a mapping, and the sigil
  before its name says which.
-/

namespace TreeSchema.Schema

/-- What an entity describes. -/
inductive Kind where
  | scalar
  | array
  | mapping
  deriving DecidableEq, Repr, Inhabited

namespace Kind

/-- The character written before a name of this kind. -/
def sigil : Kind → Char
  | scalar => '$'
  | array => '@'
  | mapping => '%'

def ofSigil? (c : Char) : Option Kind :=
  if c = '$' then some scalar
  else if c = '@' then some array
  else if c = '%' then some mapping
  else none

/-- The kind's name, as messages and nonterminals spell it. -/
def text : Kind → String
  | scalar => "scalar"
  | array => "array"
  | mapping => "mapping"

theorem ofSigil?_sigil (k : Kind) : ofSigil? k.sigil = some k := by
  cases k <;> rfl

theorem ofSigil?_eq_some_iff {c : Char} {k : Kind} : ofSigil? c = some k ↔ c = k.sigil := by
  constructor
  · intro h
    simp only [ofSigil?] at h
    split at h
    · next hc => cases h; exact hc
    · split at h
      · next hc => cases h; exact hc
      · split at h
        · next hc => cases h; exact hc
        · cases h
  · rintro rfl
    exact ofSigil?_sigil k

end Kind

end TreeSchema.Schema
