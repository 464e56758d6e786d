/-
  Cutting and substituting

  Cutting a text at the first occurrence of a character, and replacing every
  occurrence of a phrase from left to right, where inserted text is never
  looked at again.
-/

namespace TreeSchema.Text

/-- The texts before and after the first `sep`, or `none` if there is no
`sep`. -/
def splitFirst (sep : Char) : List Char → Option (List Char × List Char)
  | [] => none
  | c :: rest =>
    if c = sep then some ([], rest)
    else (splitFirst sep rest).map fun (before, after) => (c :: before, after)

/-- What follows `pattern` at the head of a text, if the text begins so. -/
def afterPhrase : (pattern text : List Char) → Option (List Char)
  | [], text => some text
  | _ :: _, [] => none
  | p :: pattern, c :: text => if p = c then afterPhrase pattern text else none

def contains (pattern : List Char) : List Char → Bool
  | [] => pattern.isEmpty
  | c :: rest => (afterPhrase pattern (c :: rest)).isSome || contains pattern rest

/-- Replaces occurrences of a non-empty pattern; `skip` characters of an
occurrence already replaced are passed over first. -/
def replaceFrom (pattern replacement : List Char) : (skip : Nat) → List Char → List Char
  | _, [] => []
  | skip + 1, _ :: rest => replaceFrom pattern replacement skip rest
  | 0, c :: rest =>
    if (afterPhrase pattern (c :: rest)).isSome then
      replacement ++ replaceFrom pattern replacement (pattern.length - 1) rest
    else c :: replaceFrom pattern replacement 0 rest

/-- A pattern of one character is replaced character by character. -/
theorem replaceFrom_singleton (c : Char) (replacement text : List Char) :
    replaceFrom [c] replacement 0 text
      = text.flatMap fun d => if d = c then replacement else [d] := by
  induction text with
  | nil => rfl
  | cons d rest ih =>
    rw [List.flatMap_cons, ← ih]
    by_cases hd : d = c
    · simp [replaceFrom, afterPhrase, hd]
    · simp [replaceFrom, afterPhrase, hd, Ne.symm hd]

/-- The text with every occurrence of a non-empty `pattern` replaced, from
left to right. -/
def replaceAll (pattern replacement text : String) : String :=
  String.ofList (replaceFrom pattern.toList replacement.toList 0 text.toList)

end TreeSchema.Text
