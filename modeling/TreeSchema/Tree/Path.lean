import TreeSchema.Text.Split
/-
  Paths

  Where an element stands in a document: a slash for the root, and below it
  the keys and indices that lead to the element, each after a slash. Inside
  a segment, `~0` stands for a tilde and `~1` for a slash.
-/

namespace TreeSchema.Path

def root : String := "/"

/-- A segment without slashes. The tildes come first, since those that stand
for a slash are not to be escaped again. -/
def escapeSegment (segment : String) : String :=
  Text.replaceAll "/" "~1" (Text.replaceAll "~" "~0" segment)

/-- How a character stands in an escaped segment. -/
def escapeChar (c : Char) : List Char :=
  if c = '~' then ['~', '0'] else if c = '/' then ['~', '1'] else [c]

/-- The slashes that the second replacement finds are those of the segment,
for the first one brings in none. -/
theorem toList_escapeSegment (segment : String) :
    (escapeSegment segment).toList = segment.toList.flatMap escapeChar := by
  rw [escapeSegment, Text.replaceAll, Text.replaceAll,
    String.toList_ofList (l := Text.replaceFrom _ _ _ _),
    String.toList_ofList (l := Text.replaceFrom _ _ _ _)]
  show Text.replaceFrom ['/'] ['~', '1'] 0 (Text.replaceFrom ['~'] ['~', '0'] 0 _) = _
  rw [Text.replaceFrom_singleton, Text.replaceFrom_singleton, List.flatMap_assoc]
  congr 1
  funext c
  unfold escapeChar
  by_cases htilde : c = '~'
  · simp [htilde]
  · simp [htilde]

/-- The path of the element under `segment` of the element at `parent`. -/
def child (parent segment : String) : String :=
  if parent = root then "/" ++ escapeSegment segment
  else parent ++ "/" ++ escapeSegment segment

end TreeSchema.Path
