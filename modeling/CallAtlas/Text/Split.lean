/-!
# Splitting a text at a character

## Main definitions

* `Text.split`: the parts between the separators, empty ones included, so that a text with `n`
  separators has `n + 1` parts.

## Main results

* `Text.split_of_notMem`, `Text.split_append`: a text without separators, and splitting at a
  separator.
-/

namespace CallAtlas.Text

/-- The parts of a text between occurrences of `sep`; there is always at least one. -/
def split (sep : Char) (s : String) : List String :=
  (s.toList.splitOn sep).map String.ofList

theorem split_ne_nil (sep : Char) (s : String) : split sep s ≠ [] := by
  simp [split]

/-- A text without separators is one part. -/
theorem split_of_notMem {sep : Char} {s : String} (h : sep ∉ s.toList) : split sep s = [s] := by
  rw [split, List.splitOn_eq_singleton h, List.map_singleton, String.ofList_toList]

/-- A separator divides the parts before it from the parts after it. -/
theorem split_append {sep : Char} {s before after : String}
    (h : s.toList = before.toList ++ sep :: after.toList) :
    split sep s = split sep before ++ split sep after := by
  rw [split, h, List.splitOn_append_cons_self, List.map_append]
  rfl

end CallAtlas.Text
