/-!
# Edit distance

The edit distance of two lists is the least number of insertions, deletions
and substitutions of one element that turn one into the other. It is
computed row by row: for each front of the first list, one row holds the
distances to all fronts of the second.
-/

namespace Stylebook.Text

variable {α : Type} [DecidableEq α]

/-- The row after `left`, from the second entry on. `diagonal` is the entry
of the row before to the upper left, `before` the entry to the left in the
new row, and `row` what remains of the row before, above. -/
def nextRow (left : α) : (diagonal before : Nat) → (right : List α) → (row : List Nat) → List Nat
  | diagonal, before, b :: bs, above :: row =>
    let substitution := diagonal + if left = b then 0 else 1
    let here := min (min substitution (before + 1)) (above + 1)
    here :: nextRow left above here bs row
  | _, _, _, _ => []

/-- The row after one more element of the first list. -/
def stepRow (right : List α) (row : List Nat) (left : α) : List Nat :=
  match row with
  | first :: rest => (first + 1) :: nextRow left first (first + 1) right rest
  | [] => []

/-- The row of the empty list: as many insertions as there are elements. -/
def firstRow (right : List α) : List Nat := List.range (right.length + 1)

/-- **The edit distance of two lists.** -/
def editDistance (a b : List α) : Nat :=
  ((a.foldl (stepRow b) (firstRow b)).getLast?).getD 0

end Stylebook.Text
