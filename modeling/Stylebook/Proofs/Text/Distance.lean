import Mathlib.Data.List.Infix
import Mathlib.Order.Bounds.Basic
import Mathlib.Order.MinMax
import Stylebook.Text.Distance

/-!
# The edit distance counts edits

The edit distance is computed row by row. What it means is
`isLeast_editDistance`: it is the least number of edits that turn one list
into the other, where an edit inserts, deletes or substitutes one element at
any place.

Between the two stands the recursion `levenshtein`, which takes both lists
apart from the front. Each of its three branches ends in one edit at most,
so that many are enough; and one more edit of the second list adds at most
one to it, so fewer are not. The rows take the lists apart from the back.
Edits can be done in a mirror, so the recursion holds there too
(`levenshtein_append_singleton`), and it says what happens in one column of
a row. While a row is rebuilt, its entries up to the column belong to the
new row and those behind it to the row before (`nextRow_distances`); once it
is done, it holds the distances of one more front (`foldl_stepRow`).
-/

namespace Stylebook.Text

variable {α : Type} {a b l m : List α} {n : Nat}

/-! ### Edits

An edit may be made anywhere, and edits may undo each other. So that there
is a least number of them says something; it does not say how to find it. -/

/-- **One edit of a list**: one element more, one less, or another one in
its place. -/
inductive Edited : List α → List α → Prop
  | insert (x : α) (front rest : List α) : Edited (front ++ rest) (front ++ x :: rest)
  | delete (x : α) (front rest : List α) : Edited (front ++ x :: rest) (front ++ rest)
  | substitute (x y : α) (front rest : List α) : Edited (front ++ x :: rest) (front ++ y :: rest)

/-- **So many edits**, one after the other. -/
inductive EditedIn : Nat → List α → List α → Prop
  | refl (l : List α) : EditedIn 0 l l
  | tail {n : Nat} {k l m : List α} : EditedIn n k l → Edited l m → EditedIn (n + 1) k m

/-- Edits may be made behind an element, -/
theorem Edited.cons (x : α) (h : Edited l m) : Edited (x :: l) (x :: m) := by
  cases h with
  | insert y front rest => exact .insert y (x :: front) rest
  | delete y front rest => exact .delete y (x :: front) rest
  | substitute y z front rest => exact .substitute y z (x :: front) rest

/-- An edit seen in a mirror. -/
theorem Edited.reverse (h : Edited l m) : Edited l.reverse m.reverse := by
  cases h with
  | insert x front rest => simpa using Edited.insert x rest.reverse front.reverse
  | delete x front rest => simpa using Edited.delete x rest.reverse front.reverse
  | substitute x y front rest => simpa using Edited.substitute x y rest.reverse front.reverse

namespace EditedIn

/-- What keeps one edit keeps any number of them. -/
theorem map {f : List α → List α} (hf : ∀ l m, Edited l m → Edited (f l) (f m))
    (h : EditedIn n l m) : EditedIn n (f l) (f m) := by
  induction h with
  | refl l => exact .refl (f l)
  | @tail n k l m _ hedit ih => exact .tail ih (hf l m hedit)

/-- An element may be put in front of both lists. -/
theorem cons (x : α) (h : EditedIn n l m) : EditedIn n (x :: l) (x :: m) :=
  h.map fun _ _ hedit => hedit.cons x

/-- The same number of edits leads from mirror to mirror. -/
theorem reverse (h : EditedIn n l m) : EditedIn n l.reverse m.reverse :=
  h.map fun _ _ hedit => hedit.reverse

/-- An element may be put in front with one edit more. -/
theorem insert (x : α) (h : EditedIn n l m) : EditedIn (n + 1) l (x :: m) :=
  .tail h (.insert x [] m)

/-- An element may be taken away at the front with one edit more. -/
theorem delete (x : α) (h : EditedIn n l m) : EditedIn (n + 1) (x :: l) m :=
  .tail (h.cons x) (.delete x [] m)

/-- An element at the front may be exchanged with one edit more. -/
theorem substitute (x y : α) (h : EditedIn n l m) : EditedIn (n + 1) (x :: l) (y :: m) :=
  .tail (h.cons x) (.substitute x y [] m)

/-- Of two numbers of edits that do, the smaller one does. -/
theorem min {n' : Nat} (h : EditedIn n l m) (h' : EditedIn n' l m) :
    EditedIn (Min.min n n') l m :=
  min_rec' (fun i => EditedIn i l m) h h'

/-- Without an edit nothing changes. -/
theorem eq_of_zero (h : EditedIn 0 l m) : l = m := by
  cases h
  rfl

/-- A list can be built from nothing, one element at a time. -/
theorem of_nil (l : List α) : EditedIn l.length [] l := by
  induction l with
  | nil => exact .refl []
  | cons x l ih => exact ih.insert x

/-- A list can be taken down to nothing, one element at a time. -/
theorem to_nil (l : List α) : EditedIn l.length l [] := by
  induction l with
  | nil => exact .refl []
  | cons x l ih => exact ih.delete x

end EditedIn

/-! ### The recursion from the front

The recursion only ever edits at the front, and never an element twice. That
this loses nothing is what is to be shown. -/

variable [DecidableEq α]

/-- **The edit distance by recursion**: the first elements are put together,
or the first one of either list has no partner. -/
def levenshtein : List α → List α → Nat
  | [], b => b.length
  | x :: a, [] => a.length + 1
  | x :: a, y :: b =>
    min (min (levenshtein a b + if x = y then 0 else 1) (levenshtein (x :: a) b + 1))
      (levenshtein a (y :: b) + 1)
termination_by a b => a.length + b.length

@[simp] theorem levenshtein_nil_left (b : List α) : levenshtein [] b = b.length := by
  rw [levenshtein]

@[simp] theorem levenshtein_nil_right (a : List α) : levenshtein a [] = a.length := by
  cases a with
  | nil => rw [levenshtein]
  | cons x a => rw [levenshtein, List.length_cons]

/-- The three ways to go on. -/
theorem levenshtein_cons_cons (x y : α) (a b : List α) :
    levenshtein (x :: a) (y :: b)
      = min (min (levenshtein a b + if x = y then 0 else 1) (levenshtein (x :: a) b + 1))
        (levenshtein a (y :: b) + 1) := by
  rw [levenshtein]

/-- A list is at no distance from itself. -/
theorem levenshtein_self (a : List α) : levenshtein a a = 0 := by
  induction a with
  | nil => rw [levenshtein_nil_left, List.length_nil]
  | cons x a ih => rw [levenshtein_cons_cons, ih, if_pos rfl, Nat.zero_min, Nat.zero_min]

/-- The recursion does not tell its two lists apart: deleting from the one
is inserting into the other. -/
theorem levenshtein_comm (a b : List α) : levenshtein a b = levenshtein b a := by
  induction a, b using levenshtein.induct with
  | case1 b => rw [levenshtein_nil_left, levenshtein_nil_right]
  | case2 x a => rw [levenshtein_nil_left, levenshtein_nil_right]
  | case3 x a y b ih ihleft ihright =>
    have hcost : (if x = y then 0 else 1) = if y = x then 0 else 1 := if_congr eq_comm rfl rfl
    rw [levenshtein_cons_cons, levenshtein_cons_cons, ih, ihleft, ihright, hcost, min_right_comm]

/-! ### So many edits are enough

Each branch of the recursion is an edit at the front, or none, before the
edits of what is left. -/

/-- **As many edits as the recursion counts turn one list into the other.** -/
theorem editedIn_levenshtein (a b : List α) : EditedIn (levenshtein a b) a b := by
  induction a, b using levenshtein.induct with
  | case1 b => rw [levenshtein_nil_left]; exact EditedIn.of_nil b
  | case2 x a => rw [levenshtein_nil_right]; exact EditedIn.to_nil (x :: a)
  | case3 x a y b ih ihleft ihright =>
    have hpair : EditedIn (levenshtein a b + if x = y then 0 else 1) (x :: a) (y :: b) := by
      split
      · next heq => exact heq ▸ ih.cons x
      · exact ih.substitute x y
    rw [levenshtein_cons_cons]
    exact (hpair.min (ihleft.insert y)).min (ihright.delete x)

/-! ### Fewer edits are not

Here edits at any place have to be dealt with. One edit anywhere changes the
count by one at most, wherever it is measured from. So after `n` of them it
has not become more than `n`. -/

/-- One element more adds at most one. -/
theorem levenshtein_cons_right_le (y : α) (a b : List α) :
    levenshtein a (y :: b) ≤ levenshtein a b + 1 := by
  cases a with
  | nil => simp
  | cons x a =>
    rw [levenshtein_cons_cons]
    omega

/-- So it is on the other side. -/
theorem levenshtein_cons_left_le (x : α) (a b : List α) :
    levenshtein (x :: a) b ≤ levenshtein a b + 1 := by
  rw [levenshtein_comm, levenshtein_comm a]
  exact levenshtein_cons_right_le x b a

/-- One element less adds at most one. -/
theorem levenshtein_le_cons_right (y : α) (a b : List α) :
    levenshtein a b ≤ levenshtein a (y :: b) + 1 := by
  induction a with
  | nil =>
    rw [levenshtein_nil_left, levenshtein_nil_left, List.length_cons]
    omega
  | cons x a ih =>
    have hleft := levenshtein_cons_left_le x a b
    rw [levenshtein_cons_cons]
    omega

/-- Another element in its place adds at most one. -/
theorem levenshtein_cons_le_cons (y z : α) (a b : List α) :
    levenshtein a (z :: b) ≤ levenshtein a (y :: b) + 1 := by
  induction a with
  | nil => simp
  | cons x a ih =>
    rw [levenshtein_cons_cons, levenshtein_cons_cons]
    split <;> split <;> omega

/-- If, from wherever it is measured, one list is at most one edit farther
than another one, then so it is with the same front on both. -/
theorem levenshtein_append_le (h : ∀ a : List α, levenshtein a m ≤ levenshtein a l + 1)
    (front a : List α) : levenshtein a (front ++ m) ≤ levenshtein a (front ++ l) + 1 := by
  induction front generalizing a with
  | nil => exact h a
  | cons y front ihfront =>
    -- The third branch keeps the front and shortens `a`, so it takes an induction of its own.
    induction a with
    | nil => simpa using ihfront []
    | cons x a ih =>
      have hpair := ihfront a
      have hleft := ihfront (x :: a)
      rw [List.cons_append, List.cons_append] at *
      rw [levenshtein_cons_cons, levenshtein_cons_cons]
      omega

/-- **One edit adds at most one.** -/
theorem Edited.levenshtein_le (h : Edited l m) (a : List α) :
    levenshtein a m ≤ levenshtein a l + 1 := by
  cases h with
  | insert x front rest =>
    exact levenshtein_append_le (fun a => levenshtein_cons_right_le x a rest) front a
  | delete x front rest =>
    exact levenshtein_append_le (fun a => levenshtein_le_cons_right x a rest) front a
  | substitute x y front rest =>
    exact levenshtein_append_le (fun a => levenshtein_cons_le_cons x y a rest) front a

/-- **No fewer edits than the recursion counts turn one list into the
other.** Start where the count is zero, at the list itself, and add one for
each edit. -/
theorem EditedIn.levenshtein_le (h : EditedIn n l m) : levenshtein l m ≤ n := by
  induction h with
  | refl l => exact (levenshtein_self l).le
  | @tail n k l m _ hedit ih => exact (hedit.levenshtein_le k).trans (Nat.succ_le_succ ih)

/-- **The recursion counts the fewest edits.** -/
theorem isLeast_levenshtein (a b : List α) : IsLeast {n | EditedIn n a b} (levenshtein a b) :=
  ⟨editedIn_levenshtein a b, fun _ h => EditedIn.levenshtein_le h⟩

/-- The count is zero for equal lists only. -/
theorem levenshtein_eq_zero_iff : levenshtein a b = 0 ↔ a = b := by
  refine ⟨fun h => ?_, fun h => h ▸ levenshtein_self a⟩
  have hedits := editedIn_levenshtein a b
  rw [h] at hedits
  exact hedits.eq_of_zero

/-! ### The recursion from the back

The program goes along its lists from front to back, so each row adds an
element at the end of one list, and each column one at the end of the other.
Its recursion is the mirror of the one above. That both count the same is
seen from what they count. -/

/-- In a mirror there are as many edits. -/
theorem levenshtein_reverse (a b : List α) : levenshtein a.reverse b.reverse = levenshtein a b := by
  refine Nat.le_antisymm (editedIn_levenshtein a b).reverse.levenshtein_le ?_
  have hedits := (editedIn_levenshtein a.reverse b.reverse).reverse
  rw [List.reverse_reverse, List.reverse_reverse] at hedits
  exact hedits.levenshtein_le

/-- **The recursion from the back**: the last elements are put together, or
the last one of either list has no partner. -/
theorem levenshtein_append_singleton (x y : α) (a b : List α) :
    levenshtein (a ++ [x]) (b ++ [y])
      = min (min (levenshtein a b + if x = y then 0 else 1) (levenshtein (a ++ [x]) b + 1))
        (levenshtein a (b ++ [y]) + 1) := by
  rw [← levenshtein_reverse, ← levenshtein_reverse a, ← levenshtein_reverse (a ++ [x]) b,
    ← levenshtein_reverse a (b ++ [y]), List.reverse_concat, List.reverse_concat,
    levenshtein_cons_cons]

/-! ### The rows

Only one row is kept, and it is written over from left to right. So in the
middle of a row there are two kinds of entries, with the one at their border
kept aside. -/

/-- **The distances of a list** to another one, `front`, and to what this
becomes with each front of `more` behind it. -/
def distances (a front more : List α) : List Nat :=
  more.inits.map fun m => levenshtein a (front ++ m)

/-- Without more there is one distance. -/
theorem distances_nil (a front : List α) : distances a front [] = [levenshtein a front] := by
  simp [distances]

/-- With one more element there is one distance more. -/
theorem distances_cons (a front : List α) (y : α) (more : List α) :
    distances a front (y :: more) = levenshtein a front :: distances a (front ++ [y]) more := by
  simp [distances, Function.comp_def]

/-- The first one is the distance to the list without more. -/
theorem distances_eq_cons (a front more : List α) :
    distances a front more = levenshtein a front :: (distances a front more).tail := by
  cases more with
  | nil => rw [distances_nil, List.tail_cons]
  | cons y more => rw [distances_cons, List.tail_cons]

/-- The last one is the distance to the list with all of it. -/
theorem getLast?_distances (a front more : List α) :
    (distances a front more).getLast? = some (levenshtein a (front ++ more)) := by
  induction more generalizing front with
  | nil => rw [distances_nil, List.append_nil, List.getLast?_singleton]
  | cons y more ih =>
    rw [distances_cons, List.getLast?_cons, ih, List.append_assoc, List.singleton_append,
      Option.getD_some]

/-- The first row has the distances of the empty list. -/
theorem firstRow_eq (right : List α) : firstRow right = distances [] [] right := by
  -- The number of the first column grows with what stands in front of the list.
  suffices h : ∀ front : List α,
      List.range' front.length (right.length + 1) = distances [] front right by
    rw [firstRow, List.range_eq_range', ← h, List.length_nil]
  induction right with
  | nil =>
    intro front
    rw [distances_nil, levenshtein_nil_left]
    rfl
  | cons y right ih =>
    intro front
    rw [distances_cons, levenshtein_nil_left, ← ih, List.length_append, List.length_singleton]
    rfl

/-- **What is written behind a column of a row.** To its left stands the new
row, above it and to the right of it the row before, and the entry to its
upper left is kept. -/
theorem nextRow_distances (x : α) (a front right : List α) :
    nextRow x (levenshtein a front) (levenshtein (a ++ [x]) front) right
        (distances a front right).tail
      = (distances (a ++ [x]) front right).tail := by
  induction right generalizing front with
  | nil =>
    rw [distances_nil, distances_nil, List.tail_cons, List.tail_cons, nextRow]
    simp
  | cons y right ih =>
    -- The entry above becomes the one to the upper left of the next column.
    rw [distances_cons, distances_cons, List.tail_cons, List.tail_cons,
      distances_eq_cons a (front ++ [y]), nextRow, ← levenshtein_append_singleton, ih,
      ← distances_eq_cons]

/-- **A row after one more element**: all distances of the longer front. -/
theorem stepRow_distances (a right : List α) (x : α) :
    stepRow right (distances a [] right) x = distances (a ++ [x]) [] right := by
  have hfirst : levenshtein a [] + 1 = levenshtein (a ++ [x]) [] := by simp
  rw [distances_eq_cons a, stepRow, hfirst, nextRow_distances, ← distances_eq_cons]

/-- **The row of a list** has its distances to all fronts of the other one. -/
theorem foldl_stepRow (a right : List α) :
    a.foldl (stepRow right) (firstRow right) = distances a [] right := by
  induction a using List.reverseRecOn with
  | nil => exact firstRow_eq right
  | append_singleton a x ih =>
    rw [List.foldl_append, ih, List.foldl_cons, List.foldl_nil, stepRow_distances]

/-! ### The edit distance

The last entry of the last row is the distance of both lists, and so it
inherits what was shown of the recursion. -/

/-- **The edit distance computed by rows is the one by recursion.** -/
theorem editDistance_eq_levenshtein (a b : List α) : editDistance a b = levenshtein a b := by
  rw [editDistance, foldl_stepRow, getLast?_distances, List.nil_append, Option.getD_some]

/-- **The edit distance is the least number of edits that turn one list into
the other.** -/
theorem isLeast_editDistance (a b : List α) : IsLeast {n | EditedIn n a b} (editDistance a b) := by
  rw [editDistance_eq_levenshtein]
  exact isLeast_levenshtein a b

/-- The distance is the same in both directions. -/
theorem editDistance_comm (a b : List α) : editDistance a b = editDistance b a := by
  rw [editDistance_eq_levenshtein, editDistance_eq_levenshtein, levenshtein_comm]

/-- The distance is zero for equal lists only. -/
theorem editDistance_eq_zero_iff : editDistance a b = 0 ↔ a = b := by
  rw [editDistance_eq_levenshtein, levenshtein_eq_zero_iff]

end Stylebook.Text
