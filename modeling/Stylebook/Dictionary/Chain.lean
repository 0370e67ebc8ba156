import Stylebook.Text.Blank

/-!
# Selector chains

A selector is a chain of compounds with white space between them, the
outermost first. The order of the classes in a compound does not matter, so
a chain is brought into a canonical form: the classes of each compound are
sorted.
-/

namespace Stylebook.Chain

/-- Cuts a list at each point. -/
def splitAtPoints : List Char → List (List Char)
  | [] => [[]]
  | c :: cs =>
    if c = '.' then [] :: splitAtPoints cs
    else
      match splitAtPoints cs with
      | first :: rest => (c :: first) :: rest
      | [] => [[c]]

/-- The order of names by their characters. -/
def nameLe (s t : List Char) : Bool := (compare (String.ofList s) (String.ofList t)).isLE

/-- A compound with its classes in order. -/
def sortChars (compound : List Char) : List Char :=
  let element := compound.takeWhile (· ≠ '.')
  let names := (splitAtPoints (compound.dropWhile (· ≠ '.'))).filter (!·.isEmpty)
  if names.length < 2 then compound
  else element ++ (names.mergeSort nameLe).flatMap ('.' :: ·)

/-- **A compound with its classes in order.** An element name stays in
front. With fewer than two class names there is nothing to sort, and the
compound stays as it is written. -/
def sortCompound (compound : String) : String := String.ofList (sortChars compound.toList)

/-- **The compounds of a selector**, outermost first, each in canonical
form. -/
def ofSelector (selector : String) : List String := (Text.words selector).map sortCompound

end Stylebook.Chain
