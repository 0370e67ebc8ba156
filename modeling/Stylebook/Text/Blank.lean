/-!
# White space and letter case

Two classes of white space meet in this library. The one of this module is
the `White_Space` property of Unicode: values, selectors and import
statements are trimmed and cut into words by it. The narrower class of the
stylesheet grammar lives with the lexer (`Stylebook.Css.isSpace`).

Letter case is folded for ASCII letters only, as stylesheet keywords and
units ask for.
-/

namespace Stylebook.Text

/-- **The `White_Space` property of Unicode.** -/
def isBlank (c : Char) : Bool :=
  let n := c.toNat
  (0x09 ≤ n && n ≤ 0x0D) || n == 0x20 || n == 0x85 || n == 0xA0 || n == 0x1680 ||
    (0x2000 ≤ n && n ≤ 0x200A) || n == 0x2028 || n == 0x2029 || n == 0x202F ||
    n == 0x205F || n == 0x3000

/-- The characters without the blank ones in front. -/
def trimLeft (cs : List Char) : List Char := cs.dropWhile isBlank

/-- The characters without the blank ones at the end. -/
def trimRight (cs : List Char) : List Char := (cs.reverse.dropWhile isBlank).reverse

/-- The characters without the blank ones at either end. -/
def trimChars (cs : List Char) : List Char := trimRight (trimLeft cs)

/-- A text without the white space at either end. -/
def trim (s : String) : String := String.ofList (trimChars s.toList)

/-- **The words of a text**: its maximal runs of characters that are not
blank. -/
def wordChars : List Char → List (List Char)
  | [] => []
  | c :: cs =>
    if isBlank c then wordChars cs
    else
      match cs, wordChars cs with
      | d :: _, w :: ws => if isBlank d then [c] :: w :: ws else (c :: w) :: ws
      | _, ws => [c] :: ws

/-- The words of a text, as texts. -/
def words (s : String) : List String := (wordChars s.toList).map String.ofList

/-- A text with its ASCII capitals made small. -/
def lower (s : String) : String := String.ofList (s.toList.map Char.toLower)

/-- Whether two texts differ in the case of ASCII letters only. -/
def sameIgnoringCase (s t : String) : Bool := lower s == lower t

/-- The texts joined with a separator between neighbours. -/
def join (separator : String) (parts : List String) : String := separator.intercalate parts

/-- What is left of `cs` once `front` is taken off its front, if it starts
so. -/
def dropFront? : (front cs : List Char) → Option (List Char)
  | [], cs => some cs
  | _ :: _, [] => none
  | f :: fs, c :: cs => if f = c then dropFront? fs cs else none

/-- What follows a front that is taken off, with the front, is the whole. -/
theorem append_of_dropFront? {front cs rest : List Char} (h : dropFront? front cs = some rest) :
    cs = front ++ rest := by
  induction front generalizing cs with
  | nil => simpa [dropFront?] using h
  | cons f fs ih =>
    cases cs with
    | nil => simp [dropFront?] at h
    | cons c cs =>
      by_cases hc : f = c
      · simp only [dropFront?, hc, if_true] at h
        simp [hc, ih h]
      · simp [dropFront?, hc] at h

/-- A front that was put on can be taken off. -/
theorem dropFront?_append (front rest : List Char) :
    dropFront? front (front ++ rest) = some rest := by
  induction front with
  | nil => rfl
  | cons f fs ih => simp [dropFront?, ih]

/-- Whether `part` stands somewhere in `cs`. -/
def hasInfix (part : List Char) : List Char → Bool
  | [] => part.isEmpty
  | c :: cs => (dropFront? part (c :: cs)).isSome || hasInfix part cs

/-- The number of bytes of the characters in UTF-8. -/
def byteLength (cs : List Char) : Nat := (cs.map Char.utf8Size).foldr (· + ·) 0

end Stylebook.Text
