import Stylebook.Import.Statement

/-!
# Statements by the places of their bytes

`replaceAll` reads characters. A text that is stored in bytes is searched by
numbers instead: the keyword is looked up first, each place of it is tried
in order, and what is found is the byte at which a statement starts, with
the white space in front of it, and the byte behind it. The text is then put
together again from the slices between the statements.

Three things can go wrong with numbers that cannot go wrong with characters.
A slice that does not start and end between two characters is no text at
all, so every slice may fail here (`slice?`). The keyword can stand inside a
statement that was found already, when the target holds it; such a place is
passed over, because it lies before the *floor*, the end of the statement
before. And the white space in front of a statement is counted backwards,
where the floor is what keeps it from running into the statement before.
-/

namespace Stylebook.Import

open Text (isBlank dropFront?)

/-- **The text between two bytes.** There is one only if both stand between
characters and in order: a byte in the middle of a character, one behind
the end and two in the wrong order have no text. -/
def slice? (text : String) (start stop : Nat) : Option String :=
  if start ≤ stop ∧ String.Pos.Raw.IsValid text ⟨start⟩ ∧ String.Pos.Raw.IsValid text ⟨stop⟩ then
    some (String.Pos.Raw.extract text ⟨start⟩ ⟨stop⟩)
  else none

/-- The bytes at which the keyword stands in a text, where `start` bytes
stand before the text. The search for the next one goes on behind the
keyword. -/
def keywordsFrom (start : Nat) : List Char → List Nat
  | [] => []
  | c :: cs =>
    match h : dropFront? keyword (c :: cs) with
    | some rest =>
      have : rest.length < (c :: cs).length := by
        rw [Text.append_of_dropFront? h]
        simp only [keyword, List.length_append, List.length_cons, List.length_nil]
        omega
      start :: keywordsFrom (start + (String.ofList keyword).utf8ByteSize) rest
    | none => keywordsFrom (start + c.utf8Size) cs
termination_by cs => cs.length
decreasing_by
  · exact this
  · exact Nat.lt_succ_self _

/-- **The byte behind a statement** whose keyword ends at the byte `start`:
white space, the quoted target, white space and a semicolon follow it. The
outer option is empty when the slice fails, the inner one when no statement
stands there. -/
def endAfterKeyword? (target : List Char) (text : String) (start : Nat) : Option (Option Nat) := do
  let rest ← slice? text start text.utf8ByteSize
  let trimmed := rest.toList.dropWhile isBlank
  if (String.ofList trimmed).utf8ByteSize = rest.utf8ByteSize then
    return none
  match trimmed with
  | [] => return none
  | quote :: after =>
    if quote = '"' ∨ quote = '\'' then
      return (afterQuote? quote target after).map fun left =>
        text.utf8ByteSize - (String.ofList left).utf8ByteSize
    else return none

/-- **The statements at given places of the keyword**, each with the white
space in front of it, as the bytes at which it starts and ends. Places
before the floor lie in a statement that was found before and are passed
over. -/
def findFrom (target : List Char) (text : String) (floor : Nat) :
    List Nat → Option (List (Nat × Nat))
  | [] => some []
  | place :: places =>
    if place < floor then findFrom target text floor places
    else do
      let found ← endAfterKeyword? target text (place + (String.ofList keyword).utf8ByteSize)
      match found with
      | none => findFrom target text floor places
      | some stop =>
        let before ← slice? text floor place
        let leading := before.toList.reverse.takeWhile isBlank
        let others ← findFrom target text stop places
        return (place - (String.ofList leading).utf8ByteSize, stop) :: others

/-- The bytes of all statements of a target in a text. -/
def findAll (target : List Char) (text : String) : Option (List (Nat × Nat)) :=
  findFrom target text 0 (keywordsFrom 0 text.toList)

/-- The text from a byte on, with a replacement in the place of each range. -/
def copyAround (text replacement : String) (last : Nat) : List (Nat × Nat) → Option String
  | [] => slice? text last text.utf8ByteSize
  | (start, stop) :: ranges => do
    let kept ← slice? text last start
    let others ← copyAround text replacement stop ranges
    return kept ++ replacement ++ others

/-- **A text with every statement of a target replaced**, found and copied
by bytes. Without a statement the text is not copied. -/
def replaceBytes (target : List Char) (text replacement : String) : Option String := do
  let ranges ← findAll target text
  if ranges.isEmpty then return text
  copyAround text replacement 0 ranges

end Stylebook.Import
