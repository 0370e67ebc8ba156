import Stylebook.Text.Blank

/-!
# TOML data

The data of a TOML document. A table remembers how it was written, because
that decides what may be added to it later. Every item knows the place that
it was read from, so that a complaint about it can point there.
-/

namespace Stylebook.Toml

/-- **A place in a document**: the number of characters before it, and its
length in bytes. -/
structure Place where
  start : Nat
  length : Nat
  deriving DecidableEq, Repr, Inhabited

/-- **How a table was written.** -/
inductive TableKind where
  /-- Under a header of its own. -/
  | headed
  /-- As a part of the name in the header of another table. -/
  | implied
  /-- As a part of a dotted key. -/
  | dotted
  /-- In curly brackets. Nothing can be added to it. -/
  | inlined
  deriving DecidableEq, Repr

/-- **An item of a document.** -/
inductive Item where
  | str (place : Place) (text : String)
  | int (place : Place) (value : Int)
  /-- A floating-point number, spelled without an exponent. -/
  | float (place : Place) (text : String)
  | bool (place : Place) (value : Bool)
  /-- A date, a time or both. -/
  | date (place : Place)
  | array (place : Place) (elements : List Item)
  | table (place : Place) (kind : TableKind) (entries : List (String × Item))
  /-- The tables under headers in double brackets. -/
  | tables (place : Place) (elements : List (List (String × Item)))
  deriving Repr, Inhabited

/-- The entries of a table, in order. -/
abbrev Entries := List (String × Item)

namespace Item

/-- The place of an item. -/
def place : Item → Place
  | .str p _ => p
  | .int p _ => p
  | .float p _ => p
  | .bool p _ => p
  | .date p => p
  | .array p _ => p
  | .table p _ _ => p
  | .tables p _ => p

/-- The word for a kind of item. -/
def kindName : Item → String
  | .str .. => "string"
  | .int .. => "integer"
  | .float .. => "float"
  | .bool .. => "boolean"
  | .date .. => "datetime"
  | .array .. => "array"
  | .table .. => "inline table"
  | .tables .. => "array"

end Item

/-- **A complaint about a document.** -/
structure Problem where
  place : Place
  message : String
  deriving DecidableEq, Repr

namespace Problem

/-- The number of a line and of a column, both from zero, and the line, for
a place in a text. Behind the end, the last character is where counting
starts. -/
def locate (text : List Char) (start : Nat) : Nat × Nat × List Char :=
  let safe := min start (text.length - 1)
  let before := text.take safe
  let line := before.count '\n'
  let column := (before.reverse.takeWhile (· ≠ '\n')).length + (start - safe)
  let lineStart := safe - (before.reverse.takeWhile (· ≠ '\n')).length
  (line, column, (text.drop lineStart).takeWhile (· ≠ '\n'))

/-- **A complaint with the line that it points at.** -/
def render (text : String) (p : Problem) : String :=
  let (line, column, content) := locate text.toList p.place.start
  let number := toString (line + 1)
  let gutter := String.ofList (List.replicate (number.length + 1) ' ')
  let carets := max 1 (min p.place.length (Text.byteLength content))
  "TOML parse error at line " ++ number ++ ", column " ++ toString (column + 1) ++ "\n" ++
    gutter ++ "|\n" ++ number ++ " | " ++ String.ofList content ++ "\n" ++
    gutter ++ "|" ++ String.ofList (List.replicate (column + 1) ' ') ++
    String.ofList (List.replicate carets '^') ++ "\n" ++ p.message ++ "\n"

end Problem

end Stylebook.Toml
