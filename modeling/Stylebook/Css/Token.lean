/-!
# Tokens of a stylesheet

The tokens are those of CSS Syntax Level 3. A `Token` keeps what the rest of
the library asks of it – names and strings with their escapes undone – and
drops numeric values, because numbers are carried as they are written. A
`Lexeme` is a token together with the text it was read from, so that the
lexemes of a stylesheet concatenate to the stylesheet.
-/

namespace Stylebook.Css

/-- The three kinds of bracket that enclose a block. -/
inductive Bracket where
  | paren
  | square
  | curly
  deriving DecidableEq, Repr

/-- **A token of the stylesheet grammar.** -/
inductive Token where
  /-- An identifier, escapes undone. -/
  | ident (name : String)
  /-- A name after `@`. -/
  | atKeyword (name : String)
  /-- A name after `#`. -/
  | hash (name : String)
  /-- A quoted string, without its quotes and with its escapes undone. -/
  | str (text : String)
  /-- A string that a line break cut off. -/
  | badStr
  /-- The address of an unquoted `url(…)`. -/
  | url (address : String)
  /-- An unquoted `url(…)` with a character that may not stand in one. -/
  | badUrl
  /-- A name directly followed by `(`. -/
  | function (name : String)
  | number
  | percentage
  /-- A number directly followed by a unit. -/
  | dimension (unit : String)
  | blank
  | comment
  | colon
  | semicolon
  | comma
  /-- A comment mark `<!--` or `-->` of an embedding document. -/
  | embedMark
  /-- One of `~=`, `|=`, `^=`, `$=`, `*=`. -/
  | attributeMatch
  | opening (bracket : Bracket)
  | closing (bracket : Bracket)
  /-- Any other character. -/
  | delim (char : Char)
  deriving DecidableEq, Repr

namespace Token

/-- The bracket that a token opens; a function opens a parenthesis. -/
def opens : Token → Option Bracket
  | .opening b => some b
  | .function _ => some .paren
  | _ => none

end Token

/-- **A token with the text it was read from.** -/
structure Lexeme where
  token : Token
  text : List Char
  deriving DecidableEq, Repr

end Stylebook.Css
