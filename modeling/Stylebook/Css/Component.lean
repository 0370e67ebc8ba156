import Stylebook.Css.Lexer

/-!
# Component values

Between the lexemes and the rules of a stylesheet stands the tree of its
blocks: a `Component` is a lexeme by itself, or a block with everything
between its bracket and the bracket that closes it. A block is closed only
by its own kind of bracket. Any other closing bracket inside it is an
ordinary lexeme, and the end of the text closes every block that is
still open.

With the blocks in place, each further reading of a stylesheet is a function
on a list of components: what stands inside brackets is out of its way.
-/

namespace Stylebook.Css

/-- **A lexeme, or a block.** A block keeps the lexeme that opens it, its
body and the text that closes it, which is empty where the stylesheet ends
first. -/
inductive Component where
  | leaf (lexeme : Lexeme)
  | block (opener : Lexeme) (body : List Component) (closer : List Char)
  deriving Repr

namespace Component

/-- The token that a component starts with. -/
def token : Component → Token
  | .leaf l => l.token
  | .block o _ _ => o.token

mutual
/-- The text that a component was read from. -/
def text : Component → List Char
  | .leaf l => l.text
  | .block o body closer => o.text ++ bodyText body ++ closer

/-- The text that a list of components was read from. -/
def bodyText : List Component → List Char
  | [] => []
  | c :: cs => text c ++ bodyText cs
end

/-- A block that is still open: its opening lexeme, and what stands before
it on its own level, last first. -/
structure Open where
  opener : Lexeme
  before : List Component

/-- Closes a block: it becomes one component of the level around it. -/
def Open.close (o : Open) (body : List Component) (closer : List Char) : List Component :=
  .block o.opener body.reverse closer :: o.before

/-- The level that is left when the text ends with blocks still open. -/
def closeAll (level : List Component) : List Open → List Component
  | [] => level.reverse
  | o :: os => closeAll (o.close level []) os

/-- Whether a token closes the block that a lexeme opened. -/
def closes (t : Token) (opener : Lexeme) : Bool :=
  match t, opener.token.opens with
  | .closing b, some b' => b = b'
  | _, _ => false

/-- The components of lexemes, given the innermost level so far, last
component first, and the blocks around it, innermost first. -/
def nest (level : List Component) : List Open → List Lexeme → List Component
  | os, [] => closeAll level os
  | os, l :: ls =>
    match os with
    | o :: outer =>
      if closes l.token o.opener then nest (o.close level l.text) outer ls
      else if l.token.opens.isSome then nest [] (⟨l, level⟩ :: os) ls
      else nest (.leaf l :: level) os ls
    | [] =>
      if l.token.opens.isSome then nest [] [⟨l, level⟩] ls
      else nest (.leaf l :: level) [] ls

/-- **The components of a list of lexemes.** -/
def ofLexemes (ls : List Lexeme) : List Component := nest [] [] ls

/-- The components of a text. -/
def ofText (cs : List Char) : List Component := ofLexemes (lex cs)

/-- A comment stands between tokens and is not one of them. -/
def isComment (c : Component) : Bool := c.token = .comment

/-- White space or a comment. -/
def isGap (c : Component) : Bool := c.token = .blank || c.isComment

/-- A semicolon outside of every block. -/
def isSemicolon (c : Component) : Bool := c.token = .semicolon

/-- A block in curly brackets. -/
def isCurly (c : Component) : Bool := c.token = .opening .curly

end Component

end Stylebook.Css
