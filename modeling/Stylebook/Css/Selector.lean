import Stylebook.Css.Component

/-!
# Selectors

The prelude of a style rule is a list of selectors with commas between them.
A `Selector` keeps its parts in order. Classes, element names and the white
space of the descendant relationship have a canonical text,
`Selector.canonical?`; a selector with any other part has none, and nothing
is compiled for it.
-/

namespace Stylebook.Css

/-- **A part of a selector.** -/
inductive SelectorPart where
  /-- A class, without its point. -/
  | cls (name : String)
  /-- An element name, or `*`. -/
  | element (name : String)
  /-- What follows `#`. -/
  | id (name : String)
  /-- One of `>`, `+` and `~`. -/
  | combinator (symbol : String)
  /-- White space: the descendant relationship. -/
  | blank
  /-- A part of a kind that is not supported: a point without a name, a
  pseudo-class, an attribute or a function by its opening text, or a token
  that belongs in no selector. -/
  | other (mark : Option String)
  deriving DecidableEq, Repr

/-- **A selector**: the parts of one element of a selector list. -/
structure Selector where
  parts : List SelectorPart
  deriving DecidableEq, Repr

namespace SelectorPart

/-- The part that a token by itself stands for. -/
def ofToken : Token → SelectorPart
  | .blank => .blank
  | .ident n => .element n
  | .hash n => .id n
  | .delim '*' => .element "*"
  | .delim '>' => .combinator ">"
  | .delim '+' => .combinator "+"
  | .delim '~' => .combinator "~"
  | .colon => .other (some ":")
  | .opening .square => .other (some "[")
  | .function n => .other (some (n ++ "("))
  | _ => .other none

/-- The parts that tokens stand for, with `none` for a comma between
selectors. A point takes the token after it along, whatever that is. -/
def ofTokens : List Token → List (Option SelectorPart)
  | [] => []
  | .delim '.' :: .ident n :: ts => some (.cls n) :: ofTokens ts
  | .delim '.' :: _ :: ts => some (.other (some ".")) :: ofTokens ts
  | .delim '.' :: [] => [some (.other (some "."))]
  | .comma :: ts => none :: ofTokens ts
  | t :: ts => some (ofToken t) :: ofTokens ts

/-- The text of a part in a canonical selector, if the part is supported. -/
def canonical? : SelectorPart → Option String
  | .cls n => some ("." ++ n)
  | .element n => some n
  | .blank => some " "
  | _ => none

end SelectorPart

namespace Selector

/-- Parts without the white space that follows white space, when
`afterBlank` says whether white space comes before them. -/
def squeeze (afterBlank : Bool) : List SelectorPart → List SelectorPart
  | [] => []
  | .blank :: ps => if afterBlank then squeeze true ps else .blank :: squeeze true ps
  | p :: ps => p :: squeeze false ps

/-- A selector of parts: white space is left out at either end, and a run of
it counts once. -/
def ofParts (parts : List SelectorPart) : Selector :=
  let squeezed := squeeze true parts
  ⟨if squeezed.getLast? = some .blank then squeezed.dropLast else squeezed⟩

/-- Cuts a list at each `none`. -/
def splitAtNone {α : Type} : List (Option α) → List (List α)
  | [] => [[]]
  | none :: xs => [] :: splitAtNone xs
  | some x :: xs =>
    match splitAtNone xs with
    | first :: rest => (x :: first) :: rest
    | [] => [[x]]

/-- The selectors of a list of tokens without comments. -/
def ofTokens (ts : List Token) : List Selector :=
  (splitAtNone (SelectorPart.ofTokens ts)).map ofParts

/-- **The selectors of a prelude.** Of a block only the opening token
counts. -/
def ofPrelude (prelude : List Component) : List Selector :=
  ofTokens ((prelude.filter fun c => !c.isComment).map Component.token)

/-- **The canonical text of a selector**, or `none` when it is empty or has
a part that is not supported. -/
def canonical? (s : Selector) : Option String := do
  let texts ← s.parts.mapM SelectorPart.canonical?
  let text := String.join texts
  if text.isEmpty then none else some text

/-- The canonical texts of the supported selectors in a list. -/
def canonicalTexts (ss : List Selector) : List String := ss.filterMap canonical?

end Selector

end Stylebook.Css
