import Stylebook.Css.Stylesheet

/-!
# Plain declarations

Before a declaration is given a meaning, its value becomes one text: a
`PlainDeclaration`. White space, operators and addresses between the
elements of the value are left out and one space is put between what
remains. Inside a function the arguments are written one after the other
without any space.

Three properties are treated on their own, because the framework knows no
such shorthands. Of a `font-family` only the last family counts. A
`background` is read as a `background-color`. The borders of single sides
are left out.
-/

namespace Stylebook.Style

open Stylebook.Css (Value Declaration)

/-- **A declaration whose value is one text.** The property has its
stylesheet spelling. -/
structure PlainDeclaration where
  property : String
  value : String
  deriving DecidableEq, Repr

namespace PlainDeclaration

/-- A number with its unit, or with the default unit when it has none. -/
def withUnit (defaultUnit number unit : String) : String :=
  number ++ if unit.isEmpty then defaultUnit else unit

mutual
/-- **The text of a function**: its name and its arguments without anything
between them. -/
def functionText (defaultUnit name : String) (arguments : List Value) : String :=
  name ++ "(" ++ argumentsText defaultUnit arguments ++ ")"

/-- The text of function arguments, one after the other. -/
def argumentsText (defaultUnit : String) : List Value → String
  | [] => ""
  | v :: vs => argumentText defaultUnit v ++ argumentsText defaultUnit vs

/-- The text of one function argument. -/
def argumentText (defaultUnit : String) : Value → String
  | .ident n => n
  | .number t => t
  | .operator s => s
  | .dimension n u => withUnit defaultUnit n u
  | .percentage t => t ++ "%"
  | .hash h => "#" ++ h
  | .str s => "\"" ++ s ++ "\""
  | .function n args => functionText defaultUnit n args
  | .url _ => ""
  | .blank => ""
  | .other _ => ""
end

/-- **The text of one element of a value**, if the element counts. -/
def elementText? (defaultUnit : String) : Value → Option String
  | .ident n => some n
  | .dimension n u => some (withUnit defaultUnit n u)
  | .function n args => some (functionText defaultUnit n args)
  | .hash h => some ("#" ++ h)
  | .str s => some s
  | .number t => some t
  | .percentage t => some (t ++ "%")
  | .blank => none
  | .operator _ => none
  | .url _ => none
  | .other _ => none

/-- The borders of single sides. -/
def sideBorders : List String := ["border-bottom", "border-top", "border-right", "border-left"]

/-- **The plain form of a declaration**, or `none` when nothing of it can be
used. -/
def ofDeclaration? (defaultUnit : String) (d : Declaration) : Option PlainDeclaration :=
  let texts := d.value.filterMap (elementText? defaultUnit)
  match texts.getLast? with
  | none => none
  | some last =>
    if d.property = "font-family" then some ⟨d.property, last⟩
    else if d.property = "background" then some ⟨"background-color", Text.join " " texts⟩
    else if sideBorders.contains d.property then none
    else some ⟨d.property, Text.join " " texts⟩

end PlainDeclaration

end Stylebook.Style
