import Stylebook.Style.Value
import Stylebook.Style.Plain
import Stylebook.Style.Length

/-!
# What declarations mean to the framework

`expand` says which properties of the framework one plain declaration sets:
a shorthand sets several, a length is checked and given its unit, and names
are written in camel case. `transform` writes the properties of a list of
declarations one after the other into one table. A rule is transformed as a
whole: the first declaration that has no meaning is the error of all.
-/

namespace Stylebook.Style

/-- **Why a declaration has no meaning.** -/
inductive TransformError where
  | invalidValue (property value : String)
  | tooManyValues (property value : String)
  deriving DecidableEq, Repr

/-- The wording of an error. -/
def TransformError.message : TransformError → String
  | .invalidValue p v => "failed to parse declaration \"" ++ p ++ ": " ++ v ++ "\""
  | .tooManyValues p v => "too many values in \"" ++ p ++ ": " ++ v ++ "\""

/-- The properties whose only value is a length. -/
def lengthProperties : List String :=
  ["width", "height", "min-width", "min-height", "max-width", "max-height", "top", "right",
    "bottom", "left", "margin-top", "margin-right", "margin-bottom", "margin-left",
    "padding-top", "padding-right", "padding-bottom", "padding-left", "font-size",
    "line-height", "letter-spacing", "border-top-width", "border-right-width",
    "border-bottom-width", "border-left-width", "border-top-left-radius",
    "border-top-right-radius", "border-bottom-right-radius", "border-bottom-left-radius",
    "gap", "row-gap", "column-gap", "flex-basis"]

/-- The properties whose lengths may be `auto`. -/
def autoProperties : List String :=
  ["width", "height", "top", "right", "bottom", "left", "margin", "margin-top",
    "margin-right", "margin-bottom", "margin-left", "flex-basis"]

/-- The properties that are numbers when their value is one. -/
def numericProperties : List String :=
  ["opacity", "z-index", "font-weight", "flex-grow", "flex-shrink", "aspect-ratio",
    "elevation"]

/-- The properties that are numbers in any case. -/
def strictNumericProperties : List String := ["opacity", "z-index"]

/-- The words for the style of a border. -/
def borderStyles : List String :=
  ["none", "hidden", "solid", "dashed", "dotted", "double", "groove", "ridge", "inset",
    "outset"]

/-- The sides of a box, in the order of a shorthand. -/
def sides : List String := ["Top", "Right", "Bottom", "Left"]

/-- The corners of a box, in the order of a shorthand. -/
def corners : List String := ["TopLeft", "TopRight", "BottomRight", "BottomLeft"]

/-- Leaves hyphens out of a name and makes the letter after them a capital. -/
def camelChars (afterHyphen : Bool) : List Char → List Char
  | [] => []
  | c :: cs =>
    if c = '-' then camelChars true cs
    else (if afterHyphen then c.toUpper else c) :: camelChars false cs

/-- **A property name in camel case**, the way the framework spells it. -/
def camelCase (property : String) : String := String.ofList (camelChars false property.toList)

/-- The length that a part of a declaration gives to the property
`longhand`. -/
def lengthFor (d : PlainDeclaration) (defaultUnit longhand part : String) :
    Except TransformError String :=
  match length? (autoProperties.contains longhand) defaultUnit part with
  | some l => .ok l
  | none => .error (.invalidValue d.property d.value)

/-- **The four values of a box shorthand**: the missing ones are those
opposite. -/
def fourParts (d : PlainDeclaration) : List String → Except TransformError (List String)
  | [] => .error (.invalidValue d.property d.value)
  | [all] => .ok [all, all, all, all]
  | [vertical, horizontal] => .ok [vertical, horizontal, vertical, horizontal]
  | [top, horizontal, bottom] => .ok [top, horizontal, bottom, horizontal]
  | [top, right, bottom, left] => .ok [top, right, bottom, left]
  | _ => .error (.tooManyValues d.property d.value)

/-- The lengths of a box shorthand under the names of its four places. -/
def expandBox (d : PlainDeclaration) (defaultUnit : String) (keys parts : List String) :
    Except TransformError (List (String × StyleValue)) := do
  let four ← fourParts d parts
  let lengths ← four.mapM (lengthFor d defaultUnit d.property)
  return keys.zip (lengths.map StyleValue.text)

/-- What the parts of a border have set so far. -/
structure BorderParts where
  width : Option String := none
  style : Option String := none
  color : Option String := none
  deriving DecidableEq, Repr

/-- Adds one part of a border: a style, a length, or else a colour; `none`
when that is set already. -/
def BorderParts.add? (defaultUnit : String) (b : BorderParts) (part : String) :
    Option BorderParts :=
  if borderStyles.contains part then
    if b.style.isSome then none else some { b with style := some part }
  else
    match length? false defaultUnit part with
    | some l => if b.width.isSome then none else some { b with width := some l }
    | none => if b.color.isSome then none else some { b with color := some part }

/-- The properties that the parts of a border set. -/
def BorderParts.entries (b : BorderParts) : List (String × StyleValue) :=
  [("borderWidth", b.width), ("borderStyle", b.style), ("borderColor", b.color)].filterMap
    fun (key, value) => value.map fun v => (key, .text v)

/-- The properties that a `border` sets. -/
def expandBorder (d : PlainDeclaration) (defaultUnit : String) (parts : List String) :
    Except TransformError (List (String × StyleValue)) :=
  if parts.isEmpty then .error (.invalidValue d.property d.value)
  else
    match parts.foldlM (BorderParts.add? defaultUnit) {} with
    | some b => .ok b.entries
    | none => .error (.invalidValue d.property d.value)

/-- The number that a part of a declaration gives. -/
def numberFor (d : PlainDeclaration) (part : String) : Except TransformError StyleValue :=
  match number? part with
  | some n => .ok (.number n)
  | none => .error (.invalidValue d.property d.value)

/-- The properties that a `flex` sets. -/
def expandFlex (d : PlainDeclaration) (defaultUnit : String) :
    List String → Except TransformError (List (String × StyleValue))
  | [] => .error (.invalidValue d.property d.value)
  | [single] =>
    if single = "none" || single = "auto" then .ok [("flex", .text single)]
    else do return [("flex", ← numberFor d single)]
  | [grow, second] => do
    let g ← numberFor d grow
    match number? second with
    | some shrink => return [("flexGrow", g), ("flexShrink", .number shrink)]
    | none =>
      return [("flexGrow", g), ("flexBasis", .text (← lengthFor d defaultUnit "flex-basis" second))]
  | [grow, shrink, basis] => do
    let g ← numberFor d grow
    let s ← numberFor d shrink
    let b ← lengthFor d defaultUnit "flex-basis" basis
    return [("flexGrow", g), ("flexShrink", s), ("flexBasis", .text b)]
  | _ => .error (.tooManyValues d.property d.value)

/-- A declaration without white space around its value. -/
def PlainDeclaration.trimmed (d : PlainDeclaration) : PlainDeclaration :=
  ⟨d.property, Text.trim d.value⟩

/-- The single length of a declaration under the camel case of its property. -/
def expandLength (d : PlainDeclaration) (defaultUnit : String) :
    Except TransformError (List (String × StyleValue)) := do
  return [(camelCase d.property, .text (← lengthFor d defaultUnit d.property d.value))]

/-- The properties that a declaration without white space around its value
sets. -/
def expandTrimmed (d : PlainDeclaration) (defaultUnit : String) :
    Except TransformError (List (String × StyleValue)) :=
  let parts := Text.words d.value
  if d.property = "margin" || d.property = "padding" then
    expandBox d defaultUnit (sides.map fun s => camelCase d.property ++ s) parts
  else if d.property = "border-width" then
    expandBox d defaultUnit (sides.map fun s => "border" ++ s ++ "Width") parts
  else if d.property = "border-radius" then
    if 1 < parts.length then
      expandBox d defaultUnit (corners.map fun s => "border" ++ s ++ "Radius") parts
    else expandLength d defaultUnit
  else if d.property = "border" then expandBorder d defaultUnit parts
  else if d.property = "flex" then expandFlex d defaultUnit parts
  else if d.property = "line-height" then
    if isNonzeroMultiplier d.value then .error (.invalidValue d.property d.value)
    else expandLength d defaultUnit
  else if lengthProperties.contains d.property then
    if parts.length = 1 then expandLength d defaultUnit
    else .error (.invalidValue d.property d.value)
  else if numericProperties.contains d.property then
    match number? d.value with
    | some n => .ok [(camelCase d.property, .number n)]
    | none =>
      if strictNumericProperties.contains d.property then
        .error (.invalidValue d.property d.value)
      else .ok [(camelCase d.property, .text d.value)]
  else .ok [(camelCase d.property, .text d.value)]

/-- **The properties that one declaration sets**, in order. White space
around the value does not count. -/
def expand (defaultUnit : String) (d : PlainDeclaration) :
    Except TransformError (List (String × StyleValue)) :=
  expandTrimmed d.trimmed defaultUnit

/-- Writes the properties of declarations into a table. -/
def transformInto (defaultUnit : String) :
    Properties → List PlainDeclaration → Except TransformError Properties
  | t, [] => .ok t
  | t, d :: ds => do
    let entries ← expand defaultUnit d
    transformInto defaultUnit (t.insertAll entries) ds

/-- **The properties that a list of declarations sets.** A later declaration
of a property replaces an earlier one; a declaration without a meaning is
the error of the list. -/
def transform (defaultUnit : String) (ds : List PlainDeclaration) :
    Except TransformError Properties :=
  transformInto defaultUnit ∅ ds

end Stylebook.Style
